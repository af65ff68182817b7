import Dbos.Kernel.Process.Scheduler

/-! # Events that reach the scheduler

The timer interrupt, fatal page faults and the process system calls of
`syscall.c`, each as one step of the machine. A system call is made by the
current process, and never by the kernel process: after boot that one only
halts. What `vfs_find_node` and the loader find out about a file is a parameter
of the event. -/

namespace Dbos.Process

open Dbos.Queue

/-- What can happen next. -/
inductive Event where
  /-- `pit_interrupt_handler`: `sched_preempt_handler`, then `sched_timekeeper`. -/
  | tick
  /-- The last branch of `page_fault_handler` that returns. -/
  | fatalFault
  | exit (status : Int)
  | fork
  | spawn (binaryFound : Bool)
  | wait (pid : Pid)
  | wakeup (pid : Pid)
  | kill (pid : Pid)
  | sleep (time : Int)
  | execve (binaryFound : Bool)
  /-- `kmain` spawning `/init`. -/
  | kmainSpawn (binaryFound : Bool)
deriving DecidableEq, Repr

/-- The `SYSCALL_*` number found in `eax`; nothing for the other events. -/
def Event.syscallNumber : Event → Option Int
  | .exit _ => some 1
  | .fork => some 2
  | .spawn _ => some 3
  | .wait _ => some 4
  | .wakeup _ => some 5
  | .kill _ => some 6
  | .execve _ => some 7
  | .sleep _ => some 9
  | .tick | .fatalFault | .kmainSpawn _ => none

/-- `proc_create` and `proc_clone`: a fresh process under `parent`. -/
def procCreate (sched : Sched) (parent : Pid) : Pid × Sched :=
  let pid := sched.procPid + 1
  (pid,
    { sched with
      procPid := pid
      procs := sched.procs ++ [⟨pid, .ready, some [], 0⟩]
      processTree := sched.processTree.createUnder parent pid })

/-- `loader_spawn`: the id of the new process, or -1 without a binary. -/
def loaderSpawn (sched : Sched) (parent : Pid) (binaryFound : Bool) : Int × Sched :=
  if binaryFound then
    let created := procCreate sched parent
    (created.1, schedMakeReady created.2 created.1)
  else (-1, sched)

def syscFork (sched : Sched) (process : Pid) : Sched :=
  let forked := procCreate sched process
  let sched := forked.2.setEax process forked.1
  schedMakeReady sched forked.1

/-- `sysc_exit`, and the fatal branch of `page_fault_handler`. -/
def syscExit (sched : Sched) (process : Pid) : Option Sched :=
  schedPreemptHandler (sched.setState process .dead)

/-- `sysc_execve`: a binary that is not found kills the process. -/
def syscExecve (sched : Sched) (process : Pid) (binaryFound : Bool) : Option Sched :=
  if binaryFound then schedPreemptHandler sched else syscExit sched process

def syscSpawn (sched : Sched) (process : Pid) (binaryFound : Bool) : Sched :=
  let spawned := loaderSpawn sched process binaryFound
  spawned.2.setEax process spawned.1

/-- `sysc_wait`: nothing is written to `eax`. -/
def syscWait (sched : Sched) (process pid : Pid) : Option Sched :=
  (schedPreemptHandler sched).map fun sched => schedWaitFor sched process pid

def syscWakeup (sched : Sched) (process pid : Pid) : Sched :=
  let woken := schedWakeup sched pid
  woken.2.setEax process (if woken.1 then 0 else -1)

def syscSleep (sched : Sched) (process : Pid) (time : Int) : Option Sched :=
  (schedPreemptHandler sched).bind fun sched => schedMakeNapping sched process time

def syscKill (sched : Sched) (process pid : Pid) : Sched :=
  match findLive sched pid with
  | some target => (schedMakeDead (schedPurgeProcess sched target) target).setEax process 0
  | none => sched.setEax process (-1)

/-- What the handler of an event does for the current process. -/
def handle (sched : Sched) : Event → Option Sched
  | .tick => (schedPreemptHandler sched).map schedTimekeeper
  | .fatalFault => syscExit sched sched.current
  | .exit _ => syscExit sched sched.current
  | .fork => some (syscFork sched sched.current)
  | .spawn binaryFound => some (syscSpawn sched sched.current binaryFound)
  | .wait pid => syscWait sched sched.current pid
  | .wakeup pid => some (syscWakeup sched sched.current pid)
  | .kill pid => some (syscKill sched sched.current pid)
  | .sleep time => syscSleep sched sched.current time
  | .execve binaryFound => syscExecve sched sched.current binaryFound
  | .kmainSpawn binaryFound => some (loaderSpawn sched sched.current binaryFound).2

/-- Who can cause the event: the kernel runs only `kmain`, and everything else
but the timer needs user code. -/
def Event.mayOccur (sched : Sched) : Event → Bool
  | .tick => true
  | .kmainSpawn _ => sched.current = kernelPid
  | _ => sched.current ≠ kernelPid

/-- The registers the handler finds: `eax` holds the system call number. -/
def enter (sched : Sched) (event : Event) : Sched :=
  match event.syscallNumber with
  | some number => sched.setEax sched.current number
  | none => sched

def step (sched : Sched) (event : Event) : Option Sched :=
  if event.mayOccur sched then handle (enter sched event) event else none

/-- What `proc_create_kernel` and `initialise_scheduler` leave. -/
def initialiseScheduler : Sched where
  procs := [⟨kernelPid, .living, none, 0⟩]
  processTree := .node kernelPid []
  procPid := 1
  current := kernelPid
  readyQueue := []
  deadQueue := []
  nappingList := []

end Dbos.Process
