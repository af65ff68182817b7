import Dbos.Kernel.Process.Process

/-! # The scheduler

`scheduler.c`, together with `proc_destroy`, which the scheduler calls on the
corpses it takes from `dead_queue`. Floating point state, task state segments
and page directories do not influence which process runs next and are left to
the memory model. A `none` is a dereference of `NULL` or of a freed process. -/

namespace Dbos.Process

open Dbos.Queue

def schedMaxReady : Nat := 256

def schedMaxDead : Nat := 256

def schedMakeReady (sched : Sched) (process : Pid) : Sched :=
  let sched := sched.setState process .ready
  { sched with readyQueue := enqueue schedMaxReady sched.readyQueue process }

def schedMakeDead (sched : Sched) (process : Pid) : Sched :=
  let sched := sched.setState process .dead
  { sched with deadQueue := enqueue schedMaxDead sched.deadQueue process }

def schedPurgeProcess (sched : Sched) (process : Pid) : Sched :=
  { sched with
    readyQueue := forceRemove sched.readyQueue process
    deadQueue := forceRemove sched.deadQueue process }

def schedMakeNapping (sched : Sched) (process : Pid) (time : Int) : Option Sched :=
  (sched.proc? process).map fun proc =>
    if proc.state ≠ .dead ∧ proc.state ≠ .napping then
      let sched := (schedPurgeProcess sched process).setState process .napping
      { sched with nappingList := sched.nappingList ++ [⟨process, time⟩] }
    else sched

/-- `sched_wakeup`; the flag tells whether a napping process was found. -/
def schedWakeup (sched : Sched) (pid : Pid) : Bool × Sched :=
  match sched.nappingList.find? fun nap => nap.process = pid with
  | some nap =>
      let sched := { sched with
        nappingList := sched.nappingList.eraseP fun nap => nap.process = pid }
      (true, schedMakeReady (schedPurgeProcess sched nap.process) nap.process)
  | none => (false, sched)

/-- The loop of `sched_timekeeper`: the entries that stay in `napping_list`,
and the scheduler after the others have been made ready. -/
def timekeeperLoop : List Nap → Sched → List Nap × Sched
  | [], sched => ([], sched)
  | nap :: naps, sched =>
      if nap.counter - 1 ≤ 0 then
        timekeeperLoop naps (schedMakeReady sched nap.process)
      else
        let rest := timekeeperLoop naps sched
        (⟨nap.process, nap.counter - 1⟩ :: rest.1, rest.2)

def schedTimekeeper (sched : Sched) : Sched :=
  let result := timekeeperLoop sched.nappingList sched
  { result.2 with nappingList := result.1 }

/-- One iteration of the loop of `proc_destroy` over the waiters. -/
def wakeWaiter (process : Pid) (sched : Sched) (waiter : Pid) : Sched :=
  schedMakeReady (schedPurgeProcess (sched.setEax waiter process) waiter) waiter

/-- `proc_destroy`: an attempt to destroy the kernel is ignored. Its waiters
are made ready, its children go to its parent, and its structure is freed. -/
def procDestroy (sched : Sched) (process : Pid) : Option Sched :=
  if process = kernelPid then some sched
  else do
    let proc ← sched.proc? process
    let waiters ← proc.waiters
    let sched := waiters.foldl (wakeWaiter process) sched
    let sched := { sched with processTree := sched.processTree.dissolve process }
    return sched.freeProc process

/-- The corpse taken from `dead_queue` is destroyed only if the preempted
process is the kernel; otherwise it has been dequeued for nothing. -/
def reap (sched : Sched) (preempted : Pid) : Option Pid → Option Sched
  | some dead => if preempted = kernelPid then procDestroy sched dead else some sched
  | none => some sched

/-- `sched_get_next`: the process to run next and the scheduler without it. -/
def schedGetNext (sched : Sched) : Option (Pid × Sched) := do
  let current := sched.current
  let proc ← sched.proc? current
  let sched := if proc.state = .living then schedMakeReady sched current else sched
  let ready := (dequeue sched.readyQueue).1
  let sched := { sched with readyQueue := (dequeue sched.readyQueue).2 }
  let dead := (dequeue sched.deadQueue).1
  let sched := { sched with deadQueue := (dequeue sched.deadQueue).2 }
  let sched ← reap sched current dead
  let proc ← sched.proc? current
  let sched := if proc.state = .dead then schedMakeDead sched current else sched
  return (← ready, sched)

def schedPreemptHandler (sched : Sched) : Option Sched := do
  let (next, sched) ← schedGetNext sched
  let _ ← sched.proc? next
  return { sched.setState next .living with current := next }

/-- The process `sched_wait_for` and `sysc_kill` act on: what `proc_find` finds,
unless it is dead already. -/
def findLive (sched : Sched) (pid : Pid) : Option Pid :=
  (procFind sched pid).filter fun target => sched.state? target ≠ some .dead

/-- `sched_wait_for`. Its return value is dropped by the only caller. -/
def schedWaitFor (sched : Sched) (process pid : Pid) : Sched :=
  match findLive sched pid with
  | none => sched
  | some target =>
      schedPurgeProcess ((sched.setState process .napping).appendWaiter target process)
        process

end Dbos.Process
