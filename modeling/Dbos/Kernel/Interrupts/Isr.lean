import Dbos.Kernel.Process.SchedulerRuns

/-! # Acknowledging interrupts

`isr.c`: the dispatcher that every interrupt goes through, and the end of
interrupt commands it sends to the two interrupt controllers. Which commands it
sends is decided by the frame that the handler returns, and after a context
switch that is the frame with which another process entered the kernel. -/

namespace Dbos.Interrupts

open Dbos.Process Dbos.Execution

/-! ## The dispatcher -/

def irq0 : Nat := 32

def irq1 : Nat := 33

def irq8 : Nat := 40

def irq15 : Nat := 47

def isr14 : Nat := 14

def isr50 : Nat := 50

/-- The interrupts that reach the processor through the master controller. -/
def fromMaster (intNo : Nat) : Bool := irq0 ≤ intNo ∧ intNo ≤ irq15

/-- Those that reach the master through the slave. -/
def fromSlave (intNo : Nat) : Bool := irq8 ≤ intNo ∧ intNo ≤ irq15

/-- A call of `write_port_8`. -/
structure PortWrite where
  port : Nat
  value : Nat
deriving DecidableEq, Repr

def masterEoi : PortWrite := ⟨0x20, 0x20⟩

def slaveEoi : PortWrite := ⟨0xA0, 0x20⟩

/-- `clear_irq`, for the `int_no` of the frame it is given. -/
def clearIrq (intNo : Nat) : List PortWrite :=
  (if fromMaster intNo then [masterEoi] else []) ++
    (if fromSlave intNo then [slaveEoi] else [])

/-- What can happen next. -/
inductive Occurrence where
  /-- The events the scheduler takes part in: the timer, fatal page faults and
  the system calls that deal with processes. -/
  | scheduling (event : Event)
  /-- `parse_scancode`, which returns the frame it was given. -/
  | keyboard
  /-- The branch of `page_fault_handler` that copies the page. -/
  | copyOnWrite
  /-- A system call that leaves the scheduler alone, or an unknown one. -/
  | otherCall
  /-- An exception without an entry in `interrupt_handlers`. -/
  | unhandled (vector : Nat)
deriving DecidableEq, Repr

/-- The vector of an event; `kmain` spawning `/init` is no interrupt. -/
def eventVector : Event → Option Nat
  | .tick => some irq0
  | .fatalFault => some isr14
  | .kmainSpawn _ => none
  | .exit _ | .fork | .spawn _ | .wait _ | .wakeup _ | .kill _ | .sleep _ | .execve _ => some isr50

/-- The number that the entry stub of the interrupt pushes. -/
def Occurrence.vector : Occurrence → Option Nat
  | .scheduling event => eventVector event
  | .keyboard => some irq1
  | .copyOnWrite => some isr14
  | .otherCall => some isr50
  | .unhandled vector => some vector

/-- The scheduler, and for every process the `int_no` in the frame that
`proc_regs` points to. The frame of a user process is always at the top of its
kernel stack, where the processor puts it on every entry. -/
structure Machine where
  sched : Sched
  intNo : Pid → Nat

namespace Machine

def setIntNo (machine : Machine) (pid : Pid) (intNo : Nat) : Machine :=
  { machine with
    intNo := fun other => if other = pid then intNo else machine.intNo other }

/-- What the handlers write into frames: `proc_create` and `loader_exec` pretend
that the process was interrupted by the timer, `proc_clone` copies the frame of
the parent. -/
def writeFrames (machine : Machine) : Event → Machine
  | .fork => machine.setIntNo (machine.sched.procPid + 1) (machine.intNo machine.sched.current)
  | .spawn true => machine.setIntNo (machine.sched.procPid + 1) irq0
  | .kmainSpawn true => machine.setIntNo (machine.sched.procPid + 1) irq0
  | .execve true => machine.setIntNo machine.sched.current irq0
  | _ => machine

/-- The entries of `interrupt_handlers`. -/
def interruptHandler (machine : Machine) : Occurrence → Option Machine
  | .scheduling event =>
      (Process.step machine.sched event).map fun sched =>
        { machine.writeFrames event with sched := sched }
  | .keyboard => some machine
  | .copyOnWrite | .otherCall => if machine.sched.current ≠ kernelPid then some machine else none
  | .unhandled vector => if vector < 32 ∧ vector ≠ isr14 then some machine else none

/-- `isr_handler`, after the stub has pushed the frame of the current process:
the machine that is returned to, and what has been sent to the controllers. -/
def isrHandler (machine : Machine) (occurrence : Occurrence) (vector : Nat) :
    Option (Machine × List PortWrite) :=
  (interruptHandler (machine.setIntNo machine.sched.current vector) occurrence).map
    fun returned => (returned, clearIrq (returned.intNo returned.sched.current))

/-- One interrupt, or `kmain` spawning `/init`. -/
def step (machine : Machine) (occurrence : Occurrence) : Option Machine :=
  match occurrence.vector with
  | some vector => (machine.isrHandler occurrence vector).map Prod.fst
  | none => machine.interruptHandler occurrence

/-- The machine when the scheduler is started; nobody has been interrupted yet. -/
def boot : Machine := ⟨initialiseScheduler, fun _ => 0⟩

/-- The interrupt is acknowledged as it should be: the master hears of it if and
only if it came from the master, and the slave if and only if it came from the
slave. -/
def Acknowledged (machine : Machine) (occurrence : Occurrence) : Prop :=
  ∀ vector, occurrence.vector = some vector →
    ∀ returned writes, machine.isrHandler occurrence vector = some (returned, writes) →
      (masterEoi ∈ writes ↔ fromMaster vector) ∧ (slaveEoi ∈ writes ↔ fromSlave vector)

end Machine

theorem masterEoi_mem_clearIrq (intNo : Nat) : masterEoi ∈ clearIrq intNo ↔ fromMaster intNo := by
  have different : masterEoi ≠ slaveEoi := by decide
  unfold clearIrq
  split <;> split <;> simp [*]

theorem slaveEoi_mem_clearIrq (intNo : Nat) : slaveEoi ∈ clearIrq intNo ↔ fromSlave intNo := by
  have different : slaveEoi ≠ masterEoi := by decide
  unfold clearIrq
  split <;> split <;> simp [*]

/-! ## Which process is returned to -/

/-- The process that runs after the event: the first ready one if the event goes
through `sched_get_next` and there is one, the current one otherwise. -/
def upcoming (sched : Sched) (event : Event) : Pid :=
  if event.preempts then sched.readyQueue.head?.getD sched.current else sched.current

theorem head_offer {sched : Sched} {next : Pid} {rest : List Pid}
    (queue : (offer sched).readyQueue = next :: rest) :
    next = sched.readyQueue.head?.getD sched.current := by
  have cases_offer : (offer sched).readyQueue = sched.readyQueue ∨
      (offer sched).readyQueue = sched.readyQueue ++ [sched.current] := by
    unfold offer
    split
    case isFalse => exact .inl rfl
    case isTrue =>
      change Queue.enqueue _ sched.readyQueue _ = _ ∨ Queue.enqueue _ sched.readyQueue _ = _
      unfold Queue.enqueue
      split
      · exact .inr rfl
      · exact .inl rfl
  rcases cases_offer with same | appended
  · rw [← same, queue]
    rfl
  · rw [appended] at queue
    cases ready : sched.readyQueue with
    | nil =>
        rw [ready] at queue
        exact (List.cons.inj queue).1.symm
    | cons head tail =>
        rw [ready] at queue
        exact (List.cons.inj queue).1.symm

theorem current_schedPreemptHandler {sched after : Sched}
    (handled : schedPreemptHandler sched = some after) :
    after.current = sched.readyQueue.head?.getD sched.current := by
  rcases schedPreemptHandler_stages handled with ⟨next, rest, reaped, queue, -, -, switched⟩
  rw [switched, ← head_offer queue]

theorem current_syscExit {sched after : Sched}
    (handled : syscExit sched sched.current = some after) :
    after.current = sched.readyQueue.head?.getD sched.current := by
  have preempts : schedPreemptHandler (sched.setState sched.current .dead) = some after := handled
  have current := current_schedPreemptHandler preempts
  exact current

theorem current_handle {sched after : Sched} {event : Event}
    (handled : handle sched event = some after) : after.current = upcoming sched event := by
  cases event with
  | tick =>
      rcases Option.map_eq_some_iff.mp handled with ⟨switched, preempts, timed⟩
      rw [← timed]
      exact (current_timekeeperLoop switched.nappingList switched).trans
        (current_schedPreemptHandler preempts)
  | fatalFault => exact current_syscExit handled
  | exit status => exact current_syscExit handled
  | fork =>
      rw [← Option.some.inj handled]
      rfl
  | spawn binaryFound =>
      rw [← Option.some.inj handled]
      cases binaryFound <;> rfl
  | wait pid =>
      rcases Option.map_eq_some_iff.mp handled with ⟨switched, preempts, waits⟩
      have current : after.current = switched.current := by
        rw [← waits, schedWaitFor]
        split <;> rfl
      exact current.trans (current_schedPreemptHandler preempts)
  | wakeup pid =>
      rw [← Option.some.inj handled]
      exact current_schedWakeup sched pid
  | kill pid =>
      rw [← Option.some.inj handled]
      change (syscKill sched sched.current pid).current = sched.current
      unfold syscKill
      split <;> rfl
  | sleep time =>
      rcases Option.bind_eq_some_iff.mp handled with ⟨switched, preempts, naps⟩
      rcases Option.map_eq_some_iff.mp naps with ⟨proc, -, parked⟩
      have current : after.current = switched.current := by
        rw [← parked]
        split <;> rfl
      exact current.trans (current_schedPreemptHandler preempts)
  | execve binaryFound =>
      cases binaryFound with
      | true => exact current_schedPreemptHandler handled
      | false => exact current_syscExit handled
  | kmainSpawn binaryFound =>
      rw [← Option.some.inj handled]
      cases binaryFound <;> rfl

theorem current_step {sched after : Sched} {event : Event}
    (stepped : Process.step sched event = some after) :
    after.current = upcoming sched event := by
  unfold Process.step at stepped
  split at stepped
  case isFalse => cases stepped
  case isTrue =>
    rw [current_handle stepped]
    cases event <;> rfl

/-! ## New processes have new frames -/

/-- No process is created; some may be freed. -/
structure Shrinks (before after : Sched) : Prop where
  pids : after.procs.map Proc.pid ⊆ before.procs.map Proc.pid
  procPid : after.procPid = before.procPid

namespace Shrinks

theorem of_sameTree {before after : Sched} (same : SameTree before after)
    (procPid : after.procPid = before.procPid) : Shrinks before after :=
  ⟨same.pids ▸ List.Subset.refl _, procPid⟩

theorem trans {before middle after : Sched} (first : Shrinks before middle)
    (second : Shrinks middle after) : Shrinks before after :=
  ⟨fun _ member => first.pids (second.pids member), second.procPid.trans first.procPid⟩

theorem procPid_wakeWaiters (process : Pid) (waiters : List Pid) (sched : Sched) :
    (waiters.foldl (wakeWaiter process) sched).procPid = sched.procPid := by
  induction waiters generalizing sched with
  | nil => rfl
  | cons waiter rest induction =>
      rw [List.foldl_cons, induction]
      rfl

theorem reap {sched next : Sched} {preempted : Pid} {corpse : Option Pid}
    (reaping : Process.reap sched preempted corpse = some next) : Shrinks sched next := by
  have unchanged : Shrinks sched sched := of_sameTree (.refl sched) rfl
  unfold Process.reap at reaping
  split at reaping
  case h_2 => exact Option.some.inj reaping ▸ unchanged
  case h_1 dead =>
    split at reaping
    case isFalse => exact Option.some.inj reaping ▸ unchanged
    case isTrue =>
      by_cases kernel : dead = kernelPid
      · rw [procDestroy, if_pos kernel] at reaping
        exact Option.some.inj reaping ▸ unchanged
      · have freed : Shrinks sched (unlink sched dead) :=
          ⟨(List.filter_sublist.map Proc.pid).subset, rfl⟩
        rw [(procDestroy_eq kernel reaping).2]
        apply freed.trans
        exact of_sameTree (.wakeWaiters _ _ _) (procPid_wakeWaiters ..)

theorem offer (sched : Sched) : Shrinks sched (Process.offer sched) := by
  apply of_sameTree (.offer sched)
  unfold Process.offer
  split <;> rfl

theorem bury (sched : Sched) (process : Pid) : Shrinks sched (Process.bury sched process) := by
  apply of_sameTree (.bury sched process)
  unfold Process.bury
  split <;> rfl

end Shrinks

theorem procPid_timekeeperLoop (naps : List Nap) (sched : Sched) :
    (timekeeperLoop naps sched).2.procPid = sched.procPid := by
  induction naps generalizing sched with
  | nil => rfl
  | cons nap rest induction =>
      unfold timekeeperLoop
      split
      · exact induction _
      · exact induction sched

/-- The current process is allocated, and the ids of the processes have all been
handed out. -/
structure Numbered (sched : Sched) : Prop where
  current : sched.current ∈ sched.procs.map Proc.pid
  bounded : ∀ pid ∈ sched.procs.map Proc.pid, pid ≤ sched.procPid

namespace Numbered

variable {sched next : Sched} (numbered : Numbered sched)
include numbered

theorem of_sameTree (same : SameTree sched next) (procPid : next.procPid = sched.procPid)
    (current : next.current = sched.current) : Numbered next := by
  refine ⟨?_, ?_⟩
  · rw [current, same.pids]
    exact numbered.current
  · rw [same.pids, procPid]
    exact numbered.bounded

theorem schedPreemptHandler (handled : Process.schedPreemptHandler sched = some next) :
    Numbered next := by
  rcases schedPreemptHandler_stages handled with
    ⟨chosen, rest, reaped, -, reaping, present, switched⟩
  have choosing : Shrinks sched { offer sched with
      readyQueue := rest, deadQueue := (offer sched).deadQueue.tail } :=
    ⟨(Shrinks.offer sched).pids, (Shrinks.offer sched).procPid⟩
  have buried := (choosing.trans (.reap reaping)).trans (.bury reaped sched.current)
  have same := SameTree.setState (bury reaped sched.current) chosen .living
  rw [switched]
  refine ⟨?_, ?_⟩
  · change chosen ∈ ((bury reaped sched.current).setState chosen .living).procs.map Proc.pid
    rw [same.pids]
    exact state?_ne_none_iff.mp present
  · intro pid member
    change pid ∈ ((bury reaped sched.current).setState chosen .living).procs.map Proc.pid at member
    change pid ≤ (bury reaped sched.current).procPid
    rw [same.pids] at member
    rw [buried.procPid]
    exact numbered.bounded pid (buried.pids member)

theorem syscExit (handled : Process.syscExit sched sched.current = some next) :
    Numbered next := by
  have dying : Numbered (sched.setState sched.current .dead) :=
    numbered.of_sameTree (.setState sched sched.current .dead) rfl rfl
  exact dying.schedPreemptHandler handled

theorem procCreate (parent : Pid) : Numbered (Process.procCreate sched parent).2 := by
  refine ⟨?_, ?_⟩
  · change sched.current ∈ (sched.procs ++ [_]).map Proc.pid
    rw [List.map_append]
    exact List.mem_append_left _ numbered.current
  · intro pid member
    change pid ∈ (sched.procs ++ [_]).map Proc.pid at member
    change pid ≤ sched.procPid + 1
    rw [List.map_append, List.mem_append] at member
    rcases member with old | new
    · exact Int.le_trans (numbered.bounded pid old) (Int.le_add_one (Int.le_refl _))
    · exact Int.le_of_eq (List.mem_singleton.mp new)

theorem loaderSpawn (parent : Pid) (binaryFound : Bool) :
    Numbered (Process.loaderSpawn sched parent binaryFound).2 := by
  cases binaryFound with
  | false => exact numbered
  | true => exact (numbered.procCreate parent).of_sameTree (.makeReady _ _) rfl rfl

theorem handle {event : Event} (handled : Process.handle sched event = some next) :
    Numbered next := by
  cases event with
  | tick =>
      rcases Option.map_eq_some_iff.mp handled with ⟨switched, preempts, timed⟩
      have same := SameTree.timekeeperLoop switched switched.nappingList
      rw [← timed]
      refine (numbered.schedPreemptHandler preempts).of_sameTree ⟨same.tree, same.procs⟩ ?_ ?_
      · exact procPid_timekeeperLoop switched.nappingList switched
      · exact current_timekeeperLoop switched.nappingList switched
  | fatalFault => exact numbered.syscExit handled
  | exit status => exact numbered.syscExit handled
  | fork =>
      rw [← Option.some.inj handled]
      have created := numbered.procCreate sched.current
      have written := created.of_sameTree (.setEax _ sched.current (sched.procPid + 1)) rfl rfl
      exact written.of_sameTree (.makeReady _ _) rfl rfl
  | spawn binaryFound =>
      rw [← Option.some.inj handled]
      have spawned := numbered.loaderSpawn sched.current binaryFound
      exact spawned.of_sameTree (.setEax _ _ _) rfl rfl
  | wait pid =>
      rcases Option.map_eq_some_iff.mp handled with ⟨switched, preempts, waits⟩
      rw [← waits]
      apply (numbered.schedPreemptHandler preempts).of_sameTree (.schedWaitFor ..)
      · unfold schedWaitFor
        split <;> rfl
      · unfold schedWaitFor
        split <;> rfl
  | wakeup pid =>
      rw [← Option.some.inj handled]
      have woken := numbered.of_sameTree (.schedWakeup sched pid)
        (by unfold schedWakeup; split <;> rfl) (current_schedWakeup sched pid)
      exact woken.of_sameTree (.setEax _ _ _) rfl rfl
  | kill pid =>
      rw [← Option.some.inj handled]
      apply numbered.of_sameTree (.syscKill sched sched.current pid)
      · unfold syscKill
        split <;> rfl
      · unfold syscKill
        split <;> rfl
  | sleep time =>
      rcases Option.bind_eq_some_iff.mp handled with ⟨switched, preempts, naps⟩
      rcases Option.map_eq_some_iff.mp naps with ⟨proc, -, parked⟩
      apply (numbered.schedPreemptHandler preempts).of_sameTree (.schedMakeNapping _ naps)
      · rw [← parked]
        split <;> rfl
      · rw [← parked]
        split <;> rfl
  | execve binaryFound =>
      cases binaryFound with
      | true => exact numbered.schedPreemptHandler handled
      | false => exact numbered.syscExit handled
  | kmainSpawn binaryFound =>
      rw [← Option.some.inj handled]
      exact numbered.loaderSpawn sched.current binaryFound

theorem step {event : Event} (stepped : Process.step sched event = some next) :
    Numbered next := by
  unfold Process.step at stepped
  split at stepped
  case isFalse => cases stepped
  case isTrue =>
    unfold enter at stepped
    split at stepped
    case h_1 number _ =>
      exact (numbered.of_sameTree (.setEax sched sched.current number) rfl rfl).handle stepped
    case h_2 => exact numbered.handle stepped

end Numbered

/-! ## When interrupts are acknowledged -/

namespace Machine

@[simp] theorem setIntNo_self (machine : Machine) (pid : Pid) (intNo : Nat) :
    (machine.setIntNo pid intNo).intNo pid = intNo :=
  if_pos rfl

theorem setIntNo_other (machine : Machine) {pid other : Pid} (intNo : Nat)
    (different : other ≠ pid) : (machine.setIntNo pid intNo).intNo other = machine.intNo other :=
  if_neg different

/-- Whoever runs next, its frame tells the truth: it is the current process, which
has not called `execve`, or a process that entered the kernel by an interrupt of
the same kind. -/
def resumesAlike (machine : Machine) : Occurrence → Prop
  | .scheduling event =>
      let next := upcoming machine.sched event
      if next = machine.sched.current then event ≠ .execve true
      else ∀ vector ∈ eventVector event,
        fromMaster (machine.intNo next) = fromMaster vector ∧
          fromSlave (machine.intNo next) = fromSlave vector
  | _ => True

instance (machine : Machine) : DecidablePred machine.resumesAlike
  | .scheduling event => by unfold resumesAlike; infer_instance
  | .keyboard | .copyOnWrite | .otherCall | .unhandled _ => .isTrue trivial

theorem intNo_current_writeFrames {machine : Machine} {event : Event} {vector : Nat}
    (numbered : Numbered machine.sched) (isVector : eventVector event = some vector) :
    ((machine.setIntNo machine.sched.current vector).writeFrames event).intNo
      machine.sched.current = if event = .execve true then irq0 else vector := by
  have old : machine.sched.current ≠ machine.sched.procPid + 1 := by
    have bound := numbered.bounded _ numbered.current
    intro equal
    rw [equal] at bound
    exact absurd bound (Int.not_le.mpr (Int.lt_succ _))
  cases event with
  | fork =>
      rw [if_neg (by simp)]
      exact (setIntNo_other _ _ old).trans (setIntNo_self ..)
  | spawn binaryFound =>
      cases binaryFound with
      | false => exact setIntNo_self ..
      | true =>
          rw [if_neg (by simp)]
          exact (setIntNo_other _ _ old).trans (setIntNo_self ..)
  | execve binaryFound => cases binaryFound <;> exact setIntNo_self ..
  | kmainSpawn binaryFound => cases isVector
  | _ =>
      rw [if_neg (by simp)]
      exact setIntNo_self ..

theorem intNo_other_writeFrames {machine : Machine} {event : Event} {pid : Pid} {vector : Nat}
    (preempts : event.preempts) (different : pid ≠ machine.sched.current) :
    ((machine.setIntNo machine.sched.current vector).writeFrames event).intNo pid =
      machine.intNo pid := by
  have entered := setIntNo_other machine vector different
  cases event with
  | execve binaryFound =>
      cases binaryFound with
      | false => exact entered
      | true => exact (setIntNo_other _ _ different).trans entered
  | fork => cases preempts
  | spawn binaryFound => cases preempts
  | kmainSpawn binaryFound => cases preempts
  | _ => exact entered

theorem acknowledged_iff_of_returns {machine returned : Machine} {occurrence : Occurrence}
    {vector : Nat} (isVector : occurrence.vector = some vector)
    (returns : interruptHandler (machine.setIntNo machine.sched.current vector) occurrence =
      some returned) :
    machine.Acknowledged occurrence ↔
      fromMaster (returned.intNo returned.sched.current) = fromMaster vector ∧
        fromSlave (returned.intNo returned.sched.current) = fromSlave vector := by
  have handles : machine.isrHandler occurrence vector =
      some (returned, clearIrq (returned.intNo returned.sched.current)) := by
    rw [isrHandler, returns]
    rfl
  have reads : machine.Acknowledged occurrence ↔
      (masterEoi ∈ clearIrq (returned.intNo returned.sched.current) ↔ fromMaster vector) ∧
        (slaveEoi ∈ clearIrq (returned.intNo returned.sched.current) ↔ fromSlave vector) := by
    constructor
    · intro acknowledged
      exact acknowledged vector isVector returned _ handles
    · intro right other isOther next writes handled
      rw [isVector] at isOther
      cases isOther
      rw [handles] at handled
      cases handled
      exact right
  rw [reads, masterEoi_mem_clearIrq, slaveEoi_mem_clearIrq, Bool.coe_iff_coe, Bool.coe_iff_coe]

theorem acknowledged_of_returns_same {machine returned : Machine} {occurrence : Occurrence}
    {vector : Nat} (isVector : occurrence.vector = some vector)
    (returns : interruptHandler (machine.setIntNo machine.sched.current vector) occurrence =
      some returned)
    (same : machine.setIntNo machine.sched.current vector = returned) :
    machine.Acknowledged occurrence := by
  apply (acknowledged_iff_of_returns isVector returns).mpr
  rw [← same]
  change fromMaster ((machine.setIntNo _ vector).intNo machine.sched.current) = _ ∧
    fromSlave ((machine.setIntNo _ vector).intNo machine.sched.current) = _
  rw [setIntNo_self]
  exact ⟨rfl, rfl⟩

theorem acknowledged_scheduling_iff {machine returned : Machine} {event : Event} {vector : Nat}
    (numbered : Numbered machine.sched) (isVector : eventVector event = some vector)
    (returns : interruptHandler (machine.setIntNo machine.sched.current vector)
      (.scheduling event) = some returned) :
    machine.Acknowledged (.scheduling event) ↔ machine.resumesAlike (.scheduling event) := by
  have occurs : (Occurrence.scheduling event).vector = some vector := isVector
  rw [acknowledged_iff_of_returns occurs returns]
  rcases Option.map_eq_some_iff.mp returns with ⟨sched, stepped, result⟩
  have current : sched.current = upcoming machine.sched event := current_step stepped
  rw [← result]
  change fromMaster (((machine.setIntNo machine.sched.current vector).writeFrames event).intNo
    sched.current) = _ ∧ fromSlave (((machine.setIntNo machine.sched.current vector).writeFrames
    event).intNo sched.current) = _ ↔ _
  rw [current]
  simp only [resumesAlike]
  by_cases stays : upcoming machine.sched event = machine.sched.current
  · rw [stays, if_pos rfl, intNo_current_writeFrames numbered isVector]
    by_cases execs : event = .execve true
    · subst execs
      cases isVector
      simp only [if_true, ne_eq, not_true_eq_false, iff_false]
      decide
    · simp [execs]
  · have preempts : event.preempts := by
      by_contra keeps
      exact stays (if_neg keeps)
    rw [if_neg stays, intNo_other_writeFrames preempts stays, isVector]
    simp

theorem acknowledged_step_iff {machine next : Machine} {occurrence : Occurrence}
    (numbered : Numbered machine.sched) (stepped : machine.step occurrence = some next) :
    machine.Acknowledged occurrence ↔ machine.resumesAlike occurrence := by
  cases isVector : occurrence.vector with
  | none =>
      cases occurrence with
      | scheduling event =>
          cases event with
          | kmainSpawn binaryFound =>
              constructor
              · intro _
                change (if upcoming machine.sched (.kmainSpawn binaryFound) = _ then _ else _)
                simp [upcoming, Event.preempts]
              · intro _ vector isSome
                cases isSome
          | _ => cases isVector
      | _ => cases isVector
  | some vector =>
      unfold step at stepped
      rw [isVector] at stepped
      rcases Option.map_eq_some_iff.mp stepped with ⟨result, handled, -⟩
      rcases Option.map_eq_some_iff.mp handled with ⟨returned, returns, -⟩
      cases occurrence with
      | scheduling event => exact acknowledged_scheduling_iff numbered isVector returns
      | keyboard =>
          have same := Option.some.inj returns
          exact iff_of_true (acknowledged_of_returns_same isVector returns same) trivial
      | copyOnWrite =>
          have same := Option.some.inj (Option.ite_none_right_eq_some.mp returns).2
          exact iff_of_true (acknowledged_of_returns_same isVector returns same) trivial
      | otherCall =>
          have same := Option.some.inj (Option.ite_none_right_eq_some.mp returns).2
          exact iff_of_true (acknowledged_of_returns_same isVector returns same) trivial
      | unhandled number =>
          have same := Option.some.inj (Option.ite_none_right_eq_some.mp returns).2
          exact iff_of_true (acknowledged_of_returns_same isVector returns same) trivial

theorem sched_interruptHandler {machine returned : Machine} {occurrence : Occurrence}
    (numbered : Numbered machine.sched)
    (returns : machine.interruptHandler occurrence = some returned) : Numbered returned.sched := by
  cases occurrence with
  | scheduling event =>
      rcases Option.map_eq_some_iff.mp returns with ⟨sched, stepped, result⟩
      rw [← result]
      exact numbered.step stepped
  | keyboard => exact Option.some.inj returns ▸ numbered
  | copyOnWrite => exact Option.some.inj (Option.ite_none_right_eq_some.mp returns).2 ▸ numbered
  | otherCall => exact Option.some.inj (Option.ite_none_right_eq_some.mp returns).2 ▸ numbered
  | unhandled vector =>
      exact Option.some.inj (Option.ite_none_right_eq_some.mp returns).2 ▸ numbered

theorem numbered_step {machine next : Machine} {occurrence : Occurrence}
    (numbered : Numbered machine.sched) (stepped : machine.step occurrence = some next) :
    Numbered next.sched := by
  unfold step at stepped
  split at stepped
  case h_1 vector _ =>
    rcases Option.map_eq_some_iff.mp stepped with ⟨result, handled, isNext⟩
    rcases Option.map_eq_some_iff.mp handled with ⟨returned, returns, isResult⟩
    subst isResult
    subst isNext
    have entered : Numbered (machine.setIntNo machine.sched.current vector).sched := numbered
    exact sched_interruptHandler entered returns
  case h_2 => exact sched_interruptHandler numbered stepped

theorem numbered_boot : Numbered boot.sched := by
  refine ⟨by decide, ?_⟩
  intro pid member
  rw [List.mem_singleton.mp member]
  decide

/-- In every run from boot, all interrupts are acknowledged as they should be if
and only if each of them resumes the process it interrupted, or one whose frame
is of the same kind. -/
theorem acknowledged_iff {occurrences : List Occurrence} {final : Machine}
    (reached : run step boot occurrences = some final) :
    Admissible step Acknowledged boot occurrences ↔
      Admissible step resumesAlike boot occurrences :=
  admissible_congr (fun _ _ _ numbered stepped => numbered_step numbered stepped)
    (fun _ _ _ numbered stepped => acknowledged_step_iff numbered stepped) numbered_boot reached

/-- The timer switches between the kernel and `init`, which is interrupted by the
keyboard, makes a system call and writes to a shared page. -/
def timerFirst : List Occurrence :=
  [.scheduling (.kmainSpawn true), .scheduling .tick, .keyboard, .scheduling .tick,
    .scheduling .tick, .otherCall, .copyOnWrite]

theorem acknowledged_timerFirst :
    (∃ final, run step boot timerFirst = some final) ∧
      Admissible step Acknowledged boot timerFirst := by
  have runs : (run step boot timerFirst).isSome := by decide
  rcases Option.isSome_iff_exists.mp runs with ⟨final, reached⟩
  exact ⟨⟨final, reached⟩, (acknowledged_iff reached).mpr (by decide)⟩

/-- `init` goes to sleep, and the timer resumes it when its time is over. -/
def sleepAndTick : List Occurrence :=
  [.scheduling (.kmainSpawn true), .scheduling .tick, .scheduling (.sleep 1), .scheduling .tick,
    .scheduling .tick]

/-- The tick that resumes `init` is not acknowledged: its frame is that of the
system call. -/
theorem not_acknowledged :
    ¬∀ (occurrences : List Occurrence) (final : Machine),
      run step boot occurrences = some final →
      Admissible step Acknowledged boot occurrences := by
  intro always
  have runs : (run step boot sleepAndTick).isSome := by decide
  rcases Option.isSome_iff_exists.mp runs with ⟨final, reached⟩
  have asleep : (run step boot (sleepAndTick.take 4)).isSome := by decide
  rcases Option.isSome_iff_exists.mp asleep with ⟨middle, slept⟩
  have unsent : ((run step boot (sleepAndTick.take 4)).bind fun machine =>
      (machine.isrHandler (.scheduling .tick) irq0).map Prod.snd) = some [] := by decide
  rw [slept, Option.bind_some] at unsent
  rcases Option.map_eq_some_iff.mp unsent with ⟨⟨returned, writes⟩, handled, empty⟩
  have split : sleepAndTick = sleepAndTick.take 4 ++ [.scheduling .tick] := by decide
  have admissible := always sleepAndTick final reached
  rw [split] at admissible
  rcases (admissible.append slept).2 with ⟨acknowledged, -⟩
  have master := (acknowledged irq0 rfl returned writes handled).1
  rw [show writes = [] from empty] at master
  exact absurd (master.mpr rfl) (by simp)

end Machine

end Dbos.Interrupts
