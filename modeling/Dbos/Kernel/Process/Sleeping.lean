import Dbos.Foundation.Execution
import Dbos.Kernel.Process.Timekeeper

/-! # Sleeping processes

A process that has been put to sleep stays asleep until the timekeeper has been called as
often as it was told to sleep, whatever the other processes do in between. -/

namespace Dbos.Process

open Dbos.Queue Dbos.Execution

/-! ## What other processes leave to a process -/

def napsOf (pid : Pid) (naps : List Nap) : List Nap := naps.filter fun nap => nap.process = pid

/-- The process is not put in the dead queue, on a waiters list or on `napping_list`, and it
is not removed from the latter. -/
structure Spared (pid : Pid) (before after : Sched) : Prop where
  known : before.procPid ≤ after.procPid
  dead : pid ∈ after.deadQueue → pid ∈ before.deadQueue
  waits : ∀ target, pid ∈ after.waitersOf target → ∃ other, pid ∈ before.waitersOf other
  naps : napsOf pid after.nappingList = napsOf pid before.nappingList

/-- Neither is its state changed, and it is not made ready. -/
structure Untouched (pid : Pid) (before after : Sched) : Prop extends Spared pid before after where
  state : after.state? pid = before.state? pid
  ready : pid ∈ after.readyQueue → pid ∈ before.readyQueue

theorem Spared.trans {pid : Pid} {before middle after : Sched} (first : Spared pid before middle)
    (second : Spared pid middle after) : Spared pid before after where
  known := Int.le_trans first.known second.known
  dead inQueue := first.dead (second.dead inQueue)
  waits target waiting := by
    rcases second.waits target waiting with ⟨other, stillWaiting⟩
    exact first.waits other stillWaiting
  naps := second.naps.trans first.naps

namespace Untouched

variable {pid : Pid} {sched before middle after : Sched}

theorem refl (pid : Pid) (sched : Sched) : Untouched pid sched sched :=
  ⟨⟨Int.le_refl _, id, fun target waiting => ⟨target, waiting⟩, rfl⟩, rfl, id⟩

theorem trans (first : Untouched pid before middle) (second : Untouched pid middle after) :
    Untouched pid before after :=
  ⟨first.toSpared.trans second.toSpared, second.state.trans first.state,
    fun inQueue => first.ready (second.ready inQueue)⟩

theorem setState {other : Pid} (different : pid ≠ other) (state : ProcState) :
    Untouched pid sched (sched.setState other state) := by
  refine ⟨⟨Int.le_refl _, id, fun target waiting => ⟨target, ?_⟩, rfl⟩, ?_, id⟩
  · rwa [Sched.waitersOf_setState] at waiting
  · rw [Sched.state?_setState, if_neg different]

theorem setEax (other : Pid) (value : Int) : Untouched pid sched (sched.setEax other value) := by
  refine ⟨⟨Int.le_refl _, id, fun target waiting => ⟨target, ?_⟩, rfl⟩, ?_, id⟩
  · rwa [Sched.waitersOf_setEax] at waiting
  · rw [Sched.state?_setEax]

theorem makeReady {other : Pid} (different : pid ≠ other) :
    Untouched pid sched (schedMakeReady sched other) := by
  have changed := @setState pid sched other different .ready
  refine ⟨⟨changed.known, changed.dead, changed.waits, changed.naps⟩, changed.state, ?_⟩
  intro inQueue
  exact (mem_enqueue inQueue).resolve_right different

theorem makeDead {other : Pid} (different : pid ≠ other) :
    Untouched pid sched (schedMakeDead sched other) := by
  have changed := @setState pid sched other different .dead
  refine ⟨⟨changed.known, ?_, changed.waits, changed.naps⟩, changed.state, changed.ready⟩
  intro inQueue
  exact (mem_enqueue inQueue).resolve_right different

theorem purge (other : Pid) : Untouched pid sched (schedPurgeProcess sched other) :=
  ⟨⟨Int.le_refl _, fun inQueue => (mem_forceRemove.mp inQueue).1,
      fun target waiting => ⟨target, waiting⟩, rfl⟩, rfl,
    fun inQueue => (mem_forceRemove.mp inQueue).1⟩

theorem unlink {other : Pid} (different : pid ≠ other) :
    Untouched pid sched (Process.unlink sched other) := by
  refine ⟨⟨Int.le_refl _, id, fun target waiting => ⟨target, ?_⟩, rfl⟩, ?_, id⟩
  · rw [Process.unlink, Sched.waitersOf_freeProc] at waiting
    split at waiting
    · cases waiting
    · exact waiting
  · rw [state?_unlink, if_neg different]

theorem wakeWaiters {process : Pid} {waiters : List Pid} (notWaiting : pid ∉ waiters) :
    Untouched pid sched (waiters.foldl (wakeWaiter process) sched) := by
  induction waiters generalizing sched with
  | nil => exact refl pid sched
  | cons waiter waiters induction =>
      rw [List.mem_cons, not_or] at notWaiting
      have woken : Untouched pid sched (wakeWaiter process sched waiter) :=
        ((setEax waiter process).trans (purge waiter)).trans (makeReady notWaiting.1)
      exact woken.trans (induction notWaiting.2)

theorem foldlMakeReady {pids : List Pid} (notMember : pid ∉ pids) :
    Untouched pid sched (pids.foldl schedMakeReady sched) := by
  induction pids generalizing sched with
  | nil => exact refl pid sched
  | cons other pids induction =>
      rw [List.mem_cons, not_or] at notMember
      exact (makeReady notMember.1).trans (induction notMember.2)

theorem destroy {process : Pid} (different : pid ≠ process)
    (notWaiting : pid ∉ sched.waitersOf process)
    (destroyed : procDestroy sched process = some after) : Untouched pid sched after := by
  by_cases isKernel : process = kernelPid
  · rw [procDestroy, if_pos isKernel] at destroyed
    cases destroyed
    exact refl pid sched
  · rw [(procDestroy_eq isKernel destroyed).2]
    exact (unlink different).trans (wakeWaiters notWaiting)

theorem reap {preempted : Pid} {corpse : Option Pid} (different : ∀ dead ∈ corpse, pid ≠ dead)
    (notWaiting : ∀ target, pid ∉ sched.waitersOf target)
    (reaped : Process.reap sched preempted corpse = some after) : Untouched pid sched after := by
  unfold Process.reap at reaped
  split at reaped
  case h_1 dead =>
    split at reaped
    · exact destroy (different dead rfl) (notWaiting dead) reaped
    · cases reaped
      exact refl pid sched
  case h_2 =>
    cases reaped
    exact refl pid sched

theorem shrinkQueues {ready dead : List Pid} (lessReady : pid ∈ ready → pid ∈ sched.readyQueue)
    (lessDead : pid ∈ dead → pid ∈ sched.deadQueue) :
    Untouched pid sched { sched with readyQueue := ready, deadQueue := dead } :=
  ⟨⟨Int.le_refl _, lessDead, fun target waiting => ⟨target, waiting⟩, rfl⟩, rfl, lessReady⟩

theorem setCurrent (current : Pid) : Untouched pid sched { sched with current } :=
  ⟨⟨Int.le_refl _, id, fun target waiting => ⟨target, waiting⟩, rfl⟩, rfl, id⟩

theorem procCreate (known : pid ≤ sched.procPid) (parent : Pid) :
    Untouched pid sched (Process.procCreate sched parent).2 := by
  have notNew : pid ≠ sched.procPid + 1 :=
    fun same => absurd (same ▸ known) (Int.not_le.mpr (Int.lt_succ _))
  refine ⟨⟨Int.le_of_lt (Int.lt_succ _), id, fun target waiting => ⟨target, ?_⟩, rfl⟩, ?_, id⟩
  · rwa [waitersOf_procCreate] at waiting
  · rw [state?_procCreate, if_neg notNew, Option.or_none]

end Untouched

/-! ## Asleep and awake -/

/-- The process has one entry, with `left` calls of the timekeeper to come, and is in no
other container. -/
structure Asleep (pid : Pid) (left : Int) (sched : Sched) : Prop where
  known : pid ≤ sched.procPid
  state : sched.state? pid = some .napping
  notReady : pid ∉ sched.readyQueue
  notDead : pid ∉ sched.deadQueue
  notWaiting : ∀ target, pid ∉ sched.waitersOf target
  entry : napsOf pid sched.nappingList = [⟨pid, left⟩]

/-- The process is in the ready queue and has no entry. -/
structure Awake (pid : Pid) (sched : Sched) : Prop where
  state : sched.state? pid = some .ready
  ready : pid ∈ sched.readyQueue
  entry : napsOf pid sched.nappingList = []

theorem Asleep.of_untouched {pid : Pid} {left : Int} {before after : Sched}
    (asleep : Asleep pid left before) (untouched : Untouched pid before after) :
    Asleep pid left after where
  known := Int.le_trans asleep.known untouched.known
  state := untouched.state.trans asleep.state
  notReady inQueue := asleep.notReady (untouched.ready inQueue)
  notDead inQueue := asleep.notDead (untouched.dead inQueue)
  notWaiting target waiting := by
    rcases untouched.waits target waiting with ⟨other, stillWaiting⟩
    exact asleep.notWaiting other stillWaiting
  entry := untouched.naps.trans asleep.entry

theorem untouched_reaped {pid next current : Pid} {rest : List Pid} {sched reaped : Sched}
    (fromQueue : sched.readyQueue = next :: rest) (notDead : pid ∉ sched.deadQueue)
    (notWaiting : ∀ target, pid ∉ sched.waitersOf target)
    (reaping : reap { sched with readyQueue := rest, deadQueue := sched.deadQueue.tail } current
      sched.deadQueue.head? = some reaped) : Untouched pid sched reaped := by
  have shrunk : Untouched pid sched
      { sched with readyQueue := rest, deadQueue := sched.deadQueue.tail } :=
    .shrinkQueues (fun inRest => fromQueue ▸ List.mem_cons_of_mem _ inRest) List.mem_of_mem_tail
  have corpse : ∀ dead ∈ sched.deadQueue.head?, pid ≠ dead := fun dead isHead same =>
    notDead (same ▸ List.mem_of_mem_head? isHead)
  exact shrunk.trans (.reap corpse notWaiting reaping)

theorem Asleep.preempt {pid : Pid} {left : Int} {sched after : Sched}
    (asleep : Asleep pid left sched) (preempted : schedPreemptHandler sched = some after) :
    Asleep pid left after := by
  rcases schedPreemptHandler_stages preempted with
    ⟨next, rest, reaped, fromQueue, reaping, -, isAfter⟩
  have offered : Untouched pid sched (offer sched) := by
    unfold offer
    split
    case isTrue living =>
      apply Untouched.makeReady
      intro same
      rw [← same, asleep.state] at living
      cases living
    case isFalse => exact .refl pid sched
  have offeredStill := asleep.of_untouched offered
  have notNext : pid ≠ next := fun same => offeredStill.notReady (by rw [fromQueue, same]; simp)
  have reapedStill := offeredStill.of_untouched
    (untouched_reaped fromQueue offeredStill.notDead offeredStill.notWaiting reaping)
  have buried : Untouched pid reaped (bury reaped sched.current) := by
    unfold bury
    split
    case isTrue isDead =>
      apply Untouched.makeDead
      intro same
      rw [← same, reapedStill.state] at isDead
      cases isDead
    case isFalse => exact .refl pid reaped
  rw [isAfter]
  exact reapedStill.of_untouched
    ((buried.trans (.setState notNext .living)).trans (.setCurrent next))

/-- The process that is put to sleep is running, and it is in no container. -/
structure Running (pid : Pid) (sched : Sched) : Prop where
  current : sched.current = pid
  known : pid ≤ sched.procPid
  state : sched.state? pid = some .living
  notDead : pid ∉ sched.deadQueue
  notWaiting : ∀ target, pid ∉ sched.waitersOf target
  entry : napsOf pid sched.nappingList = []

theorem Running.preempt {pid : Pid} {sched after : Sched} (running : Running pid sched)
    (preempted : schedPreemptHandler sched = some after) :
    Spared pid sched after ∧ (after.state? pid = some .ready ∨ after.state? pid = some .living) := by
  rcases schedPreemptHandler_stages preempted with
    ⟨next, rest, reaped, fromQueue, reaping, -, isAfter⟩
  have isOffer : offer sched = schedMakeReady sched pid := by
    rw [offer, running.current, if_pos running.state]
  rw [isOffer] at fromQueue reaping
  have waits : ∀ target, (schedMakeReady sched pid).waitersOf target = sched.waitersOf target :=
    fun target => Sched.waitersOf_setState sched pid target .ready
  have offered : Spared pid sched (schedMakeReady sched pid) :=
    ⟨Int.le_refl _, id, fun target waiting => ⟨target, waits target ▸ waiting⟩, rfl⟩
  have offeredState : (schedMakeReady sched pid).state? pid = some .ready := by
    rw [state?_schedMakeReady, if_pos rfl, running.state]
    rfl
  have notWaiting : ∀ target, pid ∉ (schedMakeReady sched pid).waitersOf target := by
    intro target waiting
    rw [waits] at waiting
    exact running.notWaiting target waiting
  have untouched := untouched_reaped fromQueue running.notDead notWaiting reaping
  have reapedState := untouched.state.trans offeredState
  have notBuried : bury reaped sched.current = reaped := by
    rw [bury, running.current, reapedState, if_neg (by simp)]
  rw [isAfter, notBuried]
  constructor
  · apply (offered.trans untouched.toSpared).trans
    refine ⟨Int.le_refl _, id, fun target waiting => ⟨target, ?_⟩, rfl⟩
    rwa [show Sched.waitersOf { reaped.setState next .living with current := next } target =
      reaped.waitersOf target from Sched.waitersOf_setState reaped next target .living] at waiting
  · rw [show Sched.state? { reaped.setState next .living with current := next } pid =
      (reaped.setState next .living).state? pid from rfl, Sched.state?_setState, reapedState]
    split
    · exact .inr rfl
    · exact .inl rfl

theorem Running.asleep {pid : Pid} {time : Int} {sched after : Sched} (running : Running pid sched)
    (sleeps : syscSleep sched pid time = some after) : Asleep pid time after := by
  rcases Option.bind_eq_some_iff.mp sleeps with ⟨switched, preempted, naps⟩
  rcases running.preempt preempted with ⟨spared, state⟩
  rcases Option.map_eq_some_iff.mp naps with ⟨proc, found, isAfter⟩
  have isState : switched.state? pid = some proc.state := by
    rw [Sched.state?, found, Option.map_some]
  have mayNap : proc.state ≠ .dead ∧ proc.state ≠ .napping := by
    rw [isState] at state
    rcases state with isReady | isLiving
    · simp [Option.some.inj isReady]
    · simp [Option.some.inj isLiving]
  rw [if_pos mayNap] at isAfter
  subst isAfter
  have purged : Untouched pid switched (schedPurgeProcess switched pid) := .purge pid
  constructor
  · exact Int.le_trans running.known spared.known
  · show ((schedPurgeProcess switched pid).setState pid .napping).state? pid = _
    rw [Sched.state?_setState, if_pos rfl, purged.state, isState]
    rfl
  · exact fun inQueue => (mem_forceRemove.mp inQueue).2 rfl
  · exact fun inQueue => (mem_forceRemove.mp inQueue).2 rfl
  · intro target waiting
    rw [show Sched.waitersOf { (schedPurgeProcess switched pid).setState pid .napping with
        nappingList := ((schedPurgeProcess switched pid).setState pid .napping).nappingList ++
          [⟨pid, time⟩] } target = switched.waitersOf target from
      Sched.waitersOf_setState (schedPurgeProcess switched pid) pid target .napping] at waiting
    rcases spared.waits target waiting with ⟨other, stillWaiting⟩
    exact running.notWaiting other stillWaiting
  · show napsOf pid (switched.nappingList ++ [⟨pid, time⟩]) = _
    have none : napsOf pid switched.nappingList = [] := spared.naps.trans running.entry
    unfold napsOf at none ⊢
    rw [List.filter_append, none]
    simp

/-! ## The steps of other processes -/

section Steps

variable {pid : Pid} {left : Int} {sched after : Sched}

/-- Whether the caller dies or waits for another process. -/
def Event.stops : Event → Bool
  | .fatalFault | .exit _ | .wait _ | .execve false => true
  | _ => false

/-- The process may neither be woken nor be killed; as long as it is still running it may not
die or wait for another process. -/
def Undisturbed (pid : Pid) (sched : Sched) (event : Event) : Prop :=
  event ≠ .wakeup pid ∧ event ≠ .kill pid ∧ (event.stops = true → pid ≠ sched.current)

instance (pid : Pid) (sched : Sched) (event : Event) :
    Decidable (Undisturbed pid sched event) :=
  inferInstanceAs (Decidable (_ ∧ _ ∧ (_ → _)))

theorem Asleep.loaderSpawn (asleep : Asleep pid left sched) (parent : Pid) (binaryFound : Bool) :
    Asleep pid left (Process.loaderSpawn sched parent binaryFound).2 := by
  unfold Process.loaderSpawn
  split
  · have notNew : pid ≠ sched.procPid + 1 :=
      fun same => absurd (same ▸ asleep.known) (Int.not_le.mpr (Int.lt_succ _))
    exact asleep.of_untouched ((Untouched.procCreate asleep.known parent).trans
      (.makeReady notNew))
  · exact asleep

theorem Asleep.syscFork (asleep : Asleep pid left sched) (process : Pid) :
    Asleep pid left (Process.syscFork sched process) := by
  have notNew : pid ≠ sched.procPid + 1 :=
    fun same => absurd (same ▸ asleep.known) (Int.not_le.mpr (Int.lt_succ _))
  exact asleep.of_untouched (((Untouched.procCreate asleep.known process).trans
    (.setEax _ _)).trans (.makeReady notNew))

theorem Asleep.syscExit (asleep : Asleep pid left sched) {process : Pid} (other : pid ≠ process)
    (exits : Process.syscExit sched process = some after) : Asleep pid left after :=
  (asleep.of_untouched (.setState other .dead)).preempt exits

theorem mem_waitersOf_of_appendWaiter {target waiter place : Pid}
    (member : pid ∈ (sched.appendWaiter target waiter).waitersOf place) :
    pid ∈ sched.waitersOf place ∨ pid = waiter := by
  by_cases present : sched.hasWaiters target
  · by_cases same : place = target
    · rw [same, sched.waitersOf_appendWaiter_self waiter present, List.mem_append,
        List.mem_singleton] at member
      rwa [same]
    · rw [sched.waitersOf_appendWaiter_other waiter same] at member
      exact .inl member
  · rw [sched.waitersOf_appendWaiter_null waiter place present] at member
    exact .inl member

theorem Asleep.schedWaitFor (asleep : Asleep pid left sched) {process : Pid}
    (other : pid ≠ process) (target : Pid) :
    Asleep pid left (Process.schedWaitFor sched process target) := by
  unfold Process.schedWaitFor
  split
  · exact asleep
  case h_2 found _ =>
    have changed := asleep.of_untouched (.setState other .napping)
    apply Asleep.of_untouched _ (.purge process)
    apply changed.of_untouched
    refine ⟨⟨Int.le_refl _, id, fun place waiting => ⟨place, ?_⟩, rfl⟩, ?_, id⟩
    · exact (mem_waitersOf_of_appendWaiter waiting).resolve_right other
    · exact Sched.map_proc?_modifyProc _ Proc.state _ _ _ (fun _ => rfl) (fun _ => rfl)

theorem napsOf_eraseP {other : Pid} (different : pid ≠ other) (naps : List Nap) :
    napsOf pid (naps.eraseP fun nap => nap.process = other) = napsOf pid naps := by
  induction naps with
  | nil => rfl
  | cons nap naps induction =>
      by_cases isOther : nap.process = other
      · have notPid : ¬nap.process = pid := fun same => different (same.symm.trans isOther)
        rw [List.eraseP_cons_of_pos (by simpa using isOther)]
        simp [napsOf, notPid]
      · rw [List.eraseP_cons_of_neg (by simpa using isOther)]
        unfold napsOf at induction ⊢
        rw [List.filter_cons, List.filter_cons, induction]

theorem Asleep.schedWakeup (asleep : Asleep pid left sched) {other : Pid}
    (different : pid ≠ other) : Asleep pid left (Process.schedWakeup sched other).2 := by
  unfold Process.schedWakeup
  split
  case h_1 nap found =>
    have isOther : nap.process = other := by simpa using List.find?_some found
    have erased : Untouched pid sched { sched with
        nappingList := sched.nappingList.eraseP fun nap => nap.process = other } :=
      ⟨⟨Int.le_refl _, id, fun target waiting => ⟨target, waiting⟩,
        napsOf_eraseP different sched.nappingList⟩, rfl, id⟩
    exact asleep.of_untouched ((erased.trans (.purge nap.process)).trans
      (.makeReady (isOther ▸ different)))
  case h_2 => exact asleep

theorem Asleep.syscKill (asleep : Asleep pid left sched) (process : Pid) {other : Pid}
    (different : pid ≠ other) : Asleep pid left (Process.syscKill sched process other) := by
  unfold Process.syscKill
  split
  case h_1 target found =>
    have isOther : target = other :=
      (procFindRecur_sound (Option.filter_eq_some_iff.mp found).1).1
    exact asleep.of_untouched (((Untouched.purge target).trans
      (.makeDead (isOther ▸ different))).trans (.setEax _ _))
  case h_2 => exact asleep.of_untouched (.setEax _ _)

theorem Asleep.schedMakeNapping (asleep : Asleep pid left sched) {process : Pid} {time : Int}
    (naps : Process.schedMakeNapping sched process time = some after) : Asleep pid left after := by
  rcases Option.map_eq_some_iff.mp naps with ⟨proc, found, isAfter⟩
  split at isAfter
  case isTrue mayNap =>
    have other : pid ≠ process := by
      intro same
      have isState := asleep.state
      rw [same, Sched.state?, found, Option.map_some] at isState
      exact mayNap.2 (Option.some.inj isState)
    subst isAfter
    have changed := (asleep.of_untouched (.purge process)).of_untouched (.setState other .napping)
    apply changed.of_untouched
    refine ⟨⟨Int.le_refl _, id, fun target waiting => ⟨target, waiting⟩, ?_⟩, rfl, id⟩
    have notPid : ¬process = pid := fun same => other same.symm
    simp [napsOf, List.filter_append, notPid]
  case isFalse =>
    subst isAfter
    exact asleep

/-- No event but the timer brings a sleeping process closer to its end. -/
theorem Asleep.handle {event : Event} (asleep : Asleep pid left sched)
    (undisturbed : Undisturbed pid sched event) (noTick : event ≠ .tick)
    (handled : Process.handle sched event = some after) : Asleep pid left after := by
  rcases undisturbed with ⟨notWoken, notKilled, goesOn⟩
  cases event with
  | tick => exact absurd rfl noTick
  | fatalFault => exact asleep.syscExit (goesOn rfl) handled
  | exit status => exact asleep.syscExit (goesOn rfl) handled
  | fork =>
      cases handled
      exact asleep.syscFork sched.current
  | spawn binaryFound =>
      cases handled
      exact (asleep.loaderSpawn sched.current binaryFound).of_untouched (.setEax _ _)
  | wait target =>
      rcases Option.map_eq_some_iff.mp handled with ⟨switched, preempted, isAfter⟩
      rw [← isAfter]
      exact (asleep.preempt preempted).schedWaitFor (goesOn rfl) target
  | wakeup other =>
      cases handled
      have different : pid ≠ other := fun same => notWoken (congrArg Event.wakeup same.symm)
      exact (asleep.schedWakeup different).of_untouched (.setEax _ _)
  | kill other =>
      cases handled
      have different : pid ≠ other := fun same => notKilled (congrArg Event.kill same.symm)
      exact asleep.syscKill sched.current different
  | sleep time =>
      rcases Option.bind_eq_some_iff.mp handled with ⟨switched, preempted, naps⟩
      exact (asleep.preempt preempted).schedMakeNapping naps
  | execve binaryFound =>
      cases binaryFound with
      | true => exact asleep.preempt handled
      | false => exact asleep.syscExit (goesOn rfl) handled
  | kmainSpawn binaryFound =>
      cases handled
      exact asleep.loaderSpawn sched.current binaryFound

/-! ## The timer -/

theorem napsOf_remaining (pid : Pid) (naps : List Nap) :
    napsOf pid (remaining naps) = remaining (napsOf pid naps) := by
  unfold napsOf remaining
  rw [List.filter_map, List.filter_filter, List.filter_filter]
  congr 2
  funext nap
  simp only [Function.comp_apply, Bool.and_comm]

theorem mem_expired {naps : List Nap} :
    pid ∈ expired naps ↔ ∃ nap ∈ napsOf pid naps, expires nap = true := by
  unfold expired napsOf
  simp only [List.mem_map, List.mem_filter, decide_eq_true_eq]
  constructor
  · rintro ⟨nap, ⟨member, elapsed⟩, isPid⟩
    exact ⟨nap, ⟨member, isPid⟩, elapsed⟩
  · rintro ⟨nap, ⟨member, isPid⟩, elapsed⟩
    exact ⟨nap, ⟨member, elapsed⟩, isPid⟩

theorem schedTimekeeper_eq (sched : Sched) :
    schedTimekeeper sched =
      { (expired sched.nappingList).foldl schedMakeReady sched with
        nappingList := remaining sched.nappingList } := by
  rw [schedTimekeeper, timekeeperLoop_eq]

theorem Asleep.timekeeper (asleep : Asleep pid left sched) (more : 1 < left) :
    Asleep pid (left - 1) (schedTimekeeper sched) := by
  have notOver : expires ⟨pid, left⟩ = false := decide_eq_false (show ¬left - 1 ≤ 0 by omega)
  have notExpired : pid ∉ expired sched.nappingList := by
    rw [mem_expired, asleep.entry]
    simp [notOver]
  have still := asleep.of_untouched (.foldlMakeReady notExpired)
  rw [schedTimekeeper_eq]
  refine ⟨still.known, still.state, still.notReady, still.notDead, still.notWaiting, ?_⟩
  show napsOf pid (remaining sched.nappingList) = _
  rw [napsOf_remaining, asleep.entry]
  simp [remaining, notOver]

theorem Asleep.awake (asleep : Asleep pid left sched) (elapsed : left ≤ 1)
    (room : sched.readyQueue.length + (expired sched.nappingList).length ≤ schedMaxReady) :
    Awake pid (schedTimekeeper sched) := by
  have isOver : expires ⟨pid, left⟩ = true := decide_eq_true (show left - 1 ≤ 0 by omega)
  have isExpired : pid ∈ expired sched.nappingList := by
    rw [mem_expired, asleep.entry]
    exact ⟨_, by simp, isOver⟩
  rw [schedTimekeeper_eq]
  constructor
  · show ((expired sched.nappingList).foldl schedMakeReady sched).state? pid = _
    rw [foldl_schedMakeReady_state?, if_pos isExpired, asleep.state]
    rfl
  · show pid ∈ ((expired sched.nappingList).foldl schedMakeReady sched).readyQueue
    rw [foldl_schedMakeReady_readyQueue _ _ room]
    exact List.mem_append_right _ isExpired
  · show napsOf pid (remaining sched.nappingList) = _
    rw [napsOf_remaining, asleep.entry]
    simp [remaining, isOver]

/-! ## Runs -/

/-- Whoever the timekeeper wakes up finds a place in the ready queue. -/
def RoomToWake (sched : Sched) (event : Event) : Prop :=
  event = .tick → ∀ switched ∈ schedPreemptHandler sched,
    switched.readyQueue.length + (expired switched.nappingList).length ≤ schedMaxReady

instance (sched : Sched) (event : Event) : Decidable (RoomToWake sched event) :=
  match preempted : schedPreemptHandler sched with
  | none => .isTrue fun _ switched isSwitched => by simp [preempted] at isSwitched
  | some after =>
      decidable_of_iff
        (event = .tick →
          after.readyQueue.length + (expired after.nappingList).length ≤ schedMaxReady)
        (by simp [RoomToWake, preempted])

def ticks (events : List Event) : Nat := events.count .tick

theorem Asleep.enter (asleep : Asleep pid left sched) (event : Event) :
    Asleep pid left (Process.enter sched event) := by
  unfold Process.enter
  split
  · exact asleep.of_untouched (.setEax _ _)
  · exact asleep

theorem Asleep.step {event : Event} (asleep : Asleep pid left sched)
    (undisturbed : Undisturbed pid sched event) (noTick : event ≠ .tick)
    (stepped : Process.step sched event = some after) : Asleep pid left after := by
  unfold Process.step at stepped
  split at stepped
  · apply (asleep.enter event).handle _ noTick stepped
    unfold Process.enter
    split
    · exact undisturbed
    · exact undisturbed
  · cases stepped

theorem tick_stages (stepped : Process.step sched .tick = some after) :
    ∃ switched, schedPreemptHandler sched = some switched ∧ after = schedTimekeeper switched := by
  have handled : (schedPreemptHandler sched).map schedTimekeeper = some after := stepped
  rcases Option.map_eq_some_iff.mp handled with ⟨switched, preempted, isAfter⟩
  exact ⟨switched, preempted, isAfter.symm⟩

theorem Asleep.run {events : List Event} (asleep : Asleep pid left sched)
    (undisturbed : Admissible Process.step (Undisturbed pid) sched events)
    (reached : Execution.run Process.step sched events = some after)
    (notYet : ticks events < left) : Asleep pid (left - ticks events) after := by
  induction events generalizing sched left with
  | nil =>
      cases reached
      simpa [ticks] using asleep
  | cons event events induction =>
      rcases Option.bind_eq_some_iff.mp reached with ⟨next, stepped, rest⟩
      by_cases isTick : event = .tick
      · subst isTick
        have count : ticks (.tick :: events) = ticks events + 1 := List.count_cons_self
        rw [count] at notYet ⊢
        rcases tick_stages stepped with ⟨switched, preempted, isNext⟩
        have closer := (asleep.preempt preempted).timekeeper (by omega)
        rw [← isNext] at closer
        have final := induction closer (undisturbed.2 next stepped) rest (by omega)
        rwa [show left - 1 - (ticks events : Int) = left - ((ticks events + 1 : Nat) : Int) by
          omega] at final
      · have count : ticks (event :: events) = ticks events :=
          List.count_cons_of_ne (fun same => isTick same)
        rw [count] at notYet ⊢
        exact induction (asleep.step undisturbed.1 isTick stepped) (undisturbed.2 next stepped)
          rest notYet

theorem Asleep.run_awake {events : List Event} (asleep : Asleep pid left sched)
    (undisturbed : Admissible Process.step (Undisturbed pid) sched (events ++ [.tick]))
    (hasRoom : Admissible Process.step RoomToWake sched (events ++ [.tick]))
    (reached : Execution.run Process.step sched (events ++ [.tick]) = some after)
    (last : ticks events + 1 = left) : Awake pid after := by
  rw [run_append] at reached
  rcases Option.bind_eq_some_iff.mp reached with ⟨middle, before, stepped⟩
  rw [run_cons] at stepped
  rcases Option.bind_eq_some_iff.mp stepped with ⟨next, ticked, isAfter⟩
  cases isAfter
  have still := asleep.run (undisturbed.append before).1 before (by omega)
  rcases tick_stages ticked with ⟨switched, preempted, isNext⟩
  rw [isNext]
  apply (still.preempt preempted).awake (by omega)
  exact (hasRoom.append before).2.1 rfl switched preempted

end Steps

/-- One call: the nodes of the entries that are not over stay in their order, with their
counters decremented, and the processes of the others are made ready in the order of the
list. -/
def WakesExpired {Address Pointer : Type} [DecidableEq Address] [DecidableEq Pointer]
    (memory : NapMemory Address Pointer) (entries : List (Address × Pointer)) (sched : Sched) :
    Prop :=
  ∃ after next, timekeeper memory sched = some (after, next) ∧
    Napping after (staying entries sched.nappingList) (remaining sched.nappingList) ∧
    next.readyQueue = sched.readyQueue ++ expired sched.nappingList ∧
    (∀ pid, next.state? pid =
      if pid ∈ expired sched.nappingList then (sched.state? pid).map fun _ => .ready
      else sched.state? pid) ∧
    { next with nappingList := remaining sched.nappingList } = schedTimekeeper sched

/-- Every call wakes up those whose time is over, and a process that has been put to sleep
for some calls sleeps through all of them but the last one, with which it becomes ready. -/
theorem timekeeper_wakes :
    (∀ {Address Pointer : Type} [DecidableEq Address] [DecidableEq Pointer]
      (memory : NapMemory Address Pointer) (entries : List (Address × Pointer)) (sched : Sched),
      Napping memory entries sched.nappingList →
      sched.readyQueue.length + (expired sched.nappingList).length ≤ schedMaxReady →
        WakesExpired memory entries sched) ∧
    ∀ (pid : Pid) (time : Int) (sched asleep final : Sched) (events : List Event),
      1 ≤ time → Running pid sched → syscSleep sched pid time = some asleep →
      Admissible step (Undisturbed pid) asleep events →
      run step asleep events = some final →
        (ticks events < time → Asleep pid (time - ticks events) final) ∧
        ∀ before, events = before ++ [.tick] → ticks events = time →
          Admissible step RoomToWake asleep events → Awake pid final := by
  constructor
  · intro Address Pointer _ _ memory entries sched napping room
    rcases timekeeper_spec sched napping with ⟨after, stays, called, still, isStaying⟩
    subst isStaying
    refine ⟨after, _, called, still, ?_, ?_, (schedTimekeeper_eq sched).symm⟩
    · exact foldl_schedMakeReady_readyQueue _ _ room
    · exact foldl_schedMakeReady_state? _ sched
  · intro pid time sched asleep final events _ running sleeps undisturbed reached
    have isAsleep := running.asleep sleeps
    refine ⟨isAsleep.run undisturbed reached, ?_⟩
    intro before isConcat counted hasRoom
    subst isConcat
    apply isAsleep.run_awake undisturbed hasRoom reached
    rw [← counted]
    unfold ticks
    simp

/-- Two processes nap, one of them for one more call. -/
def twoNaps : NapMemory Nat Nat where
  nodes address :=
    if address = 0 then some ⟨none, some 1, 10⟩
    else if address = 1 then some ⟨some 0, none, 11⟩ else none
  list := ⟨some 0, some 1, 2⟩
  timed pointer := if pointer = 10 then some ⟨5, 1⟩ else if pointer = 11 then some ⟨6, 3⟩ else none

def twoNapping : Sched := { initialiseScheduler with nappingList := [⟨5, 1⟩, ⟨6, 3⟩] }

/-- The first process runs. -/
def initRuns : Sched where
  procs := [⟨1, .ready, none, 0⟩, ⟨2, .living, some [], 0⟩]
  processTree := .node 1 [.node 2 []]
  procPid := 2
  current := 2
  readyQueue := [1]
  deadQueue := []
  nappingList := []

theorem timekeeper_wakes_initRuns :
    WakesExpired twoNaps [(0, 10), (1, 11)] twoNapping ∧
      ∃ asleep final, syscSleep initRuns 2 1 = some asleep ∧
        run step asleep [.tick] = some final ∧ Awake 2 final := by
  constructor
  · apply timekeeper_wakes.1
    · refine ⟨⟨⟨rfl, rfl, trivial⟩, rfl, rfl, rfl, by decide⟩, by decide, by decide⟩
    · decide
  · have running : Running 2 initRuns := by
      refine ⟨rfl, by decide, by decide, by decide, fun target => ?_, by decide⟩
      unfold Sched.waitersOf
      cases found : initRuns.proc? target with
      | none => simp
      | some proc =>
          have nobody : ∀ proc ∈ initRuns.procs, proc.waiting = [] := by decide
          simp [nobody proc (List.mem_of_find?_eq_some found)]
    exact ⟨_, _, rfl, rfl, (timekeeper_wakes.2 2 1 initRuns _ _ [.tick] (by decide) running rfl
      (by decide) rfl).2 [] rfl (by decide) (by decide)⟩

end Dbos.Process
