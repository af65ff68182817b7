import Dbos.Kernel.Process.ProcessTree

/-! # Runs of the scheduler

Between two interrupts the current process is living and the containers are
consistent, provided that no process blocks while nobody else is ready and that
`sysc_kill` does not hit a process that is running, sleeping or waiting. -/

namespace Dbos.Process

open Dbos.Queue Dbos.Execution

/-! ## Which steps keep the containers consistent -/

/-- Whether the caller is put to sleep or on a waiters list. -/
def Event.blocks (sched : Sched) : Event → Bool
  | .sleep _ => true
  | .wait pid => (findLive sched pid).isSome
  | _ => false

/-- Events that go through `sched_get_next`. -/
def Event.preempts : Event → Bool
  | .tick | .fatalFault | .exit _ | .wait _ | .sleep _ | .execve _ => true
  | .fork | .spawn _ | .wakeup _ | .kill _ | .kmainSpawn _ => false

/-- The process that `sysc_kill` kills. -/
def Event.victim (sched : Sched) : Event → Option Pid
  | .kill pid => findLive sched pid
  | _ => none

/-- The process is neither running nor on `napping_list` or a waiters list. -/
def killable (sched : Sched) (target : Pid) : Prop :=
  target ≠ sched.current ∧
    target ∉ sched.nappingList.map Nap.process ∧
    target ∉ sched.procs.flatMap Proc.waiting

instance (sched : Sched) (target : Pid) : Decidable (killable sched target) :=
  inferInstanceAs (Decidable (_ ∧ _))

/-- The steps after which the containers are consistent: a process blocks only
while another one is ready to run, and what is killed is killable. -/
def orderly (sched : Sched) (event : Event) : Prop :=
  (event.blocks sched = true → sched.readyQueue ≠ []) ∧
    ∀ target ∈ event.victim sched, killable sched target

instance (sched : Sched) (event : Event) : Decidable (orderly sched event) :=
  inferInstanceAs (Decidable (_ ∧ _))

/-! ## The handlers preserve the invariant -/

/-- The invariant between two interrupts. -/
structure Inv (sched : Sched) : Prop where
  wf : Wf sched
  linked : Linked sched
  living : sched.state? sched.current = some .living

/-- What an interrupt does: nothing but moves, from one consistent state to
another. -/
structure Interrupt (before after : Sched) : Prop where
  moves : Moves before after
  inv : Inv after

theorem Interrupt.preempt {before after : Sched} (wf : Wf before) (linked : Linked before)
    (idle : Idle before before.current)
    (running : before.state? before.current = some .living ∨
      before.state? before.current = some .dead)
    (handled : schedPreemptHandler before = some after) : Interrupt before after := by
  rcases preempted_of_schedPreemptHandler wf idle running handled with
    ⟨next, rest, reaped, preempted⟩
  have moves := preempted.moves idle
  exact ⟨moves, wf.moves moves, linked.schedPreemptHandler handled, preempted.living⟩

namespace Inv

variable {sched next : Sched} (inv : Inv sched)
include inv

theorem idle : Idle sched sched.current := inv.wf.idle_of_living inv.living

theorem setEax (pid : Pid) (value : Int) : Interrupt sched (sched.setEax pid value) :=
  ⟨moves_setEax sched pid value, inv.wf.setEax pid value,
    inv.linked.of_sameTree (.setEax sched pid value),
    (sched.state?_setEax pid sched.current value).trans inv.living⟩

theorem preempt (handled : schedPreemptHandler sched = some next) : Interrupt sched next :=
  .preempt inv.wf inv.linked inv.idle (.inl inv.living) handled

theorem interrupt (moves : Moves sched next) (linked : Linked next)
    (current : next.current = sched.current)
    (state : next.state? sched.current = sched.state? sched.current) :
    Interrupt sched next :=
  ⟨moves, inv.wf.moves moves, linked, by rw [current, state, inv.living]⟩

theorem syscExit (handled : Process.syscExit sched sched.current = some next) :
    Interrupt sched next := by
  have dying : Move sched (sched.setState sched.current .dead) :=
    .setState inv.idle fun _ => rfl
  have dead : (sched.setState sched.current .dead).state? sched.current = some .dead := by
    simp [inv.living]
  have linked := inv.linked.of_sameTree (.setState sched sched.current .dead)
  have after := Interrupt.preempt (inv.wf.move dying) linked (inv.idle.setState _ _)
    (.inr dead) handled
  exact ⟨.head dying after.moves, after.inv⟩

theorem schedTimekeeper : Interrupt sched (Process.schedTimekeeper sched) := by
  rcases moves_schedTimekeeper inv.wf with ⟨moves, states⟩
  have same := SameTree.timekeeperLoop sched sched.nappingList
  refine inv.interrupt moves (inv.linked.of_sameTree ⟨same.tree, same.procs⟩) ?_
    (states _ (by simp [inv.living]))
  exact current_timekeeperLoop sched.nappingList sched

theorem makeReadyCreated (parent : Pid) :
    Interrupt sched (schedMakeReady (procCreate sched parent).2 (sched.procPid + 1)) := by
  have created : (procCreate sched parent).2.state? (sched.procPid + 1) = some .ready := by
    simp [state?_procCreate, inv.wf.state?_fresh]
  have old : sched.current ≠ sched.procPid + 1 := by
    intro equal
    have living := inv.living
    rw [equal, inv.wf.state?_fresh] at living
    cases living
  refine inv.interrupt ?_ ?_ rfl ?_
  · exact .head .create <| moves_schedMakeReady (inv.wf.idle_fresh parent)
      (by simp [created]) (by simp [created])
  · exact (inv.linked.procCreate inv.wf parent).of_sameTree (.makeReady _ _)
  · simp [old, state?_procCreate, inv.living]

theorem syscFork : Interrupt sched (Process.syscFork sched sched.current) := by
  have created := inv.makeReadyCreated sched.current
  have swapped : Process.syscFork sched sched.current =
      (schedMakeReady (procCreate sched sched.current).2 (sched.procPid + 1)).setEax
        sched.current (sched.procPid + 1) :=
    schedMakeReady_setEax ..
  rw [swapped]
  have written := created.inv.setEax sched.current (sched.procPid + 1)
  exact ⟨created.moves.trans written.moves, written.inv⟩

theorem loaderSpawn (parent : Pid) (binaryFound : Bool) :
    Interrupt sched (Process.loaderSpawn sched parent binaryFound).2 := by
  cases binaryFound with
  | false => exact ⟨.refl, inv⟩
  | true => exact inv.makeReadyCreated parent

theorem syscSpawn (binaryFound : Bool) :
    Interrupt sched (Process.syscSpawn sched sched.current binaryFound) := by
  have spawned := inv.loaderSpawn sched.current binaryFound
  have written := spawned.inv.setEax sched.current
    (Process.loaderSpawn sched sched.current binaryFound).1
  exact ⟨spawned.moves.trans written.moves, written.inv⟩

theorem syscWakeup (pid : Pid) :
    Interrupt sched (Process.syscWakeup sched sched.current pid) := by
  rcases moves_schedWakeup inv.wf pid with ⟨moves, states⟩
  have woken := inv.interrupt moves (inv.linked.of_sameTree (.schedWakeup sched pid))
    (current_schedWakeup sched pid) (states _ (by simp [inv.living]))
  have written := woken.inv.setEax sched.current
    (if (schedWakeup sched pid).1 then 0 else -1)
  exact ⟨moves.trans written.moves, written.inv⟩

theorem syscKill {pid : Pid}
    (mayDie : ∀ target ∈ findLive sched pid, killable sched target) :
    Interrupt sched (Process.syscKill sched sched.current pid) := by
  unfold Process.syscKill
  split
  case h_2 => exact inv.setEax _ _
  case h_1 target found =>
    rcases mayDie target found with ⟨notCurrent, notNapping, notWaiting⟩
    rcases inv.linked.state?_findLive found with ⟨state, known, -⟩
    have idle : Idle (schedPurgeProcess sched target) target :=
      .purge (fun nap member equal => notNapping (List.mem_map.mpr ⟨nap, member, equal⟩))
        fun _ member => notWaiting (mem_waiting_of_mem_waitersOf member)
    have present : (schedPurgeProcess sched target).state? target ≠ none := by
      rw [show (schedPurgeProcess sched target).state? target = some state from known]
      simp
    have killed : Interrupt sched
        (schedMakeDead (schedPurgeProcess sched target) target) := by
      refine inv.interrupt ?_ ?_ rfl ?_
      · exact (moves_purge sched target).trans (moves_schedMakeDead idle present)
      · exact inv.linked.of_sameTree ⟨rfl, identity_setState ..⟩
      · rw [state?_schedMakeDead, if_neg notCurrent.symm]
        rfl
    have written := killed.inv.setEax sched.current 0
    exact ⟨killed.moves.trans written.moves, written.inv⟩

theorem yields (others : sched.readyQueue ≠ [])
    (handled : schedPreemptHandler sched = some next) :
    next.current ≠ sched.current ∧ next.state? sched.current = some .ready ∧
      Idle (schedPurgeProcess next sched.current) sched.current := by
  rcases preempted_of_schedPreemptHandler inv.wf inv.idle (.inl inv.living) handled with
    ⟨chosen, rest, reaped, preempted⟩
  rcases preempted.leaves inv.living inv.idle.notReady others with ⟨differs, ready⟩
  have wf := (inv.preempt handled).inv.wf
  refine ⟨preempted.current_eq ▸ differs, ready, .purge ?_ ?_⟩
  · intro nap member equal
    simp [← equal, wf.napState nap member] at ready
  · intro target member
    simp [wf.waiterState target _ member] at ready

theorem park {parked : Sched} (others : sched.readyQueue ≠ [])
    (handled : schedPreemptHandler sched = some next)
    (parks : Moves ((schedPurgeProcess next sched.current).setState sched.current .napping)
      parked)
    (same : SameTree next parked) (current : parked.current = next.current)
    (state : parked.state? next.current = next.state? next.current) :
    Interrupt sched parked := by
  rcases inv.yields others handled with ⟨-, ready, idle⟩
  have switched := inv.preempt handled
  have purged : Move (schedPurgeProcess next sched.current)
      ((schedPurgeProcess next sched.current).setState sched.current .napping) := by
    refine .setState idle fun dead => ?_
    rw [show (schedPurgeProcess next sched.current).state? sched.current = _ from ready] at dead
    cases dead
  have moves : Moves next parked :=
    (moves_purge next sched.current).trans (.head purged parks)
  have after := switched.inv.interrupt moves (switched.inv.linked.of_sameTree same) current state
  exact ⟨switched.moves.trans moves, after.inv⟩

theorem syscSleep {time : Int} (others : sched.readyQueue ≠ [])
    (handled : Process.syscSleep sched sched.current time = some next) :
    Interrupt sched next := by
  rcases Option.bind_eq_some_iff.mp handled with ⟨switched, preempts, naps⟩
  rcases inv.yields others preempts with ⟨differs, ready, idle⟩
  rcases Option.map_eq_some_iff.mp naps with ⟨proc, found, parked⟩
  have isReady : proc.state = .ready := by
    simpa [Sched.state?, found] using ready
  rw [if_pos (by simp [isReady])] at parked
  subst parked
  refine inv.park others preempts ?_ ⟨rfl, identity_setState ..⟩ rfl ?_
  · refine .single (.enterNapping (idle.setState _ _) ?_)
    rw [Sched.state?_setState, if_pos rfl]
    change (switched.state? sched.current).map _ = _
    rw [ready]
    rfl
  · change ((schedPurgeProcess switched sched.current).setState sched.current
      .napping).state? _ = _
    rw [Sched.state?_setState, if_neg differs]
    rfl

theorem syscWait {pid : Pid} (notKernel : sched.current ≠ kernelPid)
    (others : (findLive sched pid).isSome → sched.readyQueue ≠ [])
    (handled : Process.syscWait sched sched.current pid = some next) :
    Interrupt sched next := by
  rcases Option.map_eq_some_iff.mp handled with ⟨switched, preempts, waits⟩
  rcases preempted_of_schedPreemptHandler inv.wf inv.idle (.inl inv.living) preempts with
    ⟨chosen, rest, reaped, preempted⟩
  rcases preempted.user_kept inv.living notKernel with ⟨tree, -, -, dead⟩
  have finds : findLive switched pid = findLive sched pid := findLive_congr pid tree dead
  cases found : findLive sched pid with
  | none =>
      rw [schedWaitFor, finds, found] at waits
      exact waits ▸ inv.preempt preempts
  | some target =>
      rw [schedWaitFor_eq (finds.trans found)] at waits
      have ready := others (by simp [found])
      rcases inv.yields ready preempts with ⟨differs, isReady, idle⟩
      subst waits
      refine inv.park ready preempts ?_ ⟨rfl, ?_⟩ rfl ?_
      · refine .single (.enterWaiters (idle.setState _ _) ?_)
        rw [Sched.state?_setState, if_pos rfl]
        change (switched.state? sched.current).map _ = _
        rw [isReady]
        rfl
      · exact (identity_appendWaiter ..).trans (identity_setState ..)
      · rw [Sched.state?_appendWaiter, Sched.state?_setState, if_neg differs]
        rfl

theorem handle {event : Event} (allowed : orderly sched event)
    (user : event.mayOccur sched) (handled : Process.handle sched event = some next) :
    Interrupt sched next := by
  cases event with
  | tick =>
      rcases Option.map_eq_some_iff.mp handled with ⟨switched, preempts, timed⟩
      have first := inv.preempt preempts
      have second := first.inv.schedTimekeeper
      exact timed ▸ ⟨first.moves.trans second.moves, second.inv⟩
  | fatalFault => exact inv.syscExit handled
  | exit status => exact inv.syscExit handled
  | fork => exact Option.some.inj handled ▸ inv.syscFork
  | spawn binaryFound => exact Option.some.inj handled ▸ inv.syscSpawn binaryFound
  | wait pid =>
      exact inv.syscWait (by simpa [Event.mayOccur] using user) allowed.1 handled
  | wakeup pid => exact Option.some.inj handled ▸ inv.syscWakeup pid
  | kill pid => exact Option.some.inj handled ▸ inv.syscKill allowed.2
  | sleep time => exact inv.syscSleep (allowed.1 rfl) handled
  | execve binaryFound =>
      cases binaryFound with
      | true => exact inv.preempt handled
      | false => exact inv.syscExit handled
  | kmainSpawn binaryFound =>
      exact Option.some.inj handled ▸ inv.loaderSpawn sched.current binaryFound

end Inv

/-! ## Progress -/

theorem proc?_of_state?_ne_none {sched : Sched} {pid : Pid} (present : sched.state? pid ≠ none) :
    ∃ proc, sched.proc? pid = some proc := by
  apply Option.ne_none_iff_exists'.mp
  intro absent
  simp [Sched.state?, absent] at present

/-- Preemption does not fault as long as somebody is ready, the corpse can be
destroyed, and neither the process that stops nor the one that starts is freed. -/
theorem schedPreemptHandler_eq_of_reap {sched reaped : Sched} {next : Pid} {rest : List Pid}
    (present : sched.state? sched.current ≠ none)
    (queue : (offer sched).readyQueue = next :: rest)
    (reaps : reap (choose sched rest) sched.current sched.deadQueue.head? = some reaped)
    (currentPresent : reaped.state? sched.current ≠ none)
    (nextPresent : reaped.state? next ≠ none) :
    schedPreemptHandler sched = some
      { (bury reaped sched.current).setState next .living with current := next } := by
  rcases proc?_of_state?_ne_none present with ⟨proc, found⟩
  have offers : (if proc.state = .living then schedMakeReady sched sched.current else sched) =
      offer sched := by
    simp [offer, Sched.state?, found]
  rcases proc?_of_state?_ne_none currentPresent with ⟨current, currentFound⟩
  have buries : (if current.state = .dead then schedMakeDead reaped sched.current
      else reaped) = bury reaped sched.current := by
    simp [bury, Sched.state?, currentFound]
  have nextBuried : (bury reaped sched.current).state? next ≠ none := by
    unfold bury
    split
    · rw [state?_schedMakeDead]
      split <;> simp [nextPresent]
    · exact nextPresent
  rcases proc?_of_state?_ne_none nextBuried with ⟨nextProc, nextFound⟩
  have head : (dequeue (offer sched).deadQueue).1 = sched.deadQueue.head? := by
    rw [deadQueue_offer]
    cases sched.deadQueue <;> rfl
  have tail : (dequeue (offer sched).deadQueue).2 = (offer sched).deadQueue.tail := by
    cases (offer sched).deadQueue <;> rfl
  have chooses : ({ offer sched with
      readyQueue := rest, deadQueue := (offer sched).deadQueue.tail } : Sched) =
      choose sched rest := rfl
  simp only [schedPreemptHandler, schedGetNext, found, Option.bind_eq_bind, Option.bind_some,
    offers, queue, head, tail]
  simp only [dequeue_cons, chooses, Option.bind_some]
  rw [reaps]
  simp [currentFound, buries, nextFound]

theorem schedPreemptHandler_eq {sched : Sched} {next : Pid} {rest : List Pid}
    (wf : Wf sched) (idle : Idle sched sched.current)
    (present : sched.state? sched.current ≠ none)
    (queue : (offer sched).readyQueue = next :: rest)
    (noReap : sched.deadQueue = [] ∨ sched.current ≠ kernelPid) :
    schedPreemptHandler sched = some
      { (bury (choose sched rest) sched.current).setState next .living with
        current := next } := by
  have offered : Wf (offer sched) := wf.moves (moves_offer idle)
  apply schedPreemptHandler_eq_of_reap present queue
  · rcases noReap with empty | notKernel
    · simp [empty, reap]
    · unfold reap
      split
      · rw [if_neg notKernel]
      · rfl
  · change (offer sched).state? sched.current ≠ none
    unfold offer
    split
    case isTrue living => simp [living]
    case isFalse => exact present
  · change (offer sched).state? next ≠ none
    simp [offered.readyState next (by simp [queue])]

theorem reap_isSome {sched : Sched} (linked : Linked sched) (preempted : Pid)
    {corpse : Option Pid} (present : ∀ pid, corpse = some pid → sched.state? pid ≠ none) :
    ∃ reaped, reap sched preempted corpse = some reaped := by
  cases corpse with
  | none => exact ⟨sched, rfl⟩
  | some dead =>
      by_cases reaper : preempted = kernelPid
      · rw [reap, if_pos reaper]
        by_cases kernel : dead = kernelPid
        · exact ⟨sched, if_pos kernel⟩
        · rcases linked.hasWaiters (present dead rfl) kernel with ⟨proc, found, listed⟩
          rcases Option.ne_none_iff_exists'.mp listed with ⟨waiters, isList⟩
          simp [procDestroy, kernel, found, isList]
      · exact ⟨sched, if_neg reaper⟩

theorem schedPreemptHandler_isSome {sched : Sched} (wf : Wf sched) (linked : Linked sched)
    (idle : Idle sched sched.current)
    (running : sched.state? sched.current = some .living ∨
      sched.state? sched.current = some .dead)
    (others : (offer sched).readyQueue ≠ []) :
    ∃ after, schedPreemptHandler sched = some after := by
  rcases List.exists_cons_of_ne_nil others with ⟨next, rest, queue⟩
  have offered : Wf (offer sched) := wf.moves (moves_offer idle)
  have same := SameTree.offer sched
  have chosen : Linked (choose sched rest) := linked.of_sameTree ⟨same.tree, same.procs⟩
  have corpsePresent : ∀ pid, sched.deadQueue.head? = some pid →
      (choose sched rest).state? pid ≠ none := by
    intro pid isHead
    have dead : (offer sched).state? pid = some .dead :=
      offered.deadState pid (deadQueue_offer sched ▸ List.mem_of_head? isHead)
    change (offer sched).state? pid ≠ none
    simp [dead]
  rcases reap_isSome chosen sched.current corpsePresent with ⟨reaped, reaping⟩
  have preempted := Preempted.of_reap wf idle running queue reaping rfl
  refine ⟨_, schedPreemptHandler_eq_of_reap ?_ queue reaping ?_ ?_⟩
  · rcases running with living | dead <;> simp [*]
  · rw [preempted.currentKept]
    unfold offer
    split
    case isTrue living => simp [living]
    case isFalse => rcases running with living | dead <;> simp [*]
  · simp [preempted.nextReady]

/-! ## Steps and runs -/

theorem orderly_setEax {sched : Sched} {event : Event} (pid : Pid) (value : Int) :
    orderly (sched.setEax pid value) event ↔ orderly sched event := by
  have finds : ∀ target, findLive (sched.setEax pid value) target = findLive sched target :=
    fun target => findLive_congr target rfl (by simp)
  have waiting : (sched.setEax pid value).procs.flatMap Proc.waiting =
      sched.procs.flatMap Proc.waiting := by
    simp only [Sched.setEax, Sched.modifyProc, List.flatMap_map]
    congr 1
    funext proc
    split <;> rfl
  have same : ∀ target, killable (sched.setEax pid value) target ↔ killable sched target := by
    intro target
    unfold killable
    rw [waiting]
    rfl
  cases event <;> simp only [orderly, Event.blocks, Event.victim, finds, same] <;> rfl

theorem Inv.step {sched next : Sched} (inv : Inv sched) {event : Event}
    (allowed : orderly sched event) (stepped : Process.step sched event = some next) :
    Interrupt sched next := by
  unfold Process.step at stepped
  split at stepped
  case isFalse => cases stepped
  case isTrue mayOccur =>
    unfold enter at stepped
    split at stepped
    case h_2 => exact inv.handle allowed mayOccur stepped
    case h_1 number _ =>
      have entered := inv.setEax sched.current number
      have handled := entered.inv.handle ((orderly_setEax _ _).mpr allowed)
        (by cases event <;> exact mayOccur) stepped
      exact ⟨entered.moves.trans handled.moves, handled.inv⟩

theorem waitersOf_initialiseScheduler (target : Pid) :
    initialiseScheduler.waitersOf target = [] := by
  unfold Sched.waitersOf Sched.proc? initialiseScheduler
  by_cases kernel : kernelPid = target <;> simp [kernel, Proc.waiting]

theorem inv_initialiseScheduler : Inv initialiseScheduler where
  wf := {
    readyState := by simp [initialiseScheduler]
    deadState := by simp [initialiseScheduler]
    napState := by simp [initialiseScheduler]
    waiterState := by simp [waitersOf_initialiseScheduler]
    readyNodup := List.nodup_nil
    deadNodup := List.nodup_nil
    napNodup := List.nodup_nil
    waitersNodup := by simp [waitersOf_initialiseScheduler]
    waitsOnce := by simp [waitersOf_initialiseScheduler]
    napsOrWaits := by simp [initialiseScheduler]
    pidsNodup := List.nodup_singleton _
    pidsBounded := by
      intro pid present
      rw [state?_ne_none_iff] at present
      rw [List.mem_singleton.mp present]
      decide }
  linked := by
    refine ⟨?_, ?_, rfl, ?_⟩ <;>
      simp [initialiseScheduler, GenTree.values, GenTree.valuesOfAll]
  living := rfl

theorem Inv.run {sched final : Sched} {events : List Event} (inv : Inv sched)
    (allowed : Admissible Process.step orderly sched events)
    (reached : Execution.run Process.step sched events = some final) : Inv final :=
  run_preserves (fun _ _ _ before permitted stepped => (before.step permitted stepped).inv)
    inv allowed reached

theorem Inv.run_moves {property : Sched → Prop} {sched final : Sched} {events : List Event}
    (preserved : ∀ {before after}, Wf before → Move before after →
      property before → property after)
    (inv : Inv sched) (allowed : Admissible Process.step orderly sched events)
    (reached : Execution.run Process.step sched events = some final)
    (holds : property sched) : Inv final ∧ property final := by
  have stepPreserves : ∀ before event after, Inv before ∧ property before →
      orderly before event → Process.step before event = some after →
      Inv after ∧ property after := by
    intro before event after both permitted stepped
    have interrupt := both.1.step permitted stepped
    exact ⟨interrupt.inv, (Moves.preserves preserved both.1.wf interrupt.moves both.2).2⟩
  exact run_preserves stepPreserves ⟨inv, holds⟩ allowed reached

end Dbos.Process
