import Mathlib.Data.List.Perm.Subperm
import Dbos.Foundation.Execution
import Dbos.Kernel.Process.SchedulerRuns

/-! # Waiting for another process

What `sysc_wait` does for its caller, from the call to the destruction of the
process waited for. `proc_find` only follows first children, and nothing is ever
written to the caller's `eax` before that, so a wait is served exactly if it
names a living user process on that chain other than the caller. -/

namespace Dbos.Process

open Dbos.Queue Dbos.Execution

/-! ## Whom `proc_find` finds -/

/-- The root, its first child, the first child of that, and so on. -/
def firstLine : GenTree Pid → List Pid
  | .node process [] => [process]
  | .node process (child :: _) => process :: firstLine child

theorem procFindRecur_eq (tree : GenTree Pid) (pid : Pid) :
    procFindRecur tree pid = if pid ≠ 0 ∧ pid ∈ firstLine tree then some pid else none := by
  induction tree using GenTree.induct with
  | node process subTrees induction =>
      unfold procFindRecur
      split
      case isTrue zero => simp [zero]
      case isFalse nonzero =>
        split
        case isTrue here =>
          cases subTrees <;> simp [firstLine, here, nonzero]
        case isFalse other =>
          have notHere : pid ≠ process := fun equal => other equal.symm
          cases subTrees with
          | nil => simp [firstLine, notHere]
          | cons child rest =>
              have childFinds := induction child (by simp)
              simp only [firstLine, List.mem_cons, notHere, false_or]
              split
              case isTrue same =>
                have member : pid ∈ firstLine child := by
                  rw [← same]
                  cases child with
                  | node data subTrees => cases subTrees <;> simp [firstLine]
                simp [same, nonzero, member]
              case isFalse => exact childFinds

theorem findLive_eq_some_iff {sched : Sched} {pid target : Pid} :
    findLive sched pid = some target ↔
      target = pid ∧ pid ≠ 0 ∧ pid ∈ firstLine sched.processTree ∧
        sched.state? pid ≠ some .dead := by
  unfold findLive procFind
  rw [procFindRecur_eq]
  split
  case isTrue found =>
    simp only [Option.filter_eq_some_iff, Option.some.injEq, decide_eq_true_eq]
    constructor
    · rintro ⟨rfl, alive⟩
      exact ⟨rfl, found.1, found.2, alive⟩
    · rintro ⟨rfl, -, -, alive⟩
      exact ⟨rfl, alive⟩
  case isFalse missing =>
    simp only [Option.filter_none, reduceCtorEq, false_iff]
    rintro ⟨-, nonzero, member, -⟩
    exact missing ⟨nonzero, member⟩

/-! ## Who is freed, and what happens to the waiters -/

theorem present_procCreate {sched : Sched} {pid : Pid} (present : sched.state? pid ≠ none)
    (parent : Pid) : (procCreate sched parent).2.state? pid ≠ none := by
  rw [state?_procCreate]
  cases known : sched.state? pid with
  | none => exact absurd known present
  | some state => simp

theorem present_loaderSpawn {sched : Sched} {pid : Pid} (present : sched.state? pid ≠ none)
    (parent : Pid) (binaryFound : Bool) :
    (loaderSpawn sched parent binaryFound).2.state? pid ≠ none := by
  cases binaryFound with
  | false => exact present
  | true => exact (SameTree.makeReady _ _).present (present_procCreate present parent)

theorem present_handle {sched next : Sched} {event : Event} {pid : Pid}
    (present : sched.state? pid ≠ none)
    (user : event.preempts = true → sched.current ≠ kernelPid)
    (handled : handle sched event = some next) : next.state? pid ≠ none := by
  cases event with
  | tick =>
      rcases Option.map_eq_some_iff.mp handled with ⟨switched, preempts, timed⟩
      have same := SameTree.timekeeperLoop switched switched.nappingList
      have kept := (SameTree.preempt_user sched (user rfl) preempts).trans
        ⟨same.tree, same.procs⟩
      exact timed ▸ kept.present present
  | fatalFault => exact (SameTree.syscExit sched (user rfl) handled).present present
  | exit status => exact (SameTree.syscExit sched (user rfl) handled).present present
  | fork =>
      have created := present_procCreate present sched.current
      refine Option.some.inj handled ▸ (SameTree.makeReady _ _).present ?_
      exact (SameTree.setEax _ _ _).present created
  | spawn binaryFound =>
      exact Option.some.inj handled ▸ (SameTree.setEax _ _ _).present
        (present_loaderSpawn present _ binaryFound)
  | wait target =>
      rcases Option.map_eq_some_iff.mp handled with ⟨switched, preempts, waits⟩
      have kept := (SameTree.preempt_user sched (user rfl) preempts).trans
        (.schedWaitFor switched sched.current target)
      exact waits ▸ kept.present present
  | wakeup target =>
      exact Option.some.inj handled ▸ (SameTree.setEax _ _ _).present
        ((SameTree.schedWakeup sched target).present present)
  | kill target =>
      exact Option.some.inj handled ▸ (SameTree.syscKill sched _ target).present present
  | sleep time =>
      rcases Option.bind_eq_some_iff.mp handled with ⟨switched, preempts, naps⟩
      exact ((SameTree.preempt_user sched (user rfl) preempts).trans
        (.schedMakeNapping switched naps)).present present
  | execve binaryFound =>
      cases binaryFound with
      | true => exact (SameTree.preempt_user sched (user rfl) handled).present present
      | false => exact (SameTree.syscExit sched (user rfl) handled).present present
  | kmainSpawn binaryFound =>
      exact Option.some.inj handled ▸ present_loaderSpawn present _ binaryFound

theorem kernel_ticks_of_freed {sched next : Sched} {event : Event} {pid : Pid}
    (stepped : step sched event = some next) (present : sched.state? pid ≠ none)
    (freed : next.state? pid = none) : event = .tick ∧ sched.current = kernelPid := by
  unfold step at stepped
  split at stepped
  case isFalse => cases stepped
  case isTrue mayOccur =>
    have entered : SameTree sched (enter sched event) := by
      unfold enter
      split
      · exact .setEax sched _ _
      · exact .refl sched
    have current : (enter sched event).current = sched.current := by
      unfold enter
      split <;> rfl
    have byKernel : event.preempts = true ∧ sched.current = kernelPid := by
      by_contra user
      refine present_handle (entered.present present) (fun preempts kernel => user ?_) stepped
        freed
      exact ⟨preempts, current ▸ kernel⟩
    refine ⟨?_, byKernel.2⟩
    cases event <;> simp_all [Event.mayOccur, Event.preempts]

theorem Wf.waiters_fit {sched : Sched} (wf : Wf sched) (pid : Pid) :
    sched.readyQueue.length + (sched.waitersOf pid).length ≤ sched.procs.length := by
  have nodup : (sched.readyQueue ++ sched.waitersOf pid).Nodup := by
    rw [List.nodup_append]
    refine ⟨wf.readyNodup, wf.waitersNodup pid, ?_⟩
    rintro other ready _ waits rfl
    have isReady := wf.readyState other ready
    simp [wf.waiterState pid other waits] at isReady
  have present : sched.readyQueue ++ sched.waitersOf pid ⊆ sched.procs.map Proc.pid := by
    intro other member
    rw [← state?_ne_none_iff]
    rcases List.mem_append.mp member with ready | waits
    · simp [wf.readyState other ready]
    · simp [wf.waiterState pid other waits]
  simpa using (List.Nodup.subperm nodup present).length_le

theorem eax?_timekeeperLoop (naps : List Nap) (sched : Sched) (pid : Pid) :
    (timekeeperLoop naps sched).2.eax? pid = sched.eax? pid := by
  induction naps generalizing sched with
  | nil => rfl
  | cons nap rest induction =>
      unfold timekeeperLoop
      split
      · rw [induction, eax?_schedMakeReady]
      · exact induction sched

/-! ## From the call to the destruction -/

/-- The process has one place in the ready queue and finds `pid` in `eax`. -/
structure WokenOnce (caller pid : Pid) (sched : Sched) : Prop where
  once : sched.readyQueue.count caller = 1
  ready : sched.state? caller = some .ready
  eax : sched.eax? caller = some pid

theorem woken_of_reap {sched next : Sched} {preempted pid : Pid} {corpse : Option Pid}
    (wf : Wf sched)
    (isDead : ∀ pid, corpse = some pid → Idle sched pid ∧ sched.state? pid = some .dead)
    (reaping : reap sched preempted corpse = some next) (present : sched.state? pid ≠ none)
    (freed : next.state? pid = none) :
    Woken pid (sched.waitersOf pid) (unlink sched pid) next := by
  cases corpse with
  | none =>
      cases reaping
      exact absurd freed present
  | some process =>
      simp only [reap] at reaping
      split at reaping
      case isFalse =>
        cases reaping
        exact absurd freed present
      case isTrue =>
        by_cases kernel : process = kernelPid
        · simp only [procDestroy, kernel, if_true, Option.some.injEq] at reaping
          exact absurd freed (reaping ▸ present)
        · have isCorpse : pid = process := by
            by_contra different
            have unlinked : (unlink sched process).state? pid ≠ none := by
              rwa [state?_unlink, if_neg different]
            rw [(procDestroy_eq kernel reaping).2] at freed
            exact (SameTree.wakeWaiters _ _ _).present unlinked freed
          subst isCorpse
          rcases isDead pid rfl with ⟨idle, dead⟩
          exact woken_procDestroy wf idle dead kernel reaping

theorem wokenOnce_of_freed {sched next : Sched} {caller pid : Pid} (inv : Inv sched)
    (room : sched.procs.length < schedMaxReady) (waits : caller ∈ sched.waitersOf pid)
    (stepped : step sched .tick = some next)
    (freed : next.state? pid = none) : WokenOnce caller pid next := by
  have handled : handle sched .tick = some next := stepped
  rcases Option.map_eq_some_iff.mp handled with ⟨switched, preempts, rfl⟩
  rcases preempted_of_schedPreemptHandler inv.wf inv.idle (.inl inv.living) preempts with
    ⟨chosen, rest, reaped, preempted⟩
  have offered : offer sched = schedMakeReady sched sched.current := if_pos inv.living
  have unburied : bury reaped sched.current = reaped := by
    have kept := preempted.currentKept
    rw [offered] at kept
    simp [bury, kept, inv.living]
  have switch : switched = { reaped.setState chosen .living with current := chosen } := by
    rw [preempted.switched, unburied]
  have reapedFreed : reaped.state? pid = none := by
    by_contra present
    have same := SameTree.timekeeperLoop switched switched.nappingList
    refine SameTree.present ⟨same.tree, same.procs⟩ ?_ freed
    rw [switch]
    exact (SameTree.setState reaped chosen .living).present present
  have waiters : (choose sched rest).waitersOf pid = sched.waitersOf pid := by
    change (offer sched).waitersOf pid = _
    rw [offered]
    exact sched.waitersOf_setState sched.current pid .ready
  have present : (choose sched rest).state? pid ≠ none :=
    state?_ne_none_of_waiter (waiters.symm ▸ waits)
  have woken := woken_of_reap preempted.chosen preempted.corpse preempted.reaping present
    reapedFreed
  rw [waiters] at woken
  have fits : (unlink (choose sched rest) pid).readyQueue.length +
      (sched.waitersOf pid).length ≤ schedMaxReady := by
    have bound := preempted.chosen.waiters_fit pid
    have count : (choose sched rest).procs.length = sched.procs.length := by
      change (offer sched).procs.length = _
      rw [offered]
      exact List.length_map _
    rw [waiters, count] at bound
    exact Nat.le_of_lt (Nat.lt_of_le_of_lt bound room)
  have queued : caller ∈ reaped.readyQueue := woken.readyWoken caller waits fits
  have notChosen : caller ≠ chosen := fun equal => preempted.nextIdle.notReady (equal ▸ queued)
  have switchedQueue : caller ∈ switched.readyQueue := switch ▸ queued
  have switchedReady : switched.state? caller = some .ready := by
    rw [switch]
    change (reaped.setState chosen .living).state? caller = _
    rw [Sched.state?_setState, if_neg notChosen, woken.stateWoken caller waits]
  have switchedEax : switched.eax? caller = some pid := by
    rw [switch]
    change (reaped.setState chosen .living).eax? caller = _
    rw [Sched.eax?_setState, woken.eaxWoken caller waits]
  have after := (inv.preempt preempts).inv
  refine ⟨?_, ?_, ?_⟩
  · exact List.count_eq_one_of_mem after.schedTimekeeper.inv.wf.readyNodup
      (mem_timekeeperLoop _ switchedQueue)
  · rw [(moves_schedTimekeeper after.wf).2 caller (by simp [switchedReady]), switchedReady]
  · exact (eax?_timekeeperLoop _ _ _).trans switchedEax

/-- Steps with fewer than 256 processes after which the containers are consistent. -/
def attended (sched : Sched) (event : Event) : Prop :=
  orderly sched event ∧ sched.procs.length < 256

instance (sched : Sched) (event : Event) : Decidable (attended sched event) :=
  inferInstanceAs (Decidable (_ ∧ _))

/-- From `sched` on the caller is on the waiters list of `pid` until that process
is destroyed, and is woken by that. -/
structure WaitsFor (caller pid : Pid) (sched : Sched) : Prop where
  listed : ∀ events final, Admissible step attended sched events →
    run step sched events = some final → final.state? pid ≠ none →
    caller ∈ final.waitersOf pid
  woken : ∀ events final event next, Admissible step attended sched (events ++ [event]) →
    run step sched events = some final → step final event = some next →
    final.state? pid ≠ none → next.state? pid = none → WokenOnce caller pid next

theorem waitsFor_of_mem {sched : Sched} {caller pid : Pid} (inv : Inv sched)
    (waits : caller ∈ sched.waitersOf pid) : WaitsFor caller pid sched := by
  have persists : ∀ {events final}, Admissible step attended sched events →
      run step sched events = some final → final.state? pid ≠ none →
      Inv final ∧ caller ∈ final.waitersOf pid := by
    intro events final allowed reached present
    have orderlyRun := allowed.mono fun _ _ permitted => permitted.1
    rcases inv.run_moves Awaits.move orderlyRun reached (.inl waits) with ⟨finalInv, awaits⟩
    exact ⟨finalInv, awaits.resolve_right fun freed => present freed.1⟩
  refine ⟨fun events final allowed reached present => (persists allowed reached present).2, ?_⟩
  intro events final event next allowed reached stepped present freed
  rcases allowed.append reached with ⟨earlier, last⟩
  rcases persists earlier reached present with ⟨finalInv, still⟩
  rcases kernel_ticks_of_freed stepped present freed with ⟨rfl, -⟩
  exact wokenOnce_of_freed finalInv last.1.2 still stepped freed

/-! ## The call itself -/

/-- `pid` names a process in the process tree that is not dead. -/
def NamesLive (sched : Sched) (pid : Pid) : Prop :=
  pid ∈ sched.processTree.values ∧ ∃ state, sched.state? pid = some state ∧ state ≠ .dead

/-- What a caller of `wait(pid)` may expect: it waits if there is somebody to wait
for, and otherwise it gets -1 and can go on. -/
structure Served (sched after : Sched) (pid : Pid) : Prop where
  waits : NamesLive sched pid → pid ≠ sched.current → pid ≠ kernelPid →
    WaitsFor sched.current pid after
  refused : ¬(NamesLive sched pid ∧ pid ≠ sched.current ∧ pid ≠ kernelPid) →
    after.eax? sched.current = some (-1) ∧
      (after.state? sched.current = some .ready ∨ after.state? sched.current = some .living)

theorem eax?_schedWaitFor (sched : Sched) (process pid other : Pid) :
    (schedWaitFor sched process pid).eax? other = sched.eax? other := by
  unfold schedWaitFor
  split
  · rfl
  · exact (Sched.eax?_appendWaiter ..).trans (Sched.eax?_setState ..)

/-- The call leaves the number of the system call in `eax`. Either nobody is found
and the waiters lists stay as they are, or the caller joins one of them. -/
theorem wait_cases {sched after : Sched} {pid : Pid} (inv : Inv sched)
    (waits : step sched (.wait pid) = some after) :
    after.eax? sched.current = some 4 ∧ SameTree sched after ∧
      (findLive sched pid = none →
        ∀ target, after.waitersOf target = sched.waitersOf target) ∧
      (∀ target, findLive sched pid = some target → target ≠ kernelPid →
        sched.current ∈ after.waitersOf target) := by
  unfold step at waits
  split at waits
  case isFalse => cases waits
  case isTrue mayOccur =>
    have notKernel : sched.current ≠ kernelPid := by simpa [Event.mayOccur] using mayOccur
    let entered := sched.setEax sched.current 4
    have enteredInv : Inv entered := (inv.setEax sched.current 4).inv
    have finds : findLive entered pid = findLive sched pid :=
      findLive_congr pid rfl (by simp [entered])
    change syscWait entered sched.current pid = some after at waits
    rcases Option.map_eq_some_iff.mp waits with ⟨switched, preempts, rfl⟩
    rcases preempted_of_schedPreemptHandler enteredInv.wf enteredInv.idle
      (.inl enteredInv.living) preempts with ⟨next, rest, reaped, preempted⟩
    rcases preempted.user_kept enteredInv.living notKernel with ⟨tree, eax, waiters, dead⟩
    have stillFinds : findLive switched pid = findLive sched pid :=
      (findLive_congr pid tree dead).trans finds
    have same := ((SameTree.setEax sched sched.current 4).trans
      (.preempt_user entered notKernel preempts)).trans
      (.schedWaitFor switched sched.current pid)
    refine ⟨?_, same, ?_, ?_⟩
    · have present : sched.eax? sched.current ≠ none := eax?_ne_none (by simp [inv.living])
      rcases Option.ne_none_iff_exists'.mp present with ⟨value, known⟩
      rw [eax?_schedWaitFor, eax, Sched.eax?_setEax, if_pos rfl, known]
      rfl
    · intro missing target
      rw [schedWaitFor, stillFinds, missing]
      exact (waiters target).trans (sched.waitersOf_setEax _ _ _)
    · intro target found user
      rw [schedWaitFor_eq (stillFinds.trans found)]
      let parked := (schedPurgeProcess switched sched.current).setState sched.current .napping
      have parkedSame : SameTree switched parked := ⟨rfl, identity_setState ..⟩
      have linked := (enteredInv.preempt preempts).inv.linked.of_sameTree parkedSame
      rcases inv.linked.state?_findLive found with ⟨state, known, -⟩
      have chain := ((SameTree.setEax sched sched.current 4).trans
        (.preempt_user entered notKernel preempts)).trans parkedSame
      have hasList := linked.hasWaiters (chain.present (by simp [known])) user
      rw [parked.waitersOf_appendWaiter_self sched.current hasList]
      exact List.mem_append_right _ List.mem_cons_self

/-- A wait is served exactly if it names a living user process other than the
caller, and `proc_find` meets that process on its way down the first children. -/
theorem served_iff {sched after : Sched} {pid : Pid} {before : List Event}
    (allowed : Admissible step attended initialiseScheduler (before ++ [.wait pid]))
    (reached : run step initialiseScheduler before = some sched)
    (waits : step sched (.wait pid) = some after) :
    Served sched after pid ↔
      pid ≠ 0 ∧ pid ∈ firstLine sched.processTree ∧ NamesLive sched pid ∧
        pid ≠ sched.current ∧ pid ≠ kernelPid := by
  rcases allowed.append reached with ⟨earlier, last⟩
  have inv := inv_initialiseScheduler.run (earlier.mono fun _ _ both => both.1) reached
  have afterInv := (inv.step last.1.1 waits).inv
  rcases wait_cases inv waits with ⟨eax, same, missed, found⟩
  constructor
  · intro served
    by_cases expects : NamesLive sched pid ∧ pid ≠ sched.current ∧ pid ≠ kernelPid
    case neg =>
      have refused := (served.refused expects).1
      rw [eax] at refused
      cases refused
    case pos =>
      rcases expects with ⟨live, notCaller, notKernel⟩
      rcases live.2 with ⟨state, known, alive⟩
      by_contra unfound
      have nobody : findLive sched pid = none := by
        rw [Option.eq_none_iff_forall_ne_some]
        intro target finds
        rcases findLive_eq_some_iff.mp finds with ⟨-, nonzero, member, -⟩
        exact unfound ⟨nonzero, member, live, notCaller, notKernel⟩
      have present : after.state? pid ≠ none := same.present (by simp [known])
      have listed := (served.waits live notCaller notKernel).listed [] after trivial rfl present
      rw [missed nobody pid] at listed
      exact inv.idle.notWaiting pid listed
  · rintro ⟨nonzero, member, live, notCaller, notKernel⟩
    rcases live.2 with ⟨state, known, alive⟩
    have finds : findLive sched pid = some pid :=
      findLive_eq_some_iff.mpr ⟨rfl, nonzero, member, by simp [known, alive]⟩
    refine ⟨fun _ _ _ => waitsFor_of_mem afterInv (found pid finds notKernel), fun refused => ?_⟩
    exact absurd ⟨live, notCaller, notKernel⟩ refused

/-- `init` waits for its only child. -/
theorem served_onlyChild :
    ∃ sched after, run step initialiseScheduler [.kmainSpawn true, .tick, .spawn true] =
        some sched ∧ step sched (.wait 3) = some after ∧ Served sched after 3 := by
  rcases Option.isSome_iff_exists.mp (show (run step initialiseScheduler
    [.kmainSpawn true, .tick, .spawn true]).isSome by decide) with ⟨sched, reached⟩
  have fields : (run step initialiseScheduler [.kmainSpawn true, .tick, .spawn true]).map
      (fun sched => ((step sched (.wait 3)).isSome, firstLine sched.processTree,
        sched.processTree.values, sched.state? 3, sched.current)) =
      some (true, [1, 2, 3], [1, 2, 3], some .ready, 2) := by decide
  rw [reached, Option.map_some, Option.some.injEq] at fields
  simp only [Prod.mk.injEq] at fields
  rcases fields with ⟨succeeds, line, values, state, current⟩
  rcases Option.isSome_iff_exists.mp succeeds with ⟨after, waits⟩
  have allowed : Admissible step attended initialiseScheduler
      ([.kmainSpawn true, .tick, .spawn true] ++ [.wait 3]) := by decide
  have live : NamesLive sched 3 := ⟨by simp [values], .ready, state, by decide⟩
  refine ⟨sched, after, reached, waits, (served_iff allowed reached waits).mpr ?_⟩
  exact ⟨by decide, by simp [line], live, by simp [current], by decide⟩

/-- A wait for a process that does not exist returns the number of the system
call, which is 4. -/
theorem not_served :
    ¬∀ (before : List Event) (sched after : Sched) (pid : Pid),
      Admissible step attended initialiseScheduler (before ++ [.wait pid]) →
      run step initialiseScheduler before = some sched →
      step sched (.wait pid) = some after → Served sched after pid := by
  intro always
  have fields : (run step initialiseScheduler [.kmainSpawn true, .tick]).bind (fun sched =>
      (step sched (.wait 99)).map fun after =>
        (sched.processTree.values, sched.current, after.eax? 2)) =
      some ([1, 2], 2, some 4) := by decide
  rcases Option.bind_eq_some_iff.mp fields with ⟨sched, reached, called⟩
  rcases Option.map_eq_some_iff.mp called with ⟨after, waits, equal⟩
  simp only [Prod.mk.injEq] at equal
  rcases equal with ⟨values, current, eax⟩
  have nobody : ¬(NamesLive sched 99 ∧ 99 ≠ sched.current ∧ 99 ≠ kernelPid) := by
    rintro ⟨⟨member, -⟩, -⟩
    simp [values] at member
  have refused := (always _ sched after 99 (by decide) reached waits).refused nobody
  rw [current, eax] at refused
  exact absurd refused.1 (by decide)

end Dbos.Process
