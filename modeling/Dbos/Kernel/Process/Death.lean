import Mathlib.Data.List.Perm.Subperm
import Dbos.Foundation.Execution
import Dbos.Kernel.Process.SchedulerRuns

/-! # The end of a process

A process that has died does not come back, and its corpse stays in `dead_queue`
until `proc_destroy` frees it. Both need orderly steps; the second also needs
that nobody but the kernel is preempted while a corpse is queued, because
`sched_get_next` takes a corpse out of the queue before it looks at who is
running. -/

namespace Dbos.Process

open Dbos.Queue Dbos.Execution

/-! ## Death is final -/

/-- A process that is gone can neither run nor be chosen to run, and once it has
been freed nothing refers to it. -/
structure StaysDead (pid : Pid) (sched : Sched) : Prop where
  notReady : pid ∉ sched.readyQueue
  notCurrent : sched.current ≠ pid
  forgotten : sched.state? pid = none →
    pid ∉ sched.deadQueue ∧ pid ∉ sched.nappingList.map Nap.process ∧
      pid ∉ sched.procs.flatMap Proc.waiting

theorem Gone.staysDead {pid : Pid} {sched : Sched} (inv : Inv sched)
    (gone : Gone pid sched) : StaysDead pid sched := by
  have notAlive : ∀ {state}, sched.state? pid = some state → state = .dead := by
    intro state known
    rcases gone with dead | ⟨absent, -⟩
    · exact (Option.some.inj (dead.symm.trans known)).symm
    · simp [absent] at known
  refine ⟨fun member => ?_, fun equal => ?_, fun freed => ⟨fun member => ?_, fun member => ?_,
    fun member => ?_⟩⟩
  · cases notAlive (inv.wf.readyState pid member)
  · cases notAlive (equal ▸ inv.living)
  · simp [inv.wf.deadState pid member] at freed
  · rcases List.mem_map.mp member with ⟨nap, napMember, rfl⟩
    simp [inv.wf.napState nap napMember] at freed
  · rcases List.mem_flatMap.mp member with ⟨proc, procMember, waits⟩
    have waiting := (inv.wf.waitersOf_of_mem procMember).symm ▸ waits
    simp [inv.wf.waiterState proc.pid pid waiting] at freed

/-- Death is final in every orderly run. -/
theorem dead_staysDead {pid : Pid} {middle final : Sched} {before after : List Event}
    (allowed : Admissible step orderly initialiseScheduler (before ++ after))
    (lived : run step initialiseScheduler before = some middle)
    (dead : middle.state? pid = some .dead)
    (reached : run step middle after = some final) : StaysDead pid final := by
  rcases allowed.append lived with ⟨first, second⟩
  have inv := inv_initialiseScheduler.run first lived
  rcases inv.run_moves Gone.move second reached (.inl dead) with ⟨finalInv, gone⟩
  exact gone.staysDead finalInv

/-- `init` spawns a process and kills it while it is ready. -/
def killedReady : List Event := [.kmainSpawn true, .tick, .spawn true, .kill 3]

theorem dead_staysDead_killedReady :
    ∃ final, run step initialiseScheduler (killedReady ++ [.tick, .tick]) = some final ∧
      StaysDead 3 final := by
  rcases Option.isSome_iff_exists.mp
    (show (run step initialiseScheduler killedReady).isSome by decide) with ⟨middle, lived⟩
  have dead : (run step initialiseScheduler killedReady).bind (·.state? 3) = some .dead := by
    decide
  rcases Option.isSome_iff_exists.mp
    (show (run step initialiseScheduler (killedReady ++ [.tick, .tick])).isSome by decide) with
    ⟨final, reached⟩
  have allowed : Admissible step orderly initialiseScheduler (killedReady ++ [.tick, .tick]) := by
    decide
  rw [lived] at dead
  refine ⟨final, reached, dead_staysDead allowed lived dead ?_⟩
  rwa [run_append, lived] at reached

/-- `init` spawns a process that goes to sleep, and kills it there. -/
def killedAsleep : List Event :=
  [.kmainSpawn true, .tick, .spawn true, .tick, .tick, .sleep 1, .kill 3]

/-- The timer makes a process ready that has been killed in its sleep. -/
theorem dead_not_staysDead :
    ¬∀ (pid : Pid) (middle final : Sched) (before after : List Event),
      run step initialiseScheduler before = some middle →
      middle.state? pid = some .dead →
      run step middle after = some final → StaysDead pid final := by
  intro always
  rcases Option.isSome_iff_exists.mp
    (show (run step initialiseScheduler killedAsleep).isSome by decide) with ⟨middle, lived⟩
  have dead : (run step initialiseScheduler killedAsleep).bind (·.state? 3) = some .dead := by
    decide
  have ready : (run step initialiseScheduler (killedAsleep ++ [.tick])).map
      (fun final => decide (3 ∈ final.readyQueue)) = some true := by decide
  rw [lived] at dead
  rw [run_append, lived, Option.bind_some] at ready
  rcases Option.map_eq_some_iff.mp ready with ⟨final, reached, member⟩
  exact (always 3 middle final killedAsleep [.tick] lived dead reached).notReady
    (of_decide_eq_true member)

/-! ## Corpses are kept until they are freed -/

/-- Nobody dies, and the corpses that were queued still are. -/
structure NoDeaths (before after : Sched) : Prop where
  dead : ∀ pid, after.state? pid = some .dead → before.state? pid = some .dead
  queued : ∀ pid, after.state? pid = some .dead → pid ∈ before.deadQueue →
    pid ∈ after.deadQueue

namespace NoDeaths

theorem refl (sched : Sched) : NoDeaths sched sched := ⟨fun _ => id, fun _ _ => id⟩

theorem trans {before middle after : Sched} (first : NoDeaths before middle)
    (second : NoDeaths middle after) : NoDeaths before after where
  dead pid isDead := first.dead pid (second.dead pid isDead)
  queued pid isDead member :=
    second.queued pid isDead (first.queued pid (second.dead pid isDead) member)

theorem of_states {before after : Sched} (queue : after.deadQueue = before.deadQueue)
    (dead : ∀ pid, after.state? pid = some .dead → before.state? pid = some .dead) :
    NoDeaths before after :=
  ⟨dead, fun _ _ member => queue ▸ member⟩

variable (sched : Sched)

theorem setState (pid : Pid) {state : ProcState} (alive : state ≠ .dead) :
    NoDeaths sched (sched.setState pid state) := by
  refine .of_states rfl fun other dead => ?_
  rw [Sched.state?_setState] at dead
  split at dead
  · cases known : sched.state? other <;> simp [known, alive] at dead
  · exact dead

theorem setEax (pid : Pid) (value : Int) : NoDeaths sched (sched.setEax pid value) :=
  .of_states rfl fun other dead => by simpa using dead

theorem makeReady (pid : Pid) : NoDeaths sched (schedMakeReady sched pid) :=
  let ready : NoDeaths sched (sched.setState pid .ready) := .setState sched pid (by decide)
  ⟨ready.dead, ready.queued⟩

theorem purge {pid : Pid} (alive : sched.state? pid ≠ some .dead) :
    NoDeaths sched (schedPurgeProcess sched pid) where
  dead _ isDead := isDead
  queued other isDead member := by
    refine mem_forceRemove.mpr ⟨member, ?_⟩
    rintro rfl
    exact alive isDead

theorem timekeeperLoop (naps : List Nap) :
    NoDeaths sched (Process.timekeeperLoop naps sched).2 := by
  induction naps generalizing sched with
  | nil => exact .refl sched
  | cons nap rest induction =>
      unfold Process.timekeeperLoop
      split
      · exact (makeReady sched nap.process).trans (induction _)
      · exact induction sched

theorem schedTimekeeper : NoDeaths sched (Process.schedTimekeeper sched) :=
  let loop := NoDeaths.timekeeperLoop sched sched.nappingList
  ⟨loop.dead, loop.queued⟩

theorem schedWaitFor (process pid : Pid) :
    NoDeaths sched (Process.schedWaitFor sched process pid) := by
  unfold Process.schedWaitFor
  split
  case h_1 => exact .refl sched
  case h_2 target _ =>
    have waits : NoDeaths (sched.setState process .napping)
        ((sched.setState process .napping).appendWaiter target process) :=
      .of_states rfl fun pid dead => by simpa using dead
    have sleeps : NoDeaths sched (sched.setState process .napping) :=
      .setState sched process (by decide)
    refine (sleeps.trans waits).trans (.purge _ ?_)
    rw [Sched.state?_appendWaiter, Sched.state?_setState, if_pos rfl]
    cases sched.state? process <;> simp

theorem schedMakeNapping {next : Sched} {process : Pid} {time : Int}
    (naps : Process.schedMakeNapping sched process time = some next) :
    NoDeaths sched next := by
  rcases Option.map_eq_some_iff.mp naps with ⟨proc, found, parked⟩
  split at parked
  case isFalse => exact parked ▸ .refl sched
  case isTrue awake =>
    have purged : NoDeaths sched (schedPurgeProcess sched process) := by
      refine .purge sched ?_
      simpa [Sched.state?, found] using awake.1
    have sleeps : NoDeaths (schedPurgeProcess sched process)
        ((schedPurgeProcess sched process).setState process .napping) :=
      .setState _ process (by decide)
    have parks := purged.trans sleeps
    exact parked ▸ ⟨parks.dead, parks.queued⟩

theorem schedWakeup (wf : Wf sched) (pid : Pid) :
    NoDeaths sched (Process.schedWakeup sched pid).2 := by
  unfold Process.schedWakeup
  split
  case h_2 => exact .refl sched
  case h_1 nap found =>
    have asleep := wf.napState nap (List.mem_of_find?_eq_some found)
    have unlinked : NoDeaths sched { sched with
        nappingList := sched.nappingList.eraseP fun nap => nap.process = pid } :=
      .of_states rfl fun _ => id
    refine (unlinked.trans (.purge _ ?_)).trans (.makeReady _ _)
    change sched.state? nap.process ≠ some .dead
    simp [asleep]

theorem procCreate (parent : Pid) : NoDeaths sched (Process.procCreate sched parent).2 := by
  refine .of_states rfl fun pid dead => ?_
  rw [state?_procCreate] at dead
  cases known : sched.state? pid with
  | none =>
      rw [known, Option.none_or] at dead
      split at dead <;> cases dead
  | some state =>
      rw [known] at dead
      exact dead

theorem loaderSpawn (parent : Pid) (binaryFound : Bool) :
    NoDeaths sched (Process.loaderSpawn sched parent binaryFound).2 := by
  cases binaryFound with
  | false => exact .refl sched
  | true => exact (procCreate sched parent).trans (.makeReady _ _)

end NoDeaths

/-- Every dead process except the kernel is in `dead_queue`. -/
def Buried (sched : Sched) : Prop :=
  ∀ pid, pid ≠ kernelPid → sched.state? pid = some .dead → pid ∈ sched.deadQueue

theorem Buried.of_noDeaths {before after : Sched} (buried : Buried before)
    (noDeaths : NoDeaths before after) : Buried after := fun pid notKernel dead =>
  noDeaths.queued pid dead (buried pid notKernel (noDeaths.dead pid dead))

theorem Wf.deadQueue_length_le {sched : Sched} (wf : Wf sched) :
    sched.deadQueue.length ≤ sched.procs.length := by
  have present : sched.deadQueue ⊆ sched.procs.map Proc.pid := fun pid member =>
    state?_ne_none_iff.mp (by simp [wf.deadState pid member])
  simpa using (List.subperm_of_subset wf.deadNodup present).length_le

/-- What reaping leaves dead was dead before; and a corpse that the kernel takes
from the queue is not dead any more but freed. -/
theorem dead_of_reap {sched next : Sched} {preempted : Pid} {corpse : Option Pid}
    (wf : Wf sched)
    (isDead : ∀ pid, corpse = some pid → Idle sched pid ∧ sched.state? pid = some .dead)
    (reaping : reap sched preempted corpse = some next) {pid : Pid}
    (dead : next.state? pid = some .dead) :
    sched.state? pid = some .dead ∧
      (preempted = kernelPid → pid ≠ kernelPid → corpse ≠ some pid) := by
  cases corpse with
  | none =>
      cases reaping
      exact ⟨dead, by simp⟩
  | some process =>
      simp only [reap] at reaping
      split at reaping
      case isFalse other =>
        cases reaping
        exact ⟨dead, fun kernel => absurd kernel other⟩
      case isTrue =>
        by_cases kernel : process = kernelPid
        · simp only [procDestroy, kernel, if_true, Option.some.injEq] at reaping
          subst reaping
          refine ⟨dead, fun _ notKernel same => notKernel ?_⟩
          rw [← Option.some.inj same, kernel]
        · rcases isDead process rfl with ⟨idle, processDead⟩
          have woken := woken_procDestroy wf idle processDead kernel reaping
          have notWaiter : pid ∉ sched.waitersOf process := by
            intro member
            simp [woken.stateWoken pid member] at dead
          rw [woken.stateOther pid notWaiter, state?_unlink] at dead
          split at dead
          case isTrue => cases dead
          case isFalse different =>
            refine ⟨dead, fun _ _ same => different ?_⟩
            exact (Option.some.inj same).symm

/-- A preemption that takes no corpse from the queue unless it destroys it. -/
theorem Buried.preempt {before after : Sched} (wf : Wf before)
    (idle : Idle before before.current)
    (running : before.state? before.current = some .living ∨
      before.state? before.current = some .dead)
    (room : before.procs.length < schedMaxDead)
    (reaper : before.deadQueue = [] ∨ before.current = kernelPid)
    (buried : ∀ pid, pid ≠ kernelPid → pid ≠ before.current →
      before.state? pid = some .dead → pid ∈ before.deadQueue)
    (handled : schedPreemptHandler before = some after) : Buried after := by
  rcases preempted_of_schedPreemptHandler wf idle running handled with
    ⟨next, rest, reaped, preempted⟩
  intro pid notKernel dead
  rw [preempted.switched] at dead ⊢
  change ((bury reaped before.current).setState next .living).state? pid = _ at dead
  change pid ∈ (bury reaped before.current).deadQueue
  have notNext : pid ≠ next := by
    rintro rfl
    simp [preempted.nextReady_bury] at dead
  rw [Sched.state?_setState, if_neg notNext] at dead
  have queue : reaped.deadQueue = before.deadQueue.tail := by
    rw [preempted.reaps.deadQueue]
    simp [choose]
  unfold bury at dead ⊢
  by_cases isCurrent : pid = before.current
  · subst isCurrent
    split at dead
    case isFalse alive => exact absurd dead alive
    case isTrue died =>
      rw [if_pos died]
      refine mem_enqueue_self _ ?_
      have length := wf.deadQueue_length_le
      have shorter : (reaped.setState before.current .dead).deadQueue.length =
          before.deadQueue.length - 1 := by
        change reaped.deadQueue.length = _
        rw [queue, List.length_tail]
      omega
  · have reapedDead : reaped.state? pid = some .dead := by
      split at dead
      · simpa [isCurrent] using dead
      · exact dead
    rcases dead_of_reap preempted.chosen preempted.corpse preempted.reaping reapedDead with
      ⟨chosenDead, notCorpse⟩
    have beforeDead : before.state? pid = some .dead := by
      change (offer before).state? pid = _ at chosenDead
      unfold offer at chosenDead
      split at chosenDead
      · simpa [isCurrent] using chosenDead
      · exact chosenDead
    have queued := buried pid notKernel isCurrent beforeDead
    have kept : pid ∈ reaped.deadQueue := by
      rw [queue]
      cases corpses : before.deadQueue with
      | nil => simp [corpses] at queued
      | cons head tail =>
          rcases List.mem_cons.mp (corpses ▸ queued) with rfl | later
          · have kernel : before.current = kernelPid := by simpa [corpses] using reaper
            exact absurd (by simp [corpses]) (notCorpse kernel notKernel)
          · exact later
    split
    · exact mem_enqueue_of_mem kept
    · exact kept

namespace Buried

variable {sched next : Sched} (inv : Inv sched) (buried : Buried sched)
  (room : sched.procs.length < schedMaxDead)
include inv buried room

theorem preemptLiving (reaper : sched.deadQueue = [] ∨ sched.current = kernelPid)
    (handled : schedPreemptHandler sched = some next) : Buried next :=
  .preempt inv.wf inv.idle (.inl inv.living) room reaper
    (fun pid notKernel _ dead => buried pid notKernel dead) handled

theorem syscExit (reaper : sched.deadQueue = [] ∨ sched.current = kernelPid)
    (handled : Process.syscExit sched sched.current = some next) : Buried next := by
  have dead : (sched.setState sched.current .dead).state? sched.current = some .dead := by
    simp [inv.living]
  refine .preempt (inv.wf.setState inv.idle .dead) (inv.idle.setState _ _) (.inr dead)
    ?_ reaper ?_ handled
  · simpa [Sched.setState, Sched.modifyProc] using room
  · intro pid notKernel notCurrent isDead
    change pid ≠ sched.current at notCurrent
    rw [Sched.state?_setState, if_neg notCurrent] at isDead
    exact buried pid notKernel isDead

theorem syscKill (pid : Pid) : Buried (Process.syscKill sched sched.current pid) := by
  unfold Process.syscKill
  split
  case h_2 => exact buried.of_noDeaths (.setEax ..)
  case h_1 target found =>
    apply Buried.of_noDeaths ?_ (.setEax ..)
    intro other notKernel dead
    by_cases isTarget : other = target
    · subst isTarget
      refine mem_enqueue_self _ ?_
      have shorter : (forceRemove sched.deadQueue other).length ≤ sched.deadQueue.length :=
        List.length_filter_le ..
      have length := inv.wf.deadQueue_length_le
      exact Nat.lt_of_le_of_lt (Nat.le_trans shorter length) room
    · rw [state?_schedMakeDead, if_neg isTarget] at dead
      exact mem_enqueue_of_mem (mem_forceRemove.mpr ⟨buried other notKernel dead, isTarget⟩)

end Buried

/-- An orderly step with fewer than 256 processes, in which a corpse leaves
`dead_queue` only if the kernel is there to destroy it. -/
def buries (sched : Sched) (event : Event) : Prop :=
  orderly sched event ∧ sched.procs.length < 256 ∧
    (event.preempts = true → sched.deadQueue = [] ∨ sched.current = kernelPid)

instance (sched : Sched) (event : Event) : Decidable (buries sched event) :=
  inferInstanceAs (Decidable (_ ∧ _ ∧ _))

theorem Buried.handle {sched next : Sched} {event : Event} (inv : Inv sched)
    (buried : Buried sched) (room : sched.procs.length < schedMaxDead)
    (reaper : event.preempts = true → sched.deadQueue = [] ∨ sched.current = kernelPid)
    (handled : Process.handle sched event = some next) : Buried next := by
  cases event with
  | tick =>
      rcases Option.map_eq_some_iff.mp handled with ⟨switched, preempts, timed⟩
      exact timed ▸ (buried.preemptLiving inv room (reaper rfl) preempts).of_noDeaths
        (.schedTimekeeper _)
  | fatalFault => exact buried.syscExit inv room (reaper rfl) handled
  | exit status => exact buried.syscExit inv room (reaper rfl) handled
  | fork =>
      refine Option.some.inj handled ▸ buried.of_noDeaths ?_
      exact ((NoDeaths.procCreate sched sched.current).trans (.setEax ..)).trans (.makeReady ..)
  | spawn binaryFound =>
      refine Option.some.inj handled ▸ buried.of_noDeaths ?_
      exact (NoDeaths.loaderSpawn sched sched.current binaryFound).trans (.setEax ..)
  | wait pid =>
      rcases Option.map_eq_some_iff.mp handled with ⟨switched, preempts, waits⟩
      exact waits ▸ (buried.preemptLiving inv room (reaper rfl) preempts).of_noDeaths
        (.schedWaitFor ..)
  | wakeup pid =>
      refine Option.some.inj handled ▸ buried.of_noDeaths ?_
      exact (NoDeaths.schedWakeup sched inv.wf pid).trans (.setEax ..)
  | kill pid => exact Option.some.inj handled ▸ buried.syscKill inv room pid
  | sleep time =>
      rcases Option.bind_eq_some_iff.mp handled with ⟨switched, preempts, naps⟩
      exact (buried.preemptLiving inv room (reaper rfl) preempts).of_noDeaths
        (.schedMakeNapping _ naps)
  | execve binaryFound =>
      cases binaryFound with
      | true => exact buried.preemptLiving inv room (reaper rfl) handled
      | false => exact buried.syscExit inv room (reaper rfl) handled
  | kmainSpawn binaryFound =>
      exact Option.some.inj handled ▸ buried.of_noDeaths (.loaderSpawn ..)

theorem Buried.step {sched next : Sched} {event : Event} (inv : Inv sched)
    (buried : Buried sched) (allowed : buries sched event)
    (stepped : Process.step sched event = some next) : Buried next := by
  rcases allowed with ⟨-, room, reaper⟩
  unfold Process.step at stepped
  split at stepped
  case isFalse => cases stepped
  case isTrue =>
    unfold enter at stepped
    split at stepped
    case h_2 => exact buried.handle inv room reaper stepped
    case h_1 number _ =>
      refine (buried.of_noDeaths (.setEax ..)).handle (inv.setEax ..).inv ?_ reaper stepped
      simpa [Sched.setEax, Sched.modifyProc, schedMaxDead] using room

theorem Buried.run {sched final : Sched} {events : List Event} (inv : Inv sched)
    (buried : Buried sched) (allowed : Admissible Process.step buries sched events)
    (reached : Execution.run Process.step sched events = some final) :
    Inv final ∧ Buried final := by
  have preserved : ∀ before event after, Inv before ∧ Buried before →
      buries before event → Process.step before event = some after →
      Inv after ∧ Buried after := fun before event after holds permitted stepped =>
    ⟨(holds.1.step permitted.1 stepped).inv, holds.2.step holds.1 permitted stepped⟩
  exact run_preserves preserved ⟨inv, buried⟩ allowed reached

theorem buried_initialiseScheduler : Buried initialiseScheduler := by
  intro pid notKernel dead
  have present : initialiseScheduler.state? pid ≠ none := by simp [dead]
  rw [state?_ne_none_iff] at present
  exact absurd (List.mem_singleton.mp present) notKernel

/-- No corpse is lost: a process that has died is in `dead_queue` for as long as
its structure exists, which is until `proc_destroy` frees it. -/
theorem dead_mem_deadQueue {pid : Pid} {middle final : Sched} {before after : List Event}
    (allowed : Admissible step buries initialiseScheduler (before ++ after))
    (lived : run step initialiseScheduler before = some middle) (notKernel : pid ≠ kernelPid)
    (dead : middle.state? pid = some .dead) (reached : run step middle after = some final) :
    final.state? pid = some .dead ∧ pid ∈ final.deadQueue ∨ final.state? pid = none := by
  rcases allowed.append lived with ⟨first, second⟩
  rcases buried_initialiseScheduler.run inv_initialiseScheduler first lived with ⟨inv, buried⟩
  rcases buried.run inv second reached with ⟨-, finalBuried⟩
  have orderlyRun := second.mono fun _ _ permitted => permitted.1
  rcases (inv.run_moves Gone.move orderlyRun reached (.inl dead)).2 with still | ⟨freed, -⟩
  · exact .inl ⟨still, finalBuried pid notKernel still⟩
  · exact .inr freed

/-- `init` exits while the kernel is the only other process. -/
def lonelyExit : List Event := [.kmainSpawn true, .tick, .exit 0]

theorem dead_mem_deadQueue_lonelyExit :
    ∃ final, run step initialiseScheduler (lonelyExit ++ [.tick]) = some final ∧
      (final.state? 2 = some .dead ∧ 2 ∈ final.deadQueue ∨ final.state? 2 = none) := by
  rcases Option.isSome_iff_exists.mp
    (show (run step initialiseScheduler lonelyExit).isSome by decide) with ⟨middle, lived⟩
  have dead : (run step initialiseScheduler lonelyExit).bind (·.state? 2) = some .dead := by
    decide
  rcases Option.isSome_iff_exists.mp
    (show (run step initialiseScheduler (lonelyExit ++ [.tick])).isSome by decide) with
    ⟨final, reached⟩
  have allowed : Admissible step buries initialiseScheduler (lonelyExit ++ [.tick]) := by decide
  rw [lived] at dead
  refine ⟨final, reached, dead_mem_deadQueue allowed lived (by decide) dead ?_⟩
  rwa [run_append, lived] at reached

/-- A child of `init` exits while `init` is ready. -/
def exitBeforeInit : List Event :=
  [.kmainSpawn true, .tick, .spawn true, .tick, .tick, .exit 0]

/-- The tick that preempts `init` takes the corpse of its child from `dead_queue`,
and nobody ever destroys it. -/
theorem dead_not_mem_deadQueue :
    ¬∀ (pid : Pid) (middle final : Sched) (before after : List Event),
      Admissible step (fun sched _ => sched.procs.length < 256) initialiseScheduler
        (before ++ after) →
      run step initialiseScheduler before = some middle → pid ≠ kernelPid →
      middle.state? pid = some .dead → run step middle after = some final →
      final.state? pid = some .dead ∧ pid ∈ final.deadQueue ∨ final.state? pid = none := by
  intro always
  rcases Option.isSome_iff_exists.mp
    (show (run step initialiseScheduler exitBeforeInit).isSome by decide) with ⟨middle, lived⟩
  have dead : (run step initialiseScheduler exitBeforeInit).bind (·.state? 3) =
      some .dead := by decide
  have lost : (run step initialiseScheduler (exitBeforeInit ++ [.tick])).map
      (fun final => (final.state? 3, final.deadQueue)) = some (some .dead, []) := by decide
  rw [lived] at dead
  rw [run_append, lived, Option.bind_some] at lost
  rcases Option.map_eq_some_iff.mp lost with ⟨final, reached, kept⟩
  rcases Prod.mk.inj kept with ⟨stillDead, empty⟩
  rcases always 3 middle final exitBeforeInit [.tick] (by decide) lived (by decide) dead
    reached with ⟨-, member⟩ | freed
  · simp [empty] at member
  · simp [freed] at stillDead

end Dbos.Process
