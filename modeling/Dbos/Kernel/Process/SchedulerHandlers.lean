import Dbos.Foundation.Execution
import Dbos.Kernel.Process.SchedulerMoves

/-! # The handlers as sequences of moves

For each function of the scheduler: which moves it makes, and what it does to
the processes a caller may ask about. -/

namespace Dbos.Process

open Dbos.Queue

/-! ## Making processes ready and dead -/

namespace Idle

variable {sched : Sched} {pid : Pid}

theorem setState (idle : Idle sched pid) (changed : Pid) (state : ProcState) :
    Idle (sched.setState changed state) pid :=
  ⟨idle.notReady, idle.notDead, idle.notNapping, by simpa using idle.notWaiting⟩

theorem setEax (idle : Idle sched pid) (changed : Pid) (value : Int) :
    Idle (sched.setEax changed value) pid :=
  ⟨idle.notReady, idle.notDead, idle.notNapping, by simpa using idle.notWaiting⟩

theorem makeReady (idle : Idle sched pid) {other : Pid} (different : pid ≠ other) :
    Idle (schedMakeReady sched other) pid where
  notReady member := (mem_enqueue member).elim idle.notReady different
  notDead := idle.notDead
  notNapping := idle.notNapping
  notWaiting target member := idle.notWaiting target <| by
    rwa [← sched.waitersOf_setState other target .ready]

theorem makeDead (idle : Idle sched pid) {other : Pid} (different : pid ≠ other) :
    Idle (schedMakeDead sched other) pid where
  notReady := idle.notReady
  notDead member := (mem_enqueue member).elim idle.notDead different
  notNapping := idle.notNapping
  notWaiting target member := idle.notWaiting target <| by
    rwa [← sched.waitersOf_setState other target .dead]

theorem freeProc (idle : Idle sched pid) (freed : Pid) : Idle (sched.freeProc freed) pid where
  notReady := idle.notReady
  notDead := idle.notDead
  notNapping := idle.notNapping
  notWaiting target member := by
    rw [Sched.waitersOf_freeProc] at member
    split at member
    · cases member
    · exact idle.notWaiting target member

theorem purge (notNapping : ∀ nap ∈ sched.nappingList, nap.process ≠ pid)
    (notWaiting : ∀ target, pid ∉ sched.waitersOf target) :
    Idle (schedPurgeProcess sched pid) pid where
  notReady := by simp [schedPurgeProcess]
  notDead := by simp [schedPurgeProcess]
  notNapping := notNapping
  notWaiting := notWaiting

theorem purge_eq (idle : Idle sched pid) : schedPurgeProcess sched pid = sched := by
  unfold schedPurgeProcess
  rw [forceRemove_of_notMem idle.notReady, forceRemove_of_notMem idle.notDead]

end Idle

theorem mem_waiting_of_mem_waitersOf {sched : Sched} {pid target : Pid}
    (member : pid ∈ sched.waitersOf target) : pid ∈ sched.procs.flatMap Proc.waiting := by
  unfold Sched.waitersOf at member
  cases found : sched.proc? target with
  | none => simp [found] at member
  | some proc =>
      rw [found] at member
      exact List.mem_flatMap.mpr ⟨proc, (sched.proc?_eq_some found).1, member⟩

@[simp] theorem state?_schedMakeReady (sched : Sched) (pid other : Pid) :
    (schedMakeReady sched pid).state? other =
      if other = pid then (sched.state? other).map fun _ => .ready
      else sched.state? other :=
  sched.state?_setState pid other .ready

@[simp] theorem state?_schedMakeDead (sched : Sched) (pid other : Pid) :
    (schedMakeDead sched pid).state? other =
      if other = pid then (sched.state? other).map fun _ => .dead
      else sched.state? other :=
  sched.state?_setState pid other .dead

theorem schedMakeReady_setEax (sched : Sched) (pid writer : Pid) (value : Int) :
    schedMakeReady (sched.setEax writer value) pid =
      (schedMakeReady sched pid).setEax writer value := by
  have commutes : (sched.setEax writer value).setState pid .ready =
      (sched.setState pid .ready).setEax writer value := by
    simp only [Sched.setEax, Sched.setState, Sched.modifyProc, List.map_map]
    congr 2
    funext proc
    simp only [Function.comp_apply]
    split <;> split <;> simp_all
  unfold schedMakeReady
  rw [commutes]
  rfl

theorem moves_setEax (sched : Sched) (pid : Pid) (value : Int) :
    Moves sched (sched.setEax pid value) :=
  .single (.shrink (by simp) (by simp) (.refl _) (.refl _) (.refl _) (sched.pids_setEax _ _) rfl)

theorem moves_setCurrent (sched : Sched) (pid : Pid) :
    Moves sched { sched with current := pid } :=
  .single (.shrink (fun _ => rfl) (fun _ => rfl) (.refl _) (.refl _) (.refl _) rfl rfl)

theorem moves_setTree (sched : Sched) (tree : GenTree Pid) :
    Moves sched { sched with processTree := tree } :=
  .single (.shrink (fun _ => rfl) (fun _ => rfl) (.refl _) (.refl _) (.refl _) rfl rfl)

theorem moves_purge (sched : Sched) (pid : Pid) :
    Moves sched (schedPurgeProcess sched pid) :=
  .single (.shrink (fun _ => rfl) (fun _ => rfl) List.filter_sublist List.filter_sublist
    (.refl _) rfl rfl)

theorem moves_setNappingList (sched : Sched) {naps : List Nap}
    (fewer : naps.Sublist sched.nappingList) :
    Moves sched { sched with nappingList := naps } :=
  .single (.shrink (fun _ => rfl) (fun _ => rfl) (.refl _) (.refl _) fewer rfl rfl)

theorem moves_schedMakeReady {sched : Sched} {pid : Pid} (idle : Idle sched pid)
    (present : sched.state? pid ≠ none) (alive : sched.state? pid ≠ some .dead) :
    Moves sched (schedMakeReady sched pid) := by
  rcases Option.ne_none_iff_exists'.mp present with ⟨state, known⟩
  refine .tail (.single (.setState idle fun dead => absurd dead alive))
    (.enterReady (idle.setState pid .ready) ?_)
  simp [known]

theorem moves_schedMakeDead {sched : Sched} {pid : Pid} (idle : Idle sched pid)
    (present : sched.state? pid ≠ none) : Moves sched (schedMakeDead sched pid) := by
  rcases Option.ne_none_iff_exists'.mp present with ⟨state, known⟩
  refine .tail (.single (.setState idle fun _ => rfl))
    (.enterDead (idle.setState pid .dead) ?_)
  simp [known]

/-! ## Destroying a process -/

/-- What `proc_destroy` does to the rest of the system while it wakes `waiters`
on behalf of `process`. -/
structure Woken (process : Pid) (waiters : List Pid) (before after : Sched) : Prop where
  moves : Moves before after
  stateOther : ∀ pid, pid ∉ waiters → after.state? pid = before.state? pid
  stateWoken : ∀ pid ∈ waiters, after.state? pid = some .ready
  eaxOther : ∀ pid, pid ∉ waiters → after.eax? pid = before.eax? pid
  eaxWoken : ∀ pid ∈ waiters, after.eax? pid = some process
  idle : ∀ pid, pid ∉ waiters → Idle before pid → Idle after pid
  deadQueue : after.deadQueue = before.deadQueue
  readyQueue : ∀ pid ∈ before.readyQueue, pid ∈ after.readyQueue
  readyWoken : ∀ pid ∈ waiters, before.readyQueue.length + waiters.length ≤ schedMaxReady →
    pid ∈ after.readyQueue

theorem wakeWaiter_eq {sched : Sched} {waiter : Pid} (idle : Idle sched waiter)
    (process : Pid) :
    wakeWaiter process sched waiter = schedMakeReady (sched.setEax waiter process) waiter := by
  unfold wakeWaiter
  rw [(idle.setEax waiter process).purge_eq]

theorem eax?_schedMakeReady (sched : Sched) (pid other : Pid) :
    (schedMakeReady sched pid).eax? other = sched.eax? other :=
  sched.eax?_setState pid other .ready

theorem eax?_ne_none {sched : Sched} {pid : Pid} (present : sched.state? pid ≠ none) :
    sched.eax? pid ≠ none := by
  intro absent
  apply present
  unfold Sched.eax? at absent
  unfold Sched.state?
  rw [Option.map_eq_none_iff.mp absent]
  rfl

theorem woken_foldl (process : Pid) {waiters : List Pid} {sched : Sched}
    (nodup : waiters.Nodup)
    (napping : ∀ pid ∈ waiters, Idle sched pid ∧ sched.state? pid = some .napping) :
    Woken process waiters sched (waiters.foldl (wakeWaiter process) sched) := by
  induction waiters generalizing sched with
  | nil =>
      exact ⟨.refl, fun _ _ => rfl, by simp, fun _ _ => rfl, by simp, fun _ _ => id, rfl,
        fun _ => id, by simp⟩
  | cons waiter rest induction =>
      rcases napping waiter (by simp) with ⟨idle, asleep⟩
      have notLater : waiter ∉ rest := (List.nodup_cons.mp nodup).1
      rw [List.foldl_cons, wakeWaiter_eq idle process]
      let first := schedMakeReady (sched.setEax waiter process) waiter
      have firstState : ∀ pid, pid ≠ waiter → first.state? pid = sched.state? pid := by
        intro pid different
        simp [first, different]
      have woken : Woken process rest first (rest.foldl (wakeWaiter process) first) := by
        apply induction (List.nodup_cons.mp nodup).2
        intro pid member
        have different : pid ≠ waiter := fun equal => notLater (equal ▸ member)
        rcases napping pid (by simp [member]) with ⟨pidIdle, pidAsleep⟩
        exact ⟨(pidIdle.setEax waiter process).makeReady different,
          (firstState pid different).trans pidAsleep⟩
      have firstMoves : Moves sched first :=
        (moves_setEax sched waiter process).trans <|
          moves_schedMakeReady (idle.setEax waiter process) (by simp [asleep])
            (by simp [asleep])
      have firstReady : first.state? waiter = some .ready := by simp [first, asleep]
      have present : sched.eax? waiter ≠ none := eax?_ne_none (by simp [asleep])
      have firstEax : first.eax? waiter = some process := by
        rcases Option.ne_none_iff_exists'.mp present with ⟨value, known⟩
        simp [first, eax?_schedMakeReady, Sched.eax?_setEax, known]
      refine ⟨firstMoves.trans woken.moves, ?_, ?_, ?_, ?_, ?_, woken.deadQueue, ?_, ?_⟩
      · intro pid notWaiter
        simp only [List.mem_cons, not_or] at notWaiter
        rw [woken.stateOther pid notWaiter.2, firstState pid notWaiter.1]
      · intro pid member
        rcases List.mem_cons.mp member with rfl | later
        · rw [woken.stateOther pid notLater, firstReady]
        · exact woken.stateWoken pid later
      · intro pid notWaiter
        simp only [List.mem_cons, not_or] at notWaiter
        rw [woken.eaxOther pid notWaiter.2, eax?_schedMakeReady, Sched.eax?_setEax,
          if_neg notWaiter.1]
      · intro pid member
        rcases List.mem_cons.mp member with rfl | later
        · rw [woken.eaxOther pid notLater, firstEax]
        · exact woken.eaxWoken pid later
      · intro pid notWaiter pidIdle
        simp only [List.mem_cons, not_or] at notWaiter
        exact woken.idle pid notWaiter.2
          ((pidIdle.setEax waiter process).makeReady notWaiter.1)
      · intro pid member
        exact woken.readyQueue pid (mem_enqueue_of_mem member)
      · intro pid member room
        simp only [List.length_cons] at room
        rcases List.mem_cons.mp member with rfl | later
        · apply woken.readyQueue
          exact mem_enqueue_self pid (by
            show sched.readyQueue.length < schedMaxReady
            omega)
        · apply woken.readyWoken pid later
          have grown : first.readyQueue.length ≤ sched.readyQueue.length + 1 := by
            simp only [first, schedMakeReady, enqueue]
            split <;> simp [Sched.setState, Sched.setEax, Sched.modifyProc]
          omega

theorem freeProc_wakeWaiter (process freed : Pid) (sched : Sched) (waiter : Pid) :
    (wakeWaiter process sched waiter).freeProc freed =
      wakeWaiter process (sched.freeProc freed) waiter := by
  have commutes : ∀ (table : List Proc) (change : Proc → Proc),
      (∀ proc, (change proc).pid = proc.pid) →
      (table.map fun proc => if proc.pid = waiter then change proc else proc).filter
          (fun proc => proc.pid ≠ freed) =
        (table.filter fun proc => proc.pid ≠ freed).map
          fun proc => if proc.pid = waiter then change proc else proc := by
    intro table change keepsPid
    rw [List.filter_map]
    congr 2
    funext proc
    simp only [Function.comp_apply]
    split <;> simp [keepsPid]
  simp only [wakeWaiter, schedMakeReady, schedPurgeProcess, Sched.setState, Sched.setEax,
    Sched.modifyProc, Sched.freeProc]
  rw [commutes, commutes]
  · exact fun _ => rfl
  · exact fun _ => rfl

theorem freeProc_foldl_wakeWaiter (process freed : Pid) (waiters : List Pid) (sched : Sched) :
    (waiters.foldl (wakeWaiter process) sched).freeProc freed =
      waiters.foldl (wakeWaiter process) (sched.freeProc freed) := by
  induction waiters generalizing sched with
  | nil => rfl
  | cons waiter rest induction =>
      rw [List.foldl_cons, List.foldl_cons, induction, freeProc_wakeWaiter]

theorem setTree_foldl_wakeWaiter (process : Pid) (tree : GenTree Pid) (waiters : List Pid)
    (sched : Sched) :
    { waiters.foldl (wakeWaiter process) sched with processTree := tree } =
      waiters.foldl (wakeWaiter process) { sched with processTree := tree } := by
  induction waiters generalizing sched with
  | nil => rfl
  | cons waiter rest induction =>
      rw [List.foldl_cons, List.foldl_cons, induction]
      rfl

theorem processTree_foldl_wakeWaiter (process : Pid) (waiters : List Pid) (sched : Sched) :
    (waiters.foldl (wakeWaiter process) sched).processTree = sched.processTree := by
  induction waiters generalizing sched with
  | nil => rfl
  | cons waiter rest induction =>
      rw [List.foldl_cons, induction]
      rfl

/-- What is left of the process itself when its waiters are woken. -/
def unlink (sched : Sched) (process : Pid) : Sched :=
  { sched with processTree := sched.processTree.dissolve process }.freeProc process

theorem procDestroy_eq {sched next : Sched} {process : Pid}
    (notKernel : process ≠ kernelPid) (destroyed : procDestroy sched process = some next) :
    sched.state? process ≠ none ∧
      next = (sched.waitersOf process).foldl (wakeWaiter process) (unlink sched process) := by
  unfold procDestroy at destroyed
  rw [if_neg notKernel] at destroyed
  rcases Option.bind_eq_some_iff.mp destroyed with ⟨proc, found, rest⟩
  rcases Option.bind_eq_some_iff.mp rest with ⟨waiters, isList, finish⟩
  have waiting : sched.waitersOf process = waiters := by
    simp [Sched.waitersOf, found, Proc.waiting, isList]
  refine ⟨by simp [Sched.state?, found], ?_⟩
  cases finish
  simp only [processTree_foldl_wakeWaiter]
  rw [setTree_foldl_wakeWaiter, freeProc_foldl_wakeWaiter, waiting]
  rfl

@[simp] theorem state?_unlink (sched : Sched) (process pid : Pid) :
    (unlink sched process).state? pid = if pid = process then none else sched.state? pid :=
  Sched.state?_freeProc _ process pid

theorem woken_procDestroy {sched next : Sched} {process : Pid} (wf : Wf sched)
    (idle : Idle sched process) (dead : sched.state? process = some .dead)
    (notKernel : process ≠ kernelPid) (destroyed : procDestroy sched process = some next) :
    Woken process (sched.waitersOf process) (unlink sched process) next := by
  rw [(procDestroy_eq notKernel destroyed).2]
  apply woken_foldl process (wf.waitersNodup process)
  intro pid member
  have asleep := wf.waiterState process pid member
  have different : pid ≠ process := by
    rintro rfl
    simp [dead] at asleep
  refine ⟨⟨fun ready => ?_, fun corpse => ?_, fun nap napMember equal => ?_,
    fun target again => ?_⟩, by simp [different, asleep]⟩
  · simp [wf.readyState pid ready] at asleep
  · simp [wf.deadState pid corpse] at asleep
  · exact wf.napsOrWaits nap napMember process (equal ▸ member)
  · rw [unlink, Sched.waitersOf_freeProc] at again
    split at again
    · cases again
    · case isFalse other => exact other (wf.waitsOnce target process pid again member)

theorem moves_unlink {sched : Sched} {process : Pid} (idle : Idle sched process) :
    Moves sched (unlink sched process) :=
  (moves_setTree sched _).tail
    (.free ⟨idle.notReady, idle.notDead, idle.notNapping, idle.notWaiting⟩)

theorem idle_unlink {sched : Sched} {pid : Pid} (idle : Idle sched pid) (process : Pid) :
    Idle (unlink sched process) pid := by
  have relinked : Idle { sched with processTree := sched.processTree.dissolve process } pid :=
    ⟨idle.notReady, idle.notDead, idle.notNapping, idle.notWaiting⟩
  exact relinked.freeProc process

/-! ## Preemption -/

/-- The preempted process offers to run again, unless it has died. -/
def offer (sched : Sched) : Sched :=
  if sched.state? sched.current = some .living then schedMakeReady sched sched.current
  else sched

/-- A process that died while it was running goes to `dead_queue`. -/
def bury (sched : Sched) (process : Pid) : Sched :=
  if sched.state? process = some .dead then schedMakeDead sched process else sched

theorem schedPreemptHandler_stages {sched after : Sched}
    (preempted : schedPreemptHandler sched = some after) :
    ∃ next rest reaped,
      (offer sched).readyQueue = next :: rest ∧
      reap { offer sched with
          readyQueue := rest
          deadQueue := (offer sched).deadQueue.tail }
        sched.current (offer sched).deadQueue.head? = some reaped ∧
      (bury reaped sched.current).state? next ≠ none ∧
      after = { (bury reaped sched.current).setState next .living with current := next } := by
  unfold schedPreemptHandler schedGetNext at preempted
  rcases Option.bind_eq_some_iff.mp preempted with ⟨⟨next, buried⟩, chosen, switch⟩
  rcases Option.bind_eq_some_iff.mp chosen with ⟨proc, found, stages⟩
  rcases Option.bind_eq_some_iff.mp stages with ⟨reaped, reaping, burying⟩
  rcases Option.bind_eq_some_iff.mp burying with ⟨current, currentFound, choosing⟩
  rcases Option.bind_eq_some_iff.mp choosing with ⟨ready, isReady, result⟩
  rcases Option.bind_eq_some_iff.mp switch with ⟨nextProc, nextFound, finish⟩
  have offers : (if proc.state = .living then schedMakeReady sched sched.current else sched) =
      offer sched := by
    simp [offer, Sched.state?, found]
  have buries : (if current.state = .dead then schedMakeDead reaped sched.current
      else reaped) = bury reaped sched.current := by
    simp [bury, Sched.state?, currentFound]
  rw [offers] at isReady reaping
  rw [buries] at result
  cases result
  cases queue : (offer sched).readyQueue with
  | nil => simp [queue, dequeue] at isReady
  | cons head rest =>
      simp only [queue, dequeue, Option.some.injEq] at isReady
      subst isReady
      refine ⟨head, rest, reaped, rfl, ?_, ?_, ?_⟩
      · rw [← reaping, queue]
        cases corpses : (offer sched).deadQueue <;> rfl
      · simp [Sched.state?, nextFound]
      · cases finish
        rfl

/-- What reaping leaves of the processes that are neither the corpse nor asleep. -/
structure Reaped (corpse : Option Pid) (before after : Sched) : Prop where
  moves : Moves before after
  states : ∀ pid, corpse ≠ some pid → before.state? pid ≠ some .napping →
    after.state? pid = before.state? pid
  idle : ∀ pid, before.state? pid ≠ some .napping → Idle before pid → Idle after pid
  deadQueue : after.deadQueue = before.deadQueue
  readyQueue : ∀ pid ∈ before.readyQueue, pid ∈ after.readyQueue

theorem Reaped.refl (corpse : Option Pid) (sched : Sched) : Reaped corpse sched sched :=
  ⟨.refl, fun _ _ _ => rfl, fun _ _ => id, rfl, fun _ => id⟩

theorem Reaped.of_destroyed {sched next : Sched} {process : Pid} (wf : Wf sched)
    (idle : Idle sched process) (dead : sched.state? process = some .dead)
    (notKernel : process ≠ kernelPid) (destroyed : procDestroy sched process = some next) :
    Reaped (some process) sched next := by
  have woken := woken_procDestroy wf idle dead notKernel destroyed
  have notWaiter : ∀ {pid}, sched.state? pid ≠ some .napping →
      pid ∉ sched.waitersOf process :=
    fun awake member => awake (wf.waiterState process _ member)
  refine ⟨(moves_unlink idle).trans woken.moves, ?_, ?_, woken.deadQueue, woken.readyQueue⟩
  · intro pid notCorpse awake
    have different : pid ≠ process := fun equal => notCorpse (equal ▸ rfl)
    rw [woken.stateOther pid (notWaiter awake), state?_unlink, if_neg different]
  · intro pid awake pidIdle
    exact woken.idle pid (notWaiter awake) (idle_unlink pidIdle process)

theorem reaped_reap {sched next : Sched} {preempted : Pid} {corpse : Option Pid}
    (wf : Wf sched)
    (dead : ∀ pid, corpse = some pid → Idle sched pid ∧ sched.state? pid = some .dead)
    (reaping : reap sched preempted corpse = some next) : Reaped corpse sched next := by
  cases corpse with
  | none =>
      cases reaping
      exact .refl none sched
  | some process =>
      rcases dead process rfl with ⟨idle, isDead⟩
      simp only [reap] at reaping
      split at reaping
      case isFalse =>
        cases reaping
        exact .refl _ sched
      case isTrue =>
        by_cases kernel : process = kernelPid
        · simp only [procDestroy, kernel, if_true, Option.some.injEq] at reaping
          exact reaping ▸ .refl _ sched
        · exact .of_destroyed wf idle isDead kernel reaping

theorem moves_offer {sched : Sched} (idle : Idle sched sched.current) :
    Moves sched (offer sched) := by
  unfold offer
  split
  case isTrue living =>
    exact moves_schedMakeReady idle (by simp [living]) (by simp [living])
  case isFalse => exact .refl

@[simp] theorem deadQueue_offer (sched : Sched) : (offer sched).deadQueue = sched.deadQueue := by
  unfold offer
  split <;> rfl

@[simp] theorem nappingList_offer (sched : Sched) :
    (offer sched).nappingList = sched.nappingList := by
  unfold offer
  split <;> rfl

@[simp] theorem readyQueue_bury (sched : Sched) (process : Pid) :
    (bury sched process).readyQueue = sched.readyQueue := by
  unfold bury
  split <;> rfl

@[simp] theorem nappingList_bury (sched : Sched) (process : Pid) :
    (bury sched process).nappingList = sched.nappingList := by
  unfold bury
  split <;> rfl

theorem idle_of_dequeued {sched : Sched} (wf : Wf sched) {next : Pid} {rest : List Pid}
    (queue : sched.readyQueue = next :: rest) :
    Idle { sched with readyQueue := rest, deadQueue := sched.deadQueue.tail } next := by
  have ready := wf.readyState next (by simp [queue])
  have nodup := wf.readyNodup
  rw [queue] at nodup
  refine ⟨(List.nodup_cons.mp nodup).1, fun corpse => ?_, fun nap member equal => ?_,
    fun target member => ?_⟩
  · simp [wf.deadState next (List.mem_of_mem_tail corpse)] at ready
  · simp [← equal, wf.napState nap member] at ready
  · simp [wf.waiterState target next member] at ready

theorem idle_of_unburied {sched : Sched} (wf : Wf sched) {corpse : Pid} {rest queue : List Pid}
    (dead : sched.deadQueue = corpse :: rest) (fewer : queue.Sublist sched.readyQueue) :
    Idle { sched with readyQueue := queue, deadQueue := sched.deadQueue.tail } corpse := by
  have isDead := wf.deadState corpse (by simp [dead])
  have nodup := wf.deadNodup
  rw [dead] at nodup
  refine ⟨fun ready => ?_, by simpa [dead] using (List.nodup_cons.mp nodup).1,
    fun nap member equal => ?_, fun target member => ?_⟩
  · simp [wf.readyState corpse (fewer.subset ready)] at isDead
  · simp [← equal, wf.napState nap member] at isDead
  · simp [wf.waiterState target corpse member] at isDead

/-- The queues after the next process and one corpse have been taken out. -/
def choose (sched : Sched) (rest : List Pid) : Sched :=
  { offer sched with readyQueue := rest, deadQueue := (offer sched).deadQueue.tail }

/-- A preemption from a consistent state, stage by stage. -/
structure Preempted (before after : Sched) (next : Pid) (rest : List Pid)
    (reaped : Sched) : Prop where
  queue : (offer before).readyQueue = next :: rest
  reaping : reap (choose before rest) before.current before.deadQueue.head? = some reaped
  reaps : Reaped before.deadQueue.head? (choose before rest) reaped
  chosen : Wf (choose before rest)
  corpse : ∀ pid, before.deadQueue.head? = some pid →
    Idle (choose before rest) pid ∧ (choose before rest).state? pid = some .dead
  nextIdle : Idle reaped next
  nextReady : reaped.state? next = some .ready
  currentKept : reaped.state? before.current = (offer before).state? before.current
  currentIdle : before.state? before.current = some .dead → Idle reaped before.current
  switched : after =
    { (bury reaped before.current).setState next .living with current := next }

/-- Choosing and reaping decide everything but the switch itself. -/
theorem Preempted.of_reap {before after reaped : Sched} {next : Pid} {rest : List Pid}
    (wf : Wf before) (idle : Idle before before.current)
    (running : before.state? before.current = some .living ∨
      before.state? before.current = some .dead)
    (queue : (offer before).readyQueue = next :: rest)
    (reaping : reap (choose before rest) before.current before.deadQueue.head? = some reaped)
    (switched : after =
      { (bury reaped before.current).setState next .living with current := next }) :
    Preempted before after next rest reaped := by
  have offered : Wf (offer before) := wf.moves (moves_offer idle)
  have fewer : rest.Sublist (offer before).readyQueue := queue ▸ List.sublist_cons_self next rest
  have chosen : Wf (choose before rest) :=
    offered.moves <| .single <| .shrink (fun _ => rfl) (fun _ => rfl) fewer
      (List.tail_sublist _) (.refl _) rfl rfl
  have corpse : ∀ pid, before.deadQueue.head? = some pid →
      Idle (choose before rest) pid ∧ (choose before rest).state? pid = some .dead := by
    intro pid isHead
    rcases List.head?_eq_some_iff.mp isHead with ⟨corpses, isCons⟩
    have dead : (offer before).deadQueue = pid :: corpses := by simpa using isCons
    exact ⟨idle_of_unburied offered dead fewer, offered.deadState pid (dead ▸ List.mem_cons_self)⟩
  have reaps : Reaped before.deadQueue.head? (choose before rest) reaped :=
    reaped_reap chosen corpse reaping
  have nextReady : (choose before rest).state? next = some .ready :=
    offered.readyState next (by simp [queue])
  have currentState : (choose before rest).state? before.current = some .ready ∨
      (choose before rest).state? before.current = some .dead ∧
        before.state? before.current = some .dead := by
    change (offer before).state? before.current = some .ready ∨
      (offer before).state? before.current = some .dead ∧ _
    unfold offer
    rcases running with living | dead
    · simp [living]
    · simp [dead]
  have notCorpse : before.deadQueue.head? ≠ some before.current := fun isHead =>
    idle.notDead (List.mem_of_head? isHead)
  refine ⟨queue, reaping, reaps, chosen, corpse, ?_, ?_, ?_, ?_, switched⟩
  · exact reaps.idle next (by simp [nextReady]) (idle_of_dequeued offered queue)
  · rw [reaps.states next ?_ (by simp [nextReady]), nextReady]
    intro isHead
    simp [(corpse next isHead).2] at nextReady
  · apply reaps.states _ notCorpse
    rcases currentState with ready | ⟨dead, -⟩ <;> simp [*]
  · intro dead
    apply reaps.idle
    · rcases currentState with ready | ⟨stillDead, -⟩ <;> simp [*]
    · have notOffered : offer before = before := by simp [offer, dead]
      have same : choose before rest =
          { before with readyQueue := rest, deadQueue := before.deadQueue.tail } := by
        simp [choose, notOffered]
      rw [notOffered] at fewer
      rw [same]
      exact ⟨fun member => idle.notReady (fewer.subset member),
        fun member => idle.notDead (List.mem_of_mem_tail member), idle.notNapping,
        idle.notWaiting⟩

theorem preempted_of_schedPreemptHandler {before after : Sched} (wf : Wf before)
    (idle : Idle before before.current)
    (running : before.state? before.current = some .living ∨
      before.state? before.current = some .dead)
    (handled : schedPreemptHandler before = some after) :
    ∃ next rest reaped, Preempted before after next rest reaped := by
  rcases schedPreemptHandler_stages handled with
    ⟨next, rest, reaped, queue, reaping, -, switched⟩
  rw [deadQueue_offer] at reaping
  exact ⟨next, rest, reaped, .of_reap wf idle running queue
    (by simpa [choose] using reaping) switched⟩

namespace Preempted

variable {before after reaped : Sched} {next : Pid} {rest : List Pid}
  (preempted : Preempted before after next rest reaped)
include preempted

theorem bury_next_ne (dead : reaped.state? before.current = some .dead) :
    next ≠ before.current := by
  rintro rfl
  simp [preempted.nextReady] at dead

theorem nextIdle_bury : Idle (bury reaped before.current) next := by
  unfold bury
  split
  case isTrue dead => exact preempted.nextIdle.makeDead (preempted.bury_next_ne dead)
  case isFalse => exact preempted.nextIdle

theorem nextReady_bury : (bury reaped before.current).state? next = some .ready := by
  unfold bury
  split
  case isTrue dead => simp [preempted.bury_next_ne dead, preempted.nextReady]
  case isFalse => exact preempted.nextReady

theorem moves (idle : Idle before before.current) : Moves before after := by
  have fewer : rest.Sublist (offer before).readyQueue :=
    preempted.queue ▸ List.sublist_cons_self next rest
  have choosing : Moves (offer before) (choose before rest) :=
    .single <| .shrink (fun _ => rfl) (fun _ => rfl) fewer
      (List.tail_sublist _) (.refl _) rfl rfl
  have burying : Moves reaped (bury reaped before.current) := by
    unfold bury
    split
    case isTrue dead =>
      have wasDead : before.state? before.current = some .dead := by
        rw [preempted.currentKept] at dead
        unfold offer at dead
        split at dead
        case isTrue living => simp [living] at dead
        case isFalse => exact dead
      exact moves_schedMakeDead (preempted.currentIdle wasDead) (by simp [dead])
    case isFalse => exact .refl
  have switching : Moves (bury reaped before.current) after := by
    rw [preempted.switched]
    exact (Relation.ReflTransGen.single
      (.setState preempted.nextIdle_bury (by simp [preempted.nextReady_bury]))).trans
      (moves_setCurrent _ next)
  exact (moves_offer idle).trans
    (choosing.trans (preempted.reaps.moves.trans (burying.trans switching)))

theorem current_eq : after.current = next := by
  rw [preempted.switched]

theorem living : after.state? after.current = some .living := by
  rw [preempted.current_eq, preempted.switched]
  change ((bury reaped before.current).setState next .living).state? next = _
  simp [preempted.nextReady_bury]

theorem leaves (living : before.state? before.current = some .living)
    (notReady : before.current ∉ before.readyQueue) (others : before.readyQueue ≠ []) :
    next ≠ before.current ∧ after.state? before.current = some .ready := by
  have differs : next ≠ before.current := by
    rcases List.exists_cons_of_ne_nil others with ⟨head, tail, isCons⟩
    have queue := preempted.queue
    simp only [offer, living, if_true, schedMakeReady, enqueue, Sched.setState,
      Sched.modifyProc, isCons] at queue
    have isHead : head = next := by
      split at queue
      · exact (List.cons.inj queue).1
      · exact (List.cons.inj queue).1
    rintro rfl
    exact notReady (by simp [isCons, isHead])
  refine ⟨differs, ?_⟩
  have kept : reaped.state? before.current = some .ready := by
    rw [preempted.currentKept]
    simp [offer, living]
  rw [preempted.switched]
  change ((bury reaped before.current).setState next .living).state? before.current = _
  simp [differs.symm, bury, kept]

theorem reaped_eq (notKernel : before.current ≠ kernelPid) : reaped = choose before rest := by
  have reaping := preempted.reaping
  unfold reap at reaping
  split at reaping
  · rw [if_neg notKernel] at reaping
    exact (Option.some.inj reaping).symm
  · exact (Option.some.inj reaping).symm

theorem switched_user (living : before.state? before.current = some .living)
    (notKernel : before.current ≠ kernelPid) :
    after = { (choose before rest).setState next .living with current := next } := by
  rw [preempted.switched, preempted.reaped_eq notKernel]
  have kept : (choose before rest).state? before.current = some .ready := by
    change (offer before).state? before.current = _
    simp [offer, living]
  simp [bury, kept]

theorem user_kept (living : before.state? before.current = some .living)
    (notKernel : before.current ≠ kernelPid) :
    after.processTree = before.processTree ∧
      (∀ pid, after.eax? pid = before.eax? pid) ∧
      (∀ pid, after.waitersOf pid = before.waitersOf pid) ∧
      ∀ pid, after.state? pid = some .dead ↔ before.state? pid = some .dead := by
  have nextReady : (schedMakeReady before before.current).state? next = some .ready := by
    have ready := preempted.nextReady
    rw [preempted.reaped_eq notKernel] at ready
    change (offer before).state? next = _ at ready
    rwa [offer, if_pos living] at ready
  have offered : offer before = schedMakeReady before before.current := if_pos living
  rw [preempted.switched_user living notKernel]
  refine ⟨?_, fun pid => ?_, fun pid => ?_, fun pid => ?_⟩
  · change (offer before).processTree = _
    rw [offered]
    rfl
  · change ((offer before).setState next .living).eax? pid = _
    rw [offered, Sched.eax?_setState, eax?_schedMakeReady]
  · change ((offer before).setState next .living).waitersOf pid = _
    rw [offered, Sched.waitersOf_setState]
    exact before.waitersOf_setState before.current pid .ready
  · change ((offer before).setState next .living).state? pid = _ ↔ _
    rw [offered, Sched.state?_setState]
    by_cases isNext : pid = next
    · subst isNext
      by_cases isCurrent : pid = before.current
      · simp [isCurrent, living]
      · rw [state?_schedMakeReady, if_neg isCurrent] at nextReady
        simp [isCurrent, nextReady]
    · rw [if_neg isNext]
      by_cases isCurrent : pid = before.current
      · simp [isCurrent, living]
      · simp [isCurrent]

end Preempted

/-! ## The other handlers -/

theorem findLive_congr {before after : Sched} (pid : Pid)
    (tree : after.processTree = before.processTree)
    (dead : ∀ pid, after.state? pid = some .dead ↔ before.state? pid = some .dead) :
    findLive after pid = findLive before pid := by
  unfold findLive procFind
  rw [tree]
  congr 1
  funext target
  simp [dead target]

theorem schedWaitFor_eq {sched : Sched} {pid target : Pid}
    (found : findLive sched pid = some target) (process : Pid) :
    schedWaitFor sched process pid =
      ((schedPurgeProcess sched process).setState process .napping).appendWaiter target
        process := by
  unfold schedWaitFor
  rw [found]
  rfl

/-- What the timekeeper does to the rest of the system: the processes of the
entries that are over become ready, all others stay as they are. -/
theorem moves_timekeeperLoop {naps : List Nap} {sched : Sched} (wf : Wf sched)
    (nodup : (naps.map Nap.process).Nodup)
    (napping : ∀ nap ∈ naps, Idle sched nap.process ∧
      sched.state? nap.process = some .napping) :
    Moves sched (timekeeperLoop naps sched).2 ∧
      (∀ nap ∈ (timekeeperLoop naps sched).1,
        nap.process ∈ naps.map Nap.process ∧
        Idle (timekeeperLoop naps sched).2 nap.process ∧
        (timekeeperLoop naps sched).2.state? nap.process = some .napping) ∧
      ((timekeeperLoop naps sched).1.map Nap.process).Nodup ∧
      (∀ pid, pid ∉ naps.map Nap.process →
        (timekeeperLoop naps sched).2.state? pid = sched.state? pid ∧
        (Idle sched pid → Idle (timekeeperLoop naps sched).2 pid)) := by
  induction naps generalizing sched with
  | nil => exact ⟨.refl, by simp [timekeeperLoop], by simp [timekeeperLoop],
      fun pid _ => ⟨rfl, id⟩⟩
  | cons nap rest induction =>
      rw [List.map_cons, List.nodup_cons] at nodup
      rcases napping nap (by simp) with ⟨idle, asleep⟩
      have notLater : ∀ {later}, later ∈ rest → later.process ≠ nap.process :=
        fun member equal => nodup.1 (List.mem_map.mpr ⟨_, member, equal⟩)
      unfold timekeeperLoop
      split
      case isTrue =>
        have waking : Moves sched (schedMakeReady sched nap.process) :=
          moves_schedMakeReady idle (by simp [asleep]) (by simp [asleep])
        have still : ∀ later ∈ rest, Idle (schedMakeReady sched nap.process) later.process ∧
            (schedMakeReady sched nap.process).state? later.process = some .napping := by
          intro later member
          rcases napping later (by simp [member]) with ⟨laterIdle, laterAsleep⟩
          exact ⟨laterIdle.makeReady (notLater member),
            by simp [notLater member, laterAsleep]⟩
        rcases induction (wf.moves waking) nodup.2 still with
          ⟨moves, kept, keptNodup, others⟩
        refine ⟨waking.trans moves, ?_, keptNodup, ?_⟩
        · intro stays member
          rcases kept stays member with ⟨inRest, facts⟩
          exact ⟨List.mem_cons_of_mem _ inRest, facts⟩
        · intro pid notNap
          rw [List.map_cons, List.mem_cons, not_or] at notNap
          rcases others pid notNap.2 with ⟨state, idleKept⟩
          exact ⟨by simp [state, notNap.1], fun pidIdle => idleKept (pidIdle.makeReady notNap.1)⟩
      case isFalse =>
        rcases induction wf nodup.2 (fun later member => napping later (by simp [member])) with
          ⟨moves, kept, keptNodup, others⟩
        rcases others nap.process nodup.1 with ⟨state, idleKept⟩
        refine ⟨moves, ?_, ?_, ?_⟩
        · intro stays member
          rcases List.mem_cons.mp member with rfl | later
          · exact ⟨by simp, idleKept idle, state.trans asleep⟩
          · rcases kept stays later with ⟨inRest, facts⟩
            exact ⟨List.mem_cons_of_mem _ inRest, facts⟩
        · rw [List.map_cons, List.nodup_cons]
          refine ⟨fun member => ?_, keptNodup⟩
          rcases List.mem_map.mp member with ⟨stays, staysMember, equal⟩
          exact nodup.1 (equal ▸ (kept stays staysMember).1)
        · intro pid notNap
          rw [List.map_cons, List.mem_cons, not_or] at notNap
          exact others pid notNap.2

theorem timekeeperLoop_setNappingList (naps list : List Nap) (sched : Sched) :
    timekeeperLoop naps { sched with nappingList := list } =
      ((timekeeperLoop naps sched).1,
        { (timekeeperLoop naps sched).2 with nappingList := list }) := by
  induction naps generalizing sched with
  | nil => rfl
  | cons nap rest induction =>
      unfold timekeeperLoop
      split
      · exact induction (schedMakeReady sched nap.process)
      · rw [induction sched]

theorem nappingList_timekeeperLoop (naps : List Nap) (sched : Sched) :
    (timekeeperLoop naps sched).2.nappingList = sched.nappingList := by
  induction naps generalizing sched with
  | nil => rfl
  | cons nap rest induction =>
      unfold timekeeperLoop
      split
      · exact induction (schedMakeReady sched nap.process)
      · exact induction sched

theorem mem_timekeeperLoop {pid : Pid} (naps : List Nap) {sched : Sched}
    (ready : pid ∈ sched.readyQueue) : pid ∈ (timekeeperLoop naps sched).2.readyQueue := by
  induction naps generalizing sched with
  | nil => exact ready
  | cons nap rest induction =>
      unfold timekeeperLoop
      split
      · apply induction
        exact mem_enqueue_of_mem ready
      · exact induction ready

theorem current_timekeeperLoop (naps : List Nap) (sched : Sched) :
    (timekeeperLoop naps sched).2.current = sched.current := by
  induction naps generalizing sched with
  | nil => rfl
  | cons nap rest induction =>
      unfold timekeeperLoop
      split
      · exact induction (schedMakeReady sched nap.process)
      · exact induction sched

theorem current_schedWakeup (sched : Sched) (pid : Pid) :
    (schedWakeup sched pid).2.current = sched.current := by
  unfold schedWakeup
  split <;> rfl

theorem moves_enterNapping {naps : List Nap} {sched : Sched}
    (nodup : (naps.map Nap.process).Nodup)
    (napping : ∀ nap ∈ naps, Idle sched nap.process ∧
      sched.state? nap.process = some .napping) :
    Moves sched { sched with nappingList := sched.nappingList ++ naps } := by
  induction naps generalizing sched with
  | nil => simpa using Relation.ReflTransGen.refl
  | cons nap rest induction =>
      rw [List.map_cons, List.nodup_cons] at nodup
      rcases napping nap (by simp) with ⟨idle, asleep⟩
      let first : Sched := { sched with nappingList := sched.nappingList ++ [nap] }
      have still : ∀ later ∈ rest, Idle first later.process ∧
          first.state? later.process = some .napping := by
        intro later member
        rcases napping later (by simp [member]) with ⟨laterIdle, laterAsleep⟩
        refine ⟨⟨laterIdle.notReady, laterIdle.notDead, fun other otherMember equal => ?_,
          laterIdle.notWaiting⟩, laterAsleep⟩
        rcases List.mem_append.mp otherMember with old | new
        · exact laterIdle.notNapping other old equal
        · rw [List.mem_singleton.mp new] at equal
          exact nodup.1 (List.mem_map.mpr ⟨later, member, equal.symm⟩)
      have enters : Move sched first := .enterNapping idle asleep
      simpa [first] using (Relation.ReflTransGen.single enters).trans (induction nodup.2 still)

theorem moves_schedTimekeeper {sched : Sched} (wf : Wf sched) :
    Moves sched (schedTimekeeper sched) ∧
      ∀ pid, sched.state? pid ≠ some .napping →
        (schedTimekeeper sched).state? pid = sched.state? pid := by
  let cleared : Sched := { sched with nappingList := [] }
  have clearing : Moves sched cleared := moves_setNappingList sched (List.nil_sublist _)
  have napping : ∀ nap ∈ sched.nappingList, Idle cleared nap.process ∧
      cleared.state? nap.process = some .napping := by
    intro nap member
    have asleep := wf.napState nap member
    refine ⟨⟨fun ready => ?_, fun corpse => ?_, by simp [cleared],
      wf.napsOrWaits nap member⟩, asleep⟩
    · simp [wf.readyState _ ready] at asleep
    · simp [wf.deadState _ corpse] at asleep
  rcases moves_timekeeperLoop (wf.moves clearing) wf.napNodup napping with
    ⟨waking, kept, keptNodup, others⟩
  have result : schedTimekeeper sched =
      { (timekeeperLoop sched.nappingList cleared).2 with
        nappingList := (timekeeperLoop sched.nappingList cleared).1 } := by
    simp only [cleared, timekeeperLoop_setNappingList, schedTimekeeper]
  have entering : Moves (timekeeperLoop sched.nappingList cleared).2
      (schedTimekeeper sched) := by
    have moves := moves_enterNapping keptNodup fun nap member => (kept nap member).2
    rw [nappingList_timekeeperLoop] at moves
    rw [result]
    simpa [cleared] using moves
  refine ⟨clearing.trans (waking.trans entering), fun pid awake => ?_⟩
  rw [result]
  refine (others pid fun member => ?_).1
  rcases List.mem_map.mp member with ⟨nap, napMember, rfl⟩
  exact awake (wf.napState nap napMember)

theorem process_ne_of_mem_eraseP {naps : List Nap} {pid : Pid}
    (nodup : (naps.map Nap.process).Nodup) {nap : Nap}
    (member : nap ∈ naps.eraseP fun nap => nap.process = pid) : nap.process ≠ pid := by
  induction naps with
  | nil => cases member
  | cons head rest induction =>
      rw [List.map_cons, List.nodup_cons] at nodup
      by_cases found : head.process = pid
      · rw [List.eraseP_cons_of_pos (by simpa using found)] at member
        rintro rfl
        exact nodup.1 (List.mem_map.mpr ⟨nap, member, found.symm⟩)
      · rw [List.eraseP_cons_of_neg (by simpa using found)] at member
        rcases List.mem_cons.mp member with rfl | later
        · exact found
        · exact induction nodup.2 later

theorem moves_schedWakeup {sched : Sched} (wf : Wf sched) (pid : Pid) :
    Moves sched (schedWakeup sched pid).2 ∧
      ∀ other, sched.state? other ≠ some .napping →
        (schedWakeup sched pid).2.state? other = sched.state? other := by
  unfold schedWakeup
  split
  case h_2 => exact ⟨.refl, fun _ _ => rfl⟩
  case h_1 nap found =>
    have member := List.mem_of_find?_eq_some found
    have isPid : nap.process = pid := by simpa using List.find?_some found
    have asleep := wf.napState nap member
    let left : Sched := { sched with
      nappingList := sched.nappingList.eraseP fun nap => nap.process = pid }
    have leaving : Moves sched left := moves_setNappingList sched List.eraseP_sublist
    have idle : Idle left nap.process := by
      refine ⟨fun ready => ?_, fun corpse => ?_, fun other otherMember => ?_,
        wf.napsOrWaits nap member⟩
      · simp [wf.readyState _ ready] at asleep
      · simp [wf.deadState _ corpse] at asleep
      · exact isPid ▸ process_ne_of_mem_eraseP wf.napNodup otherMember
    have leftAsleep : left.state? nap.process = some .napping := asleep
    have waking : Moves left (schedMakeReady left nap.process) :=
      moves_schedMakeReady idle (by simp [leftAsleep]) (by simp [leftAsleep])
    change Moves sched (schedMakeReady (schedPurgeProcess left nap.process) nap.process) ∧ _
    rw [idle.purge_eq]
    refine ⟨leaving.trans waking, fun other awake => ?_⟩
    have different : other ≠ nap.process := fun equal => awake (equal ▸ asleep)
    change (schedMakeReady (schedPurgeProcess left nap.process) nap.process).state? other = _
    rw [idle.purge_eq, state?_schedMakeReady, if_neg different]
    rfl

end Dbos.Process
