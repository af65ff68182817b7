import Dbos.Kernel.Process.Syscall

/-! # Containers of the scheduler

Every container of the scheduler goes with one process state. `Wf` says that
the states agree with the containers and that no process is parked twice; it
does not mention the current process, so that it also holds in the middle of
an interrupt handler. -/

namespace Dbos.Process

open Dbos.Queue

/-- The containers are consistent with the states of the processes in them. -/
structure Wf (sched : Sched) : Prop where
  readyState : ∀ pid ∈ sched.readyQueue, sched.state? pid = some .ready
  deadState : ∀ pid ∈ sched.deadQueue, sched.state? pid = some .dead
  napState : ∀ nap ∈ sched.nappingList, sched.state? nap.process = some .napping
  waiterState : ∀ target, ∀ pid ∈ sched.waitersOf target, sched.state? pid = some .napping
  readyNodup : sched.readyQueue.Nodup
  deadNodup : sched.deadQueue.Nodup
  napNodup : (sched.nappingList.map Nap.process).Nodup
  waitersNodup : ∀ target, (sched.waitersOf target).Nodup
  waitsOnce : ∀ first second pid, pid ∈ sched.waitersOf first →
    pid ∈ sched.waitersOf second → first = second
  napsOrWaits : ∀ nap ∈ sched.nappingList, ∀ target, nap.process ∉ sched.waitersOf target
  pidsNodup : (sched.procs.map Proc.pid).Nodup
  pidsBounded : ∀ pid, sched.state? pid ≠ none → pid ≤ sched.procPid

/-- The process is in no container. -/
structure Idle (sched : Sched) (pid : Pid) : Prop where
  notReady : pid ∉ sched.readyQueue
  notDead : pid ∉ sched.deadQueue
  notNapping : ∀ nap ∈ sched.nappingList, nap.process ≠ pid
  notWaiting : ∀ target, pid ∉ sched.waitersOf target

namespace Wf

variable {sched : Sched} (wf : Wf sched)
include wf

theorem idle_of_living {pid : Pid} (living : sched.state? pid = some .living) :
    Idle sched pid where
  notReady member := by simp [wf.readyState pid member] at living
  notDead member := by simp [wf.deadState pid member] at living
  notNapping nap member equal := by
    simp [← equal, wf.napState nap member] at living
  notWaiting target member := by simp [wf.waiterState target pid member] at living

theorem setState {pid : Pid} (idle : Idle sched pid) (state : ProcState) :
    Wf (sched.setState pid state) where
  readyState other member := by
    have different : other ≠ pid := fun equal => idle.notReady (equal ▸ member)
    simpa [different] using wf.readyState other member
  deadState other member := by
    have different : other ≠ pid := fun equal => idle.notDead (equal ▸ member)
    simpa [different] using wf.deadState other member
  napState nap member := by
    simpa [idle.notNapping nap member] using wf.napState nap member
  waiterState target other member := by
    rw [Sched.waitersOf_setState] at member
    have different : other ≠ pid := fun equal => idle.notWaiting target (equal ▸ member)
    simpa [different] using wf.waiterState target other member
  readyNodup := wf.readyNodup
  deadNodup := wf.deadNodup
  napNodup := wf.napNodup
  waitersNodup target := by simpa using wf.waitersNodup target
  waitsOnce first second other := by simpa using wf.waitsOnce first second other
  napsOrWaits nap member target := by simpa using wf.napsOrWaits nap member target
  pidsNodup := by
    rw [Sched.pids_setState]
    exact wf.pidsNodup
  pidsBounded other present := by
    apply wf.pidsBounded other
    intro absent
    simp [absent] at present

theorem shrink {next : Sched} (states : ∀ pid, next.state? pid = sched.state? pid)
    (waiters : ∀ target, next.waitersOf target = sched.waitersOf target)
    (ready : next.readyQueue.Sublist sched.readyQueue)
    (dead : next.deadQueue.Sublist sched.deadQueue)
    (naps : next.nappingList.Sublist sched.nappingList)
    (pids : next.procs.map Proc.pid = sched.procs.map Proc.pid)
    (bound : next.procPid = sched.procPid) : Wf next where
  readyState pid member := states pid ▸ wf.readyState pid (ready.subset member)
  deadState pid member := states pid ▸ wf.deadState pid (dead.subset member)
  napState nap member := states nap.process ▸ wf.napState nap (naps.subset member)
  waiterState target pid member :=
    states pid ▸ wf.waiterState target pid (waiters target ▸ member)
  readyNodup := wf.readyNodup.sublist ready
  deadNodup := wf.deadNodup.sublist dead
  napNodup := wf.napNodup.sublist (naps.map Nap.process)
  waitersNodup target := waiters target ▸ wf.waitersNodup target
  waitsOnce first second pid inFirst inSecond :=
    wf.waitsOnce first second pid (waiters first ▸ inFirst) (waiters second ▸ inSecond)
  napsOrWaits nap member target :=
    waiters target ▸ wf.napsOrWaits nap (naps.subset member) target
  pidsNodup := pids ▸ wf.pidsNodup
  pidsBounded pid present := bound ▸ wf.pidsBounded pid (states pid ▸ present)

theorem setEax (pid : Pid) (value : Int) : Wf (sched.setEax pid value) :=
  wf.shrink (by simp) (by simp) (.refl _) (.refl _) (.refl _) (sched.pids_setEax _ _) rfl

/-! ### Entering a container -/

theorem enterReady {pid : Pid} (idle : Idle sched pid)
    (ready : sched.state? pid = some .ready) :
    Wf { sched with readyQueue := enqueue schedMaxReady sched.readyQueue pid } where
  readyState other member := by
    rcases mem_enqueue member with old | new
    · exact wf.readyState other old
    · exact new ▸ ready
  deadState := wf.deadState
  napState := wf.napState
  waiterState := wf.waiterState
  readyNodup := nodup_enqueue wf.readyNodup idle.notReady
  deadNodup := wf.deadNodup
  napNodup := wf.napNodup
  waitersNodup := wf.waitersNodup
  waitsOnce := wf.waitsOnce
  napsOrWaits := wf.napsOrWaits
  pidsNodup := wf.pidsNodup
  pidsBounded := wf.pidsBounded

theorem enterDead {pid : Pid} (idle : Idle sched pid)
    (dead : sched.state? pid = some .dead) :
    Wf { sched with deadQueue := enqueue schedMaxDead sched.deadQueue pid } where
  readyState := wf.readyState
  deadState other member := by
    rcases mem_enqueue member with old | new
    · exact wf.deadState other old
    · exact new ▸ dead
  napState := wf.napState
  waiterState := wf.waiterState
  readyNodup := wf.readyNodup
  deadNodup := nodup_enqueue wf.deadNodup idle.notDead
  napNodup := wf.napNodup
  waitersNodup := wf.waitersNodup
  waitsOnce := wf.waitsOnce
  napsOrWaits := wf.napsOrWaits
  pidsNodup := wf.pidsNodup
  pidsBounded := wf.pidsBounded

theorem enterNapping {pid : Pid} (idle : Idle sched pid)
    (napping : sched.state? pid = some .napping) (counter : Int) :
    Wf { sched with nappingList := sched.nappingList ++ [⟨pid, counter⟩] } where
  readyState := wf.readyState
  deadState := wf.deadState
  napState nap member := by
    rcases List.mem_append.mp member with old | new
    · exact wf.napState nap old
    · rw [List.mem_singleton.mp new]
      exact napping
  waiterState := wf.waiterState
  readyNodup := wf.readyNodup
  deadNodup := wf.deadNodup
  napNodup := by
    rw [List.map_append, List.nodup_append]
    refine ⟨wf.napNodup, List.nodup_singleton _, ?_⟩
    intro other member last isLast equal
    rcases List.mem_map.mp member with ⟨nap, napMember, rfl⟩
    exact idle.notNapping nap napMember (equal.trans (List.mem_singleton.mp isLast))
  waitersNodup := wf.waitersNodup
  waitsOnce := wf.waitsOnce
  napsOrWaits nap member := by
    rcases List.mem_append.mp member with old | new
    · exact wf.napsOrWaits nap old
    · rw [List.mem_singleton.mp new]
      exact idle.notWaiting
  pidsNodup := wf.pidsNodup
  pidsBounded := wf.pidsBounded

theorem enterWaiters {pid target : Pid} (idle : Idle sched pid)
    (napping : sched.state? pid = some .napping) : Wf (sched.appendWaiter target pid) := by
  have newMember : ∀ {other process}, process ∈ (sched.appendWaiter target pid).waitersOf other →
      process ∈ sched.waitersOf other ∨ process = pid ∧ other = target := by
    intro other process member
    by_cases present : sched.hasWaiters target
    · by_cases same : other = target
      · subst same
        rw [sched.waitersOf_appendWaiter_self pid present, List.mem_append,
          List.mem_singleton] at member
        exact member.imp_right fun equal => ⟨equal, rfl⟩
      · rw [sched.waitersOf_appendWaiter_other pid same] at member
        exact .inl member
    · rw [sched.waitersOf_appendWaiter_null pid other present] at member
      exact .inl member
  refine {
    readyState := fun other member => by simpa using wf.readyState other member
    deadState := fun other member => by simpa using wf.deadState other member
    napState := fun nap member => by simpa using wf.napState nap member
    waiterState := ?_
    readyNodup := wf.readyNodup
    deadNodup := wf.deadNodup
    napNodup := wf.napNodup
    waitersNodup := ?_
    waitsOnce := ?_
    napsOrWaits := ?_
    pidsNodup := sched.pids_appendWaiter target pid ▸ wf.pidsNodup
    pidsBounded := fun other present => wf.pidsBounded other (by simpa using present) }
  · intro other process member
    rw [Sched.state?_appendWaiter]
    rcases newMember member with old | ⟨rfl, -⟩
    · exact wf.waiterState other process old
    · exact napping
  · intro other
    by_cases present : sched.hasWaiters target
    · by_cases same : other = target
      · subst same
        rw [sched.waitersOf_appendWaiter_self pid present, List.nodup_append]
        refine ⟨wf.waitersNodup other, List.nodup_singleton _, ?_⟩
        intro process member last isLast equal
        rw [List.mem_singleton.mp isLast] at equal
        exact idle.notWaiting other (equal ▸ member)
      · rw [sched.waitersOf_appendWaiter_other pid same]
        exact wf.waitersNodup other
    · rw [sched.waitersOf_appendWaiter_null pid other present]
      exact wf.waitersNodup other
  · intro first second process inFirst inSecond
    rcases newMember inFirst with oldFirst | ⟨rfl, firstTarget⟩
    · rcases newMember inSecond with oldSecond | ⟨rfl, -⟩
      · exact wf.waitsOnce first second process oldFirst oldSecond
      · exact absurd oldFirst (idle.notWaiting first)
    · rcases newMember inSecond with oldSecond | ⟨-, secondTarget⟩
      · exact absurd oldSecond (idle.notWaiting second)
      · exact firstTarget.trans secondTarget.symm
  · intro nap member other inWaiters
    rcases newMember inWaiters with old | ⟨equal, -⟩
    · exact wf.napsOrWaits nap member other old
    · exact idle.notNapping nap member equal

/-! ### Creating and freeing processes -/

theorem freeProc {pid : Pid} (idle : Idle sched pid) : Wf (sched.freeProc pid) := by
  have oldMember : ∀ {target process}, process ∈ (sched.freeProc pid).waitersOf target →
      process ∈ sched.waitersOf target := by
    intro target process member
    rw [Sched.waitersOf_freeProc] at member
    split at member
    · cases member
    · exact member
  refine {
    readyState := fun other member => ?_
    deadState := fun other member => ?_
    napState := fun nap member => ?_
    waiterState := fun target other member => ?_
    readyNodup := wf.readyNodup
    deadNodup := wf.deadNodup
    napNodup := wf.napNodup
    waitersNodup := fun target => ?_
    waitsOnce := fun first second other inFirst inSecond =>
      wf.waitsOnce first second other (oldMember inFirst) (oldMember inSecond)
    napsOrWaits := fun nap member target inWaiters =>
      wf.napsOrWaits nap member target (oldMember inWaiters)
    pidsNodup := wf.pidsNodup.sublist (List.filter_sublist.map Proc.pid)
    pidsBounded := fun other present => ?_ }
  · have different : other ≠ pid := fun equal => idle.notReady (equal ▸ member)
    simpa [different] using wf.readyState other member
  · have different : other ≠ pid := fun equal => idle.notDead (equal ▸ member)
    simpa [different] using wf.deadState other member
  · simpa [idle.notNapping nap member] using wf.napState nap member
  · have different : other ≠ pid := fun equal =>
      idle.notWaiting target (equal ▸ oldMember member)
    simpa [different] using wf.waiterState target other (oldMember member)
  · rw [Sched.waitersOf_freeProc]
    split
    · exact List.nodup_nil
    · exact wf.waitersNodup target
  · apply wf.pidsBounded other
    intro absent
    simp [absent] at present

theorem proc?_of_mem {proc : Proc} (member : proc ∈ sched.procs) :
    sched.proc? proc.pid = some proc := by
  have present : sched.proc? proc.pid ≠ none := by
    simpa [Sched.proc?] using ⟨proc, member, rfl⟩
  rcases Option.ne_none_iff_exists'.mp present with ⟨found, finds⟩
  rcases sched.proc?_eq_some finds with ⟨foundMember, samePid⟩
  rw [finds, List.inj_on_of_nodup_map wf.pidsNodup foundMember member samePid]

theorem waitersOf_of_mem {proc : Proc} (member : proc ∈ sched.procs) :
    sched.waitersOf proc.pid = proc.waiting := by
  simp [Sched.waitersOf, wf.proc?_of_mem member]

theorem state?_fresh : sched.state? (sched.procPid + 1) = none := by
  by_contra present
  exact absurd (wf.pidsBounded _ present) (Int.not_le.mpr (Int.lt_succ _))

end Wf

theorem proc?_procCreate (sched : Sched) (parent pid : Pid) :
    (procCreate sched parent).2.proc? pid =
      (sched.proc? pid).or
        (if pid = sched.procPid + 1 then some ⟨sched.procPid + 1, .ready, some [], 0⟩
         else none) := by
  simp only [procCreate, Sched.proc?, List.find?_append, List.find?_singleton]
  congr 1
  by_cases same : pid = sched.procPid + 1
  · simp [same]
  · have different : ¬sched.procPid + 1 = pid := fun equal => same equal.symm
    simp [same, different]

theorem state?_procCreate (sched : Sched) (parent pid : Pid) :
    (procCreate sched parent).2.state? pid =
      (sched.state? pid).or (if pid = sched.procPid + 1 then some .ready else none) := by
  unfold Sched.state?
  rw [proc?_procCreate]
  cases sched.proc? pid
  · by_cases same : pid = sched.procPid + 1 <;> simp [same]
  · rfl

theorem waitersOf_procCreate (sched : Sched) (parent pid : Pid) :
    (procCreate sched parent).2.waitersOf pid = sched.waitersOf pid := by
  unfold Sched.waitersOf
  rw [proc?_procCreate]
  cases sched.proc? pid
  · by_cases same : pid = sched.procPid + 1 <;> simp [same, Proc.waiting]
  · rfl

namespace Wf

variable {sched : Sched} (wf : Wf sched)
include wf

theorem procCreate (parent : Pid) : Wf (Process.procCreate sched parent).2 := by
  have keeps : ∀ {pid state}, sched.state? pid = some state →
      (Process.procCreate sched parent).2.state? pid = some state := by
    intro pid state known
    rw [state?_procCreate, known]
    rfl
  refine {
    readyState := fun pid member => keeps (wf.readyState pid member)
    deadState := fun pid member => keeps (wf.deadState pid member)
    napState := fun nap member => keeps (wf.napState nap member)
    waiterState := fun target pid member => ?_
    readyNodup := wf.readyNodup
    deadNodup := wf.deadNodup
    napNodup := wf.napNodup
    waitersNodup := fun target => ?_
    waitsOnce := fun first second pid inFirst inSecond => ?_
    napsOrWaits := fun nap member target => ?_
    pidsNodup := ?_
    pidsBounded := fun pid present => ?_ }
  · rw [waitersOf_procCreate] at member
    exact keeps (wf.waiterState target pid member)
  · rw [waitersOf_procCreate]
    exact wf.waitersNodup target
  · rw [waitersOf_procCreate] at inFirst inSecond
    exact wf.waitsOnce first second pid inFirst inSecond
  · rw [waitersOf_procCreate]
    exact wf.napsOrWaits nap member target
  · simp only [Process.procCreate, List.map_append, List.map_cons, List.map_nil]
    rw [List.nodup_append]
    refine ⟨wf.pidsNodup, List.nodup_singleton _, ?_⟩
    intro pid member last isLast equal
    rw [List.mem_singleton.mp isLast] at equal
    rcases List.mem_map.mp member with ⟨proc, procMember, rfl⟩
    have present : sched.state? proc.pid ≠ none := by
      unfold Sched.state? Sched.proc?
      simpa using ⟨proc, procMember, rfl⟩
    exact present (equal ▸ wf.state?_fresh)
  · rw [state?_procCreate] at present
    by_cases old : sched.state? pid = none
    · rw [old] at present
      split at present
      case isTrue new => exact Int.le_of_eq new
      case isFalse => simp at present
    · exact Int.le_trans (wf.pidsBounded pid old) (Int.le_of_lt (Int.lt_succ _))

theorem idle_fresh (parent : Pid) :
    Idle (Process.procCreate sched parent).2 (sched.procPid + 1) := by
  have fresh := wf.state?_fresh
  refine ⟨fun member => ?_, fun member => ?_, fun nap member equal => ?_,
    fun target member => ?_⟩
  · simp [wf.readyState _ member] at fresh
  · simp [wf.deadState _ member] at fresh
  · simp [← equal, wf.napState nap member] at fresh
  · rw [waitersOf_procCreate] at member
    simp [wf.waiterState target _ member] at fresh

end Wf

end Dbos.Process
