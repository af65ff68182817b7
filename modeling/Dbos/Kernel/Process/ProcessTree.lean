import Dbos.Kernel.Process.SchedulerHandlers

/-! # The process tree

Every node of the process tree holds a process that is still allocated, each
process has at most one node, and the kernel stays at the root. So following
a pointer that `proc_find` returns never reads a freed process. -/

namespace Dbos.Process

open Dbos.Queue

/-- The tree holds allocated processes only, each once, below the kernel; and
all processes but the kernel have a waiters list. -/
structure Linked (sched : Sched) : Prop where
  allocated : ∀ pid ∈ sched.processTree.values, pid ∈ sched.procs.map Proc.pid
  nodup : sched.processTree.values.Nodup
  root : sched.processTree.data = kernelPid
  listed : ∀ proc ∈ sched.procs, proc.pid ≠ kernelPid → proc.waiters.isSome

theorem state?_ne_none_iff {sched : Sched} {pid : Pid} :
    sched.state? pid ≠ none ↔ pid ∈ sched.procs.map Proc.pid := by
  simp [Sched.state?, Sched.proc?]

/-- What no handler changes in a process that exists. -/
def Proc.identity (proc : Proc) : Pid × Bool := (proc.pid, proc.waiters.isSome)

/-- Neither the tree nor the set of allocated processes differs. -/
structure SameTree (before after : Sched) : Prop where
  tree : after.processTree = before.processTree
  procs : after.procs.map Proc.identity = before.procs.map Proc.identity

theorem identity_setState (sched : Sched) (pid : Pid) (state : ProcState) :
    (sched.setState pid state).procs.map Proc.identity = sched.procs.map Proc.identity :=
  sched.map_procs_modifyProc Proc.identity pid _ fun _ => rfl

theorem identity_setEax (sched : Sched) (pid : Pid) (value : Int) :
    (sched.setEax pid value).procs.map Proc.identity = sched.procs.map Proc.identity :=
  sched.map_procs_modifyProc Proc.identity pid _ fun _ => rfl

theorem identity_appendWaiter (sched : Sched) (pid waiter : Pid) :
    (sched.appendWaiter pid waiter).procs.map Proc.identity = sched.procs.map Proc.identity :=
  sched.map_procs_modifyProc Proc.identity pid _ fun proc => by simp [Proc.identity]

namespace SameTree

theorem refl (sched : Sched) : SameTree sched sched := ⟨rfl, rfl⟩

theorem trans {before middle after : Sched} (first : SameTree before middle)
    (second : SameTree middle after) : SameTree before after :=
  ⟨second.tree.trans first.tree, second.procs.trans first.procs⟩

theorem pids {before after : Sched} (same : SameTree before after) :
    after.procs.map Proc.pid = before.procs.map Proc.pid := by
  have firsts := congrArg (List.map Prod.fst) same.procs
  rwa [List.map_map, List.map_map] at firsts

theorem present {before after : Sched} (same : SameTree before after) {pid : Pid}
    (exists_before : before.state? pid ≠ none) : after.state? pid ≠ none := by
  rw [state?_ne_none_iff, same.pids]
  exact state?_ne_none_iff.mp exists_before

variable (sched : Sched)

theorem setState (pid : Pid) (state : ProcState) : SameTree sched (sched.setState pid state) :=
  ⟨rfl, identity_setState sched pid state⟩

theorem setEax (pid : Pid) (value : Int) : SameTree sched (sched.setEax pid value) :=
  ⟨rfl, identity_setEax sched pid value⟩

theorem makeReady (pid : Pid) : SameTree sched (schedMakeReady sched pid) :=
  ⟨rfl, identity_setState sched pid .ready⟩

theorem makeDead (pid : Pid) : SameTree sched (schedMakeDead sched pid) :=
  ⟨rfl, identity_setState sched pid .dead⟩

theorem wakeWaiters (process : Pid) (waiters : List Pid) :
    SameTree sched (waiters.foldl (wakeWaiter process) sched) := by
  induction waiters generalizing sched with
  | nil => exact .refl sched
  | cons waiter rest induction =>
      have woken : SameTree sched (wakeWaiter process sched waiter) :=
        ⟨rfl, (identity_setState ..).trans (identity_setEax sched waiter process)⟩
      exact woken.trans (induction _)

theorem timekeeperLoop (naps : List Nap) :
    SameTree sched (Process.timekeeperLoop naps sched).2 := by
  induction naps generalizing sched with
  | nil => exact .refl sched
  | cons nap rest induction =>
      unfold Process.timekeeperLoop
      split
      · exact (makeReady sched nap.process).trans (induction _)
      · exact induction sched

theorem schedWakeup (pid : Pid) : SameTree sched (Process.schedWakeup sched pid).2 := by
  unfold Process.schedWakeup
  split
  · exact ⟨rfl, identity_setState ..⟩
  · exact .refl sched

theorem offer : SameTree sched (Process.offer sched) := by
  unfold Process.offer
  split
  · exact makeReady sched _
  · exact .refl sched

theorem bury (process : Pid) : SameTree sched (Process.bury sched process) := by
  unfold Process.bury
  split
  · exact makeDead sched process
  · exact .refl sched

theorem preempt_user {next : Sched} (notKernel : sched.current ≠ kernelPid)
    (handled : schedPreemptHandler sched = some next) : SameTree sched next := by
  rcases schedPreemptHandler_stages handled with
    ⟨chosen, rest, reaped, -, reaping, -, switched⟩
  have unreaped : reaped = { Process.offer sched with
      readyQueue := rest, deadQueue := (Process.offer sched).deadQueue.tail } := by
    unfold reap at reaping
    split at reaping
    · rw [if_neg notKernel] at reaping
      exact (Option.some.inj reaping).symm
    · exact (Option.some.inj reaping).symm
  have offered : SameTree sched reaped :=
    let same := SameTree.offer sched
    unreaped ▸ ⟨same.tree, same.procs⟩
  have buried := offered.trans (SameTree.bury reaped sched.current)
  have ran := buried.trans (SameTree.setState _ chosen .living)
  exact switched ▸ ⟨ran.tree, ran.procs⟩

theorem syscExit {next : Sched} (notKernel : sched.current ≠ kernelPid)
    (handled : Process.syscExit sched sched.current = some next) : SameTree sched next :=
  (setState sched sched.current .dead).trans
    (preempt_user (sched.setState sched.current .dead) notKernel handled)

theorem schedWaitFor (process pid : Pid) :
    SameTree sched (Process.schedWaitFor sched process pid) := by
  unfold Process.schedWaitFor
  split
  · exact .refl sched
  · exact ⟨rfl, (identity_appendWaiter ..).trans (identity_setState ..)⟩

theorem schedMakeNapping {next : Sched} {process : Pid} {time : Int}
    (naps : Process.schedMakeNapping sched process time = some next) :
    SameTree sched next := by
  rcases Option.map_eq_some_iff.mp naps with ⟨proc, -, parked⟩
  split at parked
  · exact parked ▸ ⟨rfl, identity_setState ..⟩
  · exact parked ▸ .refl sched

theorem syscKill (process pid : Pid) :
    SameTree sched (Process.syscKill sched process pid) := by
  unfold Process.syscKill
  split
  · exact ⟨rfl, (identity_setEax ..).trans (identity_setState ..)⟩
  · exact .setEax sched process (-1)

end SameTree

namespace Linked

variable {sched next : Sched} (linked : Linked sched)
include linked

theorem of_sameTree (same : SameTree sched next) : Linked next := by
  refine ⟨?_, ?_, ?_, ?_⟩
  · rw [same.tree, same.pids]
    exact linked.allocated
  · rw [same.tree]
    exact linked.nodup
  · rw [same.tree]
    exact linked.root
  · intro proc member notKernel
    have known : proc.identity ∈ sched.procs.map Proc.identity :=
      same.procs ▸ List.mem_map_of_mem member
    rcases List.mem_map.mp known with ⟨old, oldMember, equal⟩
    rcases Prod.mk.inj equal with ⟨samePid, sameList⟩
    rw [← sameList]
    exact linked.listed old oldMember (samePid ▸ notKernel)

theorem procCreate (wf : Wf sched) (parent : Pid) :
    Linked (Process.procCreate sched parent).2 := by
  refine ⟨?_, ?_, ?_, ?_⟩
  · intro pid member
    simp only [Process.procCreate, List.map_append, List.mem_append] at member ⊢
    rcases GenTree.mem_createUnder member with old | new
    · exact .inl (linked.allocated pid old)
    · exact .inr (by simp [new])
  · apply GenTree.nodup_createUnder linked.nodup
    intro member
    exact state?_ne_none_iff.mpr (linked.allocated _ member) wf.state?_fresh
  · exact (GenTree.createUnder_data ..).trans linked.root
  · intro proc member notKernel
    rcases List.mem_append.mp member with old | new
    · exact linked.listed proc old notKernel
    · rw [List.mem_singleton.mp new]
      rfl

theorem unlink {process : Pid} (notKernel : process ≠ kernelPid) :
    Linked (Process.unlink sched process) := by
  have notRoot : sched.processTree.data ≠ process := linked.root ▸ notKernel.symm
  refine ⟨?_, GenTree.nodup_dissolve linked.nodup notRoot,
    (GenTree.dissolve_data ..).trans linked.root,
    fun proc member => linked.listed proc (List.mem_filter.mp member).1⟩
  intro pid member
  rcases GenTree.mem_of_mem_dissolve linked.nodup notRoot member with ⟨old, different⟩
  rcases List.mem_map.mp (linked.allocated pid old) with ⟨proc, procMember, rfl⟩
  refine List.mem_map.mpr ⟨proc, ?_, rfl⟩
  simpa [Process.unlink, Sched.freeProc, different] using procMember

theorem reap {preempted : Pid} {corpse : Option Pid}
    (reaping : Process.reap sched preempted corpse = some next) : Linked next := by
  unfold Process.reap at reaping
  split at reaping
  case h_2 => exact Option.some.inj reaping ▸ linked
  case h_1 dead =>
    split at reaping
    case isFalse => exact Option.some.inj reaping ▸ linked
    case isTrue =>
      by_cases kernel : dead = kernelPid
      · rw [procDestroy, if_pos kernel] at reaping
        exact Option.some.inj reaping ▸ linked
      · rw [(procDestroy_eq kernel reaping).2]
        exact (linked.unlink kernel).of_sameTree (.wakeWaiters _ _ _)

theorem schedPreemptHandler (handled : Process.schedPreemptHandler sched = some next) :
    Linked next := by
  rcases schedPreemptHandler_stages handled with
    ⟨chosen, rest, reaped, -, reaping, -, switched⟩
  have offered : Linked { offer sched with
      readyQueue := rest, deadQueue := (offer sched).deadQueue.tail } :=
    let same := SameTree.offer sched
    linked.of_sameTree ⟨same.tree, same.procs⟩
  have buried := (offered.reap reaping).of_sameTree (.bury reaped sched.current)
  rw [switched]
  exact buried.of_sameTree ⟨rfl, identity_setState ..⟩

end Linked

theorem Linked.hasWaiters {sched : Sched} (linked : Linked sched) {pid : Pid}
    (present : sched.state? pid ≠ none) (notKernel : pid ≠ kernelPid) :
    sched.hasWaiters pid := by
  rcases Option.ne_none_iff_exists'.mp present with ⟨state, known⟩
  rcases Option.map_eq_some_iff.mp known with ⟨proc, found, -⟩
  rcases sched.proc?_eq_some found with ⟨member, rfl⟩
  exact ⟨proc, found, Option.isSome_iff_ne_none.mp (linked.listed proc member notKernel)⟩

theorem Linked.state?_findLive {sched : Sched} (linked : Linked sched) {pid target : Pid}
    (found : findLive sched pid = some target) :
    ∃ state, sched.state? target = some state ∧ state ≠ .dead := by
  rcases Option.filter_eq_some_iff.mp found with ⟨finds, alive⟩
  rcases procFindRecur_sound finds with ⟨rfl, member⟩
  have present := state?_ne_none_iff.mpr (linked.allocated _ member)
  rcases Option.ne_none_iff_exists'.mp present with ⟨state, known⟩
  refine ⟨state, known, ?_⟩
  rintro rfl
  simp [known] at alive

end Dbos.Process
