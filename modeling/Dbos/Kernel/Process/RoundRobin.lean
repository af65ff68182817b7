import Mathlib.Data.List.Rotate
import Dbos.Foundation.Execution
import Dbos.Kernel.Process.SchedulerHandlers

/-! # Round robin

While nobody dies, sleeps or makes a system call, the timer hands the processor
around: the current process goes to the tail of `ready_queue`, whose head runs
next. The queue may be as long as leaves room for one more process. -/

namespace Dbos.Process

open Dbos.Queue Dbos.Execution

/-- The processes that take turns, the current one first. -/
def turns (sched : Sched) : List Pid := sched.current :: sched.readyQueue

/-- The current process is living, the queued ones are distinct, ready and leave
room for one more, and there is nobody to destroy or to wake up. -/
structure TakingTurns (sched : Sched) : Prop where
  living : sched.state? sched.current = some .living
  ready : ∀ process ∈ sched.readyQueue, sched.state? process = some .ready
  distinct : sched.readyQueue.Nodup
  room : sched.readyQueue.length < schedMaxReady
  noDead : sched.deadQueue = []
  noNapping : sched.nappingList = []

namespace TakingTurns

variable {sched : Sched} (taking : TakingTurns sched)
include taking

theorem nodup : (turns sched).Nodup := by
  apply List.nodup_cons.mpr
  constructor
  · intro queued
    have ready := taking.ready _ queued
    rw [taking.living] at ready
    cases ready
  · exact taking.distinct

theorem present {process : Pid} (member : process ∈ turns sched) :
    sched.state? process = some .living ∨ sched.state? process = some .ready := by
  rcases List.mem_cons.mp member with same | queued
  · exact .inl (same ▸ taking.living)
  · exact .inr (taking.ready process queued)

theorem offer_eq : offer sched =
    { sched.setState sched.current .ready with
      readyQueue := sched.readyQueue ++ [sched.current] } := by
  have room : (sched.setState sched.current .ready).readyQueue.length < schedMaxReady :=
    taking.room
  rw [offer, if_pos taking.living, schedMakeReady, enqueue, if_pos room]
  rfl

end TakingTurns

/-- The scheduler after the current process has given way to `next`. -/
def handOver (sched : Sched) (next : Pid) (rest : List Pid) : Sched :=
  { (sched.setState sched.current .ready).setState next .living with
    readyQueue := rest
    current := next }

section Tick

variable {sched : Sched} (taking : TakingTurns sched) {next : Pid} {rest : List Pid}
  (order : sched.readyQueue ++ [sched.current] = next :: rest)
include taking order

omit taking in
theorem next_mem : next ∈ turns sched := by
  have member : next ∈ sched.readyQueue ++ [sched.current] := by
    rw [order]
    exact List.mem_cons_self
  simpa [turns, or_comm] using member

theorem schedGetNext_handOver :
    schedGetNext sched = some (next,
      { sched.setState sched.current .ready with readyQueue := rest }) := by
  have present : (sched.proc? sched.current).map Proc.state = some .living := taking.living
  rcases Option.map_eq_some_iff.mp present with ⟨proc, found, isLiving⟩
  have offered : schedMakeReady sched sched.current =
      { sched.setState sched.current .ready with readyQueue := next :: rest } := by
    have offers := taking.offer_eq
    rwa [offer, if_pos taking.living, order] at offers
  have kept : (sched.setState sched.current .ready).proc? sched.current =
      some { proc with state := .ready } := by
    rw [Sched.setState, Sched.proc?_modifyProc, if_pos rfl, found]
    · rfl
    · exact fun _ => rfl
  have noDead : (sched.setState sched.current .ready).deadQueue = [] := taking.noDead
  have keptLater : { sched.setState sched.current .ready with
      readyQueue := rest, deadQueue := [] }.proc? sched.current =
      some { proc with state := .ready } := kept
  simp only [schedGetNext, found, Option.bind_eq_bind, Option.bind_some, isLiving, if_true,
    offered, noDead, dequeue, reap, keptLater, reduceCtorEq, if_false, Option.pure_def]

theorem schedPreemptHandler_handOver :
    schedPreemptHandler sched = some (handOver sched next rest) := by
  have present : (sched.setState sched.current .ready).state? next ≠ none := by
    rw [Sched.state?_setState]
    split <;> rcases taking.present (next_mem order) with living | ready
    all_goals simp_all
  rcases Option.ne_none_iff_exists'.mp present with ⟨state, hasState⟩
  rcases Option.map_eq_some_iff.mp hasState with ⟨proc, found, _⟩
  have foundLater : { sched.setState sched.current .ready with
      readyQueue := rest }.proc? next = some proc := found
  simp only [schedPreemptHandler, schedGetNext_handOver taking order, Option.bind_eq_bind,
    Option.bind_some, foundLater, Option.pure_def]
  rfl

theorem step_tick_handOver : step sched .tick = some (handOver sched next rest) := by
  have noNapping : (handOver sched next rest).nappingList = [] := taking.noNapping
  have idle : schedTimekeeper (handOver sched next rest) = handOver sched next rest := by
    rw [schedTimekeeper, noNapping, timekeeperLoop, ← noNapping]
  simp only [step, Event.mayOccur, if_true, enter, Event.syscallNumber, handle,
    schedPreemptHandler_handOver taking order, Option.map_some, idle]

omit taking in
theorem turns_handOver : turns (handOver sched next rest) = (turns sched).rotate 1 := by
  rw [turns, turns, List.rotate_cons_succ, List.rotate_zero, order]
  rfl

omit order in
theorem state?_handOver {process : Pid} (member : process ∈ turns sched) :
    (handOver sched next rest).state? process =
      if process = next then some .living else some .ready := by
  have states : (handOver sched next rest).state? process =
      ((sched.setState sched.current .ready).setState next .living).state? process := rfl
  rw [states, Sched.state?_setState, Sched.state?_setState]
  rcases List.mem_cons.mp member with isCurrent | queued
  · rw [if_pos isCurrent, isCurrent, taking.living]
    rfl
  · have ready := taking.ready process queued
    have different : process ≠ sched.current := by
      intro same
      rw [same, taking.living] at ready
      cases ready
    rw [if_neg different, ready]
    rfl

theorem takingTurns_handOver : TakingTurns (handOver sched next rest) := by
  have rotated : next :: rest = (turns sched).rotate 1 := turns_handOver order
  have distinct : (next :: rest).Nodup := by
    rw [rotated]
    exact List.nodup_rotate.mpr taking.nodup
  have members : ∀ process ∈ rest, process ∈ turns sched := by
    intro process queued
    have member : process ∈ (turns sched).rotate 1 := by
      rw [← rotated]
      exact List.mem_cons_of_mem _ queued
    exact List.mem_rotate.mp member
  have length : rest.length + 1 = sched.readyQueue.length + 1 := by
    have lengths := congrArg List.length order
    simpa using lengths.symm
  constructor
  · have member := next_mem order
    exact (state?_handOver taking member).trans (if_pos rfl)
  · intro process queued
    have different : process ≠ next := by
      intro same
      exact (List.nodup_cons.mp distinct).1 (same ▸ queued)
    exact (state?_handOver taking (members process queued)).trans (if_neg different)
  · exact (List.nodup_cons.mp distinct).2
  · have room := taking.room
    have queue : (handOver sched next rest).readyQueue = rest := rfl
    rw [queue]
    omega
  · exact taking.noDead
  · exact taking.noNapping

end Tick

theorem tick_rotates {sched : Sched} (taking : TakingTurns sched) :
    ∃ after, step sched .tick = some after ∧ TakingTurns after ∧
      turns after = (turns sched).rotate 1 := by
  cases order : sched.readyQueue ++ [sched.current] with
  | nil => simp at order
  | cons next rest =>
      exact ⟨handOver sched next rest, step_tick_handOver taking order,
        takingTurns_handOver taking order, turns_handOver order⟩

theorem ticks_rotate {sched : Sched} (taking : TakingTurns sched) (ticks : Nat) :
    ∃ after, run step sched (List.replicate ticks .tick) = some after ∧ TakingTurns after ∧
      turns after = (turns sched).rotate ticks := by
  induction ticks generalizing sched with
  | zero => exact ⟨sched, rfl, taking, (List.rotate_zero _).symm⟩
  | succ ticks induction =>
      rcases tick_rotates taking with ⟨next, stepped, takingNext, rotated⟩
      rcases induction takingNext with ⟨after, reached, takingAfter, rotatedAfter⟩
      refine ⟨after, ?_, takingAfter, ?_⟩
      · rw [List.replicate_succ, run_cons, stepped, Option.bind_some, reached]
      · rw [rotatedAfter, rotated, List.rotate_rotate, Nat.add_comm]

/-- Round robin: after any number of ticks it is the turn of the process that
stands as many places further on, and the others follow it in cyclic order. -/
theorem roundRobin (sched : Sched) (living : sched.state? sched.current = some .living)
    (ready : ∀ process ∈ sched.readyQueue, sched.state? process = some .ready)
    (distinct : sched.readyQueue.Nodup) (few : sched.readyQueue.length ≤ 255)
    (noDead : sched.deadQueue = []) (noNapping : sched.nappingList = []) (ticks : Nat) :
    ∃ after, run step sched (List.replicate ticks .tick) = some after ∧
      (turns sched)[ticks % (sched.readyQueue.length + 1)]? = some after.current ∧
      (∀ place < sched.readyQueue.length, after.readyQueue[place]? =
        (turns sched)[(ticks + 1 + place) % (sched.readyQueue.length + 1)]?) ∧
      after.readyQueue.length = sched.readyQueue.length ∧
      (turns after).Nodup ∧ (turns after).Perm (turns sched) ∧
      after.state? after.current = some .living ∧
      (∀ process ∈ after.readyQueue, after.state? process = some .ready) ∧
      after.deadQueue = [] ∧ after.nappingList = [] := by
  have room : sched.readyQueue.length < schedMaxReady := Nat.lt_of_le_of_lt few (by decide)
  have taking : TakingTurns sched := ⟨living, ready, distinct, room, noDead, noNapping⟩
  rcases ticks_rotate taking ticks with ⟨after, reached, takingAfter, rotated⟩
  have length : (turns sched).length = sched.readyQueue.length + 1 := rfl
  have lengthAfter : after.readyQueue.length + 1 = sched.readyQueue.length + 1 := by
    have lengths := congrArg List.length rotated
    rwa [List.length_rotate] at lengths
  have turn : ∀ place < sched.readyQueue.length + 1, (turns after)[place]? =
      (turns sched)[(ticks + place) % (sched.readyQueue.length + 1)]? := by
    intro place bound
    rw [rotated, List.getElem?_rotate (by rwa [length]), length, Nat.add_comm]
  refine ⟨after, reached, ?_, ?_, by omega, takingAfter.nodup, ?_, takingAfter.living,
    takingAfter.ready, takingAfter.noDead, takingAfter.noNapping⟩
  · exact (turn 0 (by omega)).symm
  · intro place bound
    have next := turn (place + 1) (by omega)
    rw [show ticks + 1 + place = ticks + (place + 1) by omega, ← next]
    rfl
  · rw [rotated]
    exact List.rotate_perm _ _

/-- The kernel is running and two processes wait for their turn. -/
def threeProcesses : Sched where
  procs := [⟨1, .living, none, 0⟩, ⟨2, .ready, some [], 0⟩, ⟨3, .ready, some [], 0⟩]
  processTree := .node 1 [.node 2 [.node 3 []]]
  procPid := 3
  current := 1
  readyQueue := [2, 3]
  deadQueue := []
  nappingList := []

/-- Five ticks later the second of them runs. -/
theorem roundRobin_fiveTicks :
    ∃ after, run step threeProcesses (List.replicate 5 .tick) = some after ∧
      after.current = 3 := by
  rcases roundRobin threeProcesses (by decide) (by decide) (by decide) (by decide) rfl rfl 5
    with ⟨after, reached, isCurrent, _⟩
  have third : (turns threeProcesses)[5 % 3]? = some 3 := by decide
  exact ⟨after, reached, Option.some.inj (isCurrent.symm.trans third)⟩

end Dbos.Process
