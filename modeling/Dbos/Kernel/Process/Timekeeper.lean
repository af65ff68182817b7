import Dbos.Kernel.Process.SchedulerHandlers
import Dbos.Kernel.Util.LinkedList

/-! # The timekeeper

One call of `sched_timekeeper`, on the level of the pointers of `napping_list` and on the
level of the list. Nodes are unlinked and freed while the loop walks over them. -/

namespace Dbos.Process

open Dbos.LinkedList Dbos.Queue

/-! ## The loop in memory -/

/-- `napping_list` with its nodes, and the `t_process_t` structures that are allocated. -/
structure NapMemory (Address Pointer : Type) where
  nodes : Nodes Address Pointer
  list : LnkLst Address
  timed : Pointer → Option Nap

variable {Address Pointer : Type} [DecidableEq Address] [DecidableEq Pointer]

/-- The loop of `sched_timekeeper`. -/
def timekeeperFrom : Nat → NapMemory Address Pointer → Sched → Option Address →
    Option (NapMemory Address Pointer × Sched)
  | 0, _, _, _ => none
  | _ + 1, memory, sched, none => some (memory, sched)
  | fuel + 1, memory, sched, some head => do
      let tProc := (← memory.nodes head).data
      let nap ← memory.timed tProc
      let nap : Nap := { nap with counter := nap.counter - 1 }
      let timed := Function.update memory.timed tProc (some nap)
      let next := (← memory.nodes head).next
      if nap.counter ≤ 0 then
        let (nodes, list) ← linkedListRemove memory.nodes memory.list head
        let sched := schedMakeReady sched nap.process
        timekeeperFrom fuel ⟨nodes, list, Function.update timed tProc none⟩ sched next
      else timekeeperFrom fuel { memory with timed } sched next

/-- `sched_timekeeper`. The loop meets every node and the final `NULL`. -/
def timekeeper (memory : NapMemory Address Pointer) (sched : Sched) :
    Option (NapMemory Address Pointer × Sched) :=
  timekeeperFrom memory.list.rounds memory sched memory.list.listHead

/-- The memory holds a list of nodes whose data point to these structures. -/
structure Napping (memory : NapMemory Address Pointer) (entries : List (Address × Pointer))
    (naps : List Nap) : Prop where
  held : Represents memory.nodes memory.list entries
  distinct : (entries.map Prod.snd).Nodup
  timed : entries.map (fun entry => memory.timed entry.2) = naps.map some

/-! ## What one call does to the list -/

/-- The entries that are over with the next call. -/
def expires (nap : Nap) : Bool := nap.counter - 1 ≤ 0

def remaining (naps : List Nap) : List Nap :=
  (naps.filter fun nap => !expires nap).map fun nap => ⟨nap.process, nap.counter - 1⟩

/-- The processes that are made ready, in the order of the list. -/
def expired (naps : List Nap) : List Pid := (naps.filter expires).map Nap.process

def staying {Place : Type} (entries : List Place) (naps : List Nap) : List Place :=
  ((entries.zip naps).filter fun pair => !expires pair.2).map Prod.fst

theorem timekeeperLoop_eq (naps : List Nap) (sched : Sched) :
    timekeeperLoop naps sched = (remaining naps, (expired naps).foldl schedMakeReady sched) := by
  induction naps generalizing sched with
  | nil => rfl
  | cons nap naps induction =>
      rw [timekeeperLoop]
      by_cases elapsed : nap.counter - 1 ≤ 0
      · have isOver : expires nap = true := decide_eq_true elapsed
        rw [if_pos elapsed, induction]
        simp [remaining, expired, isOver]
      · have notOver : expires nap = false := decide_eq_false elapsed
        rw [if_neg elapsed, induction]
        simp [remaining, expired, notOver]

theorem foldl_schedMakeReady_readyQueue (pids : List Pid) (sched : Sched)
    (room : sched.readyQueue.length + pids.length ≤ schedMaxReady) :
    (pids.foldl schedMakeReady sched).readyQueue = sched.readyQueue ++ pids := by
  induction pids generalizing sched with
  | nil => simp
  | cons pid pids induction =>
      rw [List.length_cons] at room
      have hasRoom : sched.readyQueue.length < schedMaxReady := by omega
      have isNext : (schedMakeReady sched pid).readyQueue = sched.readyQueue ++ [pid] := by
        show enqueue schedMaxReady sched.readyQueue pid = _
        rw [enqueue, if_pos hasRoom]
      rw [List.foldl_cons, induction, isNext, List.append_assoc, List.singleton_append]
      rw [isNext, List.length_append, List.length_singleton]
      omega

theorem foldl_schedMakeReady_state? (pids : List Pid) (sched : Sched) (pid : Pid) :
    (pids.foldl schedMakeReady sched).state? pid =
      if pid ∈ pids then (sched.state? pid).map fun _ => .ready else sched.state? pid := by
  induction pids generalizing sched with
  | nil => simp
  | cons process pids induction =>
      rw [List.foldl_cons, induction, state?_schedMakeReady]
      by_cases same : pid = process
      · cases sched.state? pid <;> simp [same]
      · simp [same]

/-! ## The loop in memory does the same -/

section Memory

variable {memory : NapMemory Address Pointer}

omit [DecidableEq Address] in
theorem map_timed_update {timed : Pointer → Option Nap} {entries : List (Address × Pointer)}
    {pointer : Pointer} (other : pointer ∉ entries.map Prod.snd) (value : Option Nap) :
    entries.map (fun entry => Function.update timed pointer value entry.2) =
      entries.map fun entry => timed entry.2 := by
  apply List.map_congr_left
  intro entry member
  have different : entry.2 ≠ pointer := fun same => other (same ▸ List.mem_map_of_mem member)
  exact Function.update_of_ne different _ _

/-- The loop from the middle of the list on: some entries have been kept. -/
theorem timekeeperFrom_spec {kept rest : List (Address × Pointer)} {naps : List Nap}
    {before : List Nap} (sched : Sched) {fuel : Nat}
    (held : Represents memory.nodes memory.list (kept ++ rest))
    (distinct : ((kept ++ rest).map Prod.snd).Nodup)
    (keptTimed : kept.map (fun entry => memory.timed entry.2) = before.map some)
    (restTimed : rest.map (fun entry => memory.timed entry.2) = naps.map some)
    (enough : rest.length < fuel) :
    ∃ after stays, timekeeperFrom fuel memory sched (headOr none rest) =
        some (after, (timekeeperLoop naps sched).2) ∧
      Napping after (kept ++ stays) (before ++ (timekeeperLoop naps sched).1) ∧
      stays = staying rest naps := by
  induction rest generalizing memory sched naps kept before fuel with
  | nil =>
      cases fuel with
      | zero => cases enough
      | succ fuel =>
          have noNaps : naps = [] := by
            rw [List.map_nil] at restTimed
            exact List.map_eq_nil_iff.mp restTimed.symm
          subst noNaps
          refine ⟨memory, [], rfl, ⟨held, distinct, ?_⟩, rfl⟩
          rw [List.append_nil, keptTimed, timekeeperLoop, List.append_nil]
  | cons entry rest induction =>
      cases fuel with
      | zero => cases enough
      | succ fuel =>
          cases naps with
          | nil => simp at restTimed
          | cons nap naps =>
              rw [List.map_cons, List.map_cons] at restTimed
              have isNap : memory.timed entry.2 = some nap := (List.cons.inj restTimed).1
              have laterTimed := (List.cons.inj restTimed).2
              have enoughLater : rest.length < fuel := Nat.lt_of_succ_lt_succ enough
              have found : memory.nodes entry.1 =
                  some ⟨lastOr none kept, headOr none rest, entry.2⟩ := held.segment.at
              have apart : (kept.map Prod.snd ++ entry.2 :: rest.map Prod.snd).Nodup := by
                simpa using distinct
              have notKept : entry.2 ∉ kept.map Prod.snd := fun member =>
                (List.nodup_append.mp apart).2.2 _ member _ (by simp) rfl
              have notLater : entry.2 ∉ rest.map Prod.snd :=
                (List.nodup_cons.mp (List.nodup_append.mp apart).2.1).1
              rw [headOr, timekeeperFrom, found, timekeeperLoop]
              simp only [Option.bind_eq_bind, Option.bind_some, isNap, Function.update_idem]
              by_cases elapsed : nap.counter - 1 ≤ 0
              · rcases linkedListRemove_spec held with ⟨nodes, list, removed, shorter, -, -⟩
                simp only [if_pos elapsed, removed, Option.bind_some]
                have shorterDistinct : ((kept ++ rest).map Prod.snd).Nodup := by
                  have sublist : ((kept ++ rest).map Prod.snd).Sublist
                      ((kept ++ entry :: rest).map Prod.snd) := by simp
                  exact sublist.nodup distinct
                rcases @induction ⟨nodes, list, Function.update memory.timed entry.2 none⟩ kept
                    naps before (schedMakeReady sched nap.process) fuel shorter shorterDistinct
                    ((map_timed_update notKept none).trans keptTimed)
                    ((map_timed_update notLater none).trans laterTimed) enoughLater with
                  ⟨after, stays, loops, napping, isStaying⟩
                refine ⟨after, stays, loops, napping, ?_⟩
                have isOver : expires nap = true := decide_eq_true elapsed
                simp [isStaying, staying, isOver]
              · simp only [if_neg elapsed]
                have longer : Represents memory.nodes memory.list ((kept ++ [entry]) ++ rest) := by
                  simpa using held
                have sameDistinct : (((kept ++ [entry]) ++ rest).map Prod.snd).Nodup := by
                  simpa using distinct
                have nowTimed : (kept ++ [entry]).map (fun other =>
                    Function.update memory.timed entry.2
                      (some ⟨nap.process, nap.counter - 1⟩) other.2) =
                    (before ++ [(⟨nap.process, nap.counter - 1⟩ : Nap)]).map some := by
                  rw [List.map_append, map_timed_update notKept, keptTimed]
                  simp
                rcases @induction ⟨memory.nodes, memory.list, Function.update memory.timed entry.2
                    (some ⟨nap.process, nap.counter - 1⟩)⟩ (kept ++ [entry]) naps
                    (before ++ [⟨nap.process, nap.counter - 1⟩]) sched fuel longer sameDistinct
                    nowTimed ((map_timed_update notLater _).trans laterTimed) enoughLater with
                  ⟨after, stays, loops, napping, isStaying⟩
                refine ⟨after, entry :: stays, loops, by simpa using napping, ?_⟩
                have notOver : expires nap = false := decide_eq_false elapsed
                simp [isStaying, staying, notOver]

/-- The nodes that stay are those of the entries that are not over, in their order, with the
counters decremented; the others are made ready in order. -/
theorem timekeeper_spec {entries : List (Address × Pointer)} {naps : List Nap} (sched : Sched)
    (napping : Napping memory entries naps) :
    ∃ after stays, timekeeper memory sched =
        some (after, (expired naps).foldl schedMakeReady sched) ∧
      Napping after stays (remaining naps) ∧ stays = staying entries naps := by
  have enough : entries.length < memory.list.rounds := by
    rw [napping.held.rounds_eq]
    omega
  have whole : Represents memory.nodes memory.list ([] ++ entries) := napping.held
  have noneKept : [].map (fun entry : Address × Pointer => memory.timed entry.2) =
      ([] : List Nap).map some := rfl
  rcases timekeeperFrom_spec sched whole napping.distinct noneKept napping.timed enough with
    ⟨after, stays, loops, still, isStaying⟩
  rw [timekeeperLoop_eq] at loops still
  refine ⟨after, stays, ?_, still, isStaying⟩
  rw [timekeeper, napping.held.head, loops]

end Memory

end Dbos.Process
