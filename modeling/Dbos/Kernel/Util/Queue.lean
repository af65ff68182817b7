import Mathlib.Data.List.Nodup

/-! # Bounded queues

The items of a `queue_t` from head to tail, with the operations of `queue.c`
on them. An item is whatever the queue's `data` pointers point to. -/

namespace Dbos.Queue

variable {α : Type}

/-- `queue_enqueue`: at the limit the item is not stored, and the `NULL` that
tells so is ignored by every caller. -/
def enqueue (limit : Nat) (queue : List α) (item : α) : List α :=
  if queue.length < limit then queue ++ [item] else queue

/-- `queue_dequeue`. -/
def dequeue : List α → Option α × List α
  | [] => (none, [])
  | item :: rest => (some item, rest)

@[simp] theorem dequeue_cons (item : α) (rest : List α) :
    dequeue (item :: rest) = (some item, rest) := rfl

/-- `queue_force_remove`: every occurrence of the item goes. -/
def forceRemove [DecidableEq α] (queue : List α) (item : α) : List α :=
  queue.filter fun other => other ≠ item

theorem mem_enqueue {limit : Nat} {queue : List α} {item other : α}
    (member : other ∈ enqueue limit queue item) : other ∈ queue ∨ other = item := by
  unfold enqueue at member
  split at member
  · simpa using member
  · exact .inl member

theorem mem_enqueue_of_mem {limit : Nat} {queue : List α} {item other : α}
    (member : other ∈ queue) : other ∈ enqueue limit queue item := by
  unfold enqueue
  split
  · exact List.mem_append_left _ member
  · exact member

theorem mem_enqueue_self {limit : Nat} {queue : List α} (item : α)
    (room : queue.length < limit) : item ∈ enqueue limit queue item := by
  simp [enqueue, room]

theorem nodup_enqueue {limit : Nat} {queue : List α} {item : α}
    (nodup : queue.Nodup) (fresh : item ∉ queue) :
    (enqueue limit queue item).Nodup := by
  unfold enqueue
  split
  · rw [List.nodup_append]
    refine ⟨nodup, List.nodup_singleton item, ?_⟩
    intro other member last isLast equal
    rw [List.mem_singleton.mp isLast] at equal
    exact fresh (equal ▸ member)
  · exact nodup

variable [DecidableEq α]

@[simp] theorem mem_forceRemove {queue : List α} {item other : α} :
    other ∈ forceRemove queue item ↔ other ∈ queue ∧ other ≠ item := by
  simp [forceRemove]

theorem forceRemove_of_notMem {queue : List α} {item : α} (absent : item ∉ queue) :
    forceRemove queue item = queue := by
  simp only [forceRemove, List.filter_eq_self, decide_eq_true_eq]
  exact fun other member equal => absent (equal ▸ member)

end Dbos.Queue
