import Dbos.Foundation.Refinement
import Dbos.Kernel.Util.LinkedList
import Dbos.Kernel.Util.Queue

/-! # Queues in memory

`queue.c` on the level of its pointers. A `queue_node_t` has the fields of a node of a
linked list, with `p` for `previous` and `n` for `next`. Where an operation allocates a
node, the address that `kern_malloc` returns and what is left in the block are arguments. -/

namespace Dbos.QueueMemory

open Dbos.LinkedList Dbos.Refinement

/-- `queue_t`. -/
structure QueueT (Address : Type) where
  head : Option Address
  tail : Option Address
  length : Int
  limit : Int
deriving DecidableEq, Repr

variable {Address Data : Type} [DecidableEq Address]

section Operations

variable (nodes : Nodes Address Data)

/-- `node->data = data`. -/
def setData (address : Address) (data : Data) : Option (Nodes Address Data) :=
  (nodes address).map fun node =>
    Function.update nodes address (some { node with data := data })

def createQueue (limit : Int) : QueueT Address := ⟨none, none, 0, limit⟩

/-- `queue_enqueue`: the node or `NULL`, and the memory. -/
def queueEnqueue (queue : QueueT Address) (address : Address) (leftover : Node Address Data)
    (data : Data) : Option (Option Address × Nodes Address Data × QueueT Address) :=
  let nodes := Function.update nodes address (some leftover)
  if queue.length < queue.limit ∨ queue.limit = -1 then
    if queue.head = none ∧ queue.tail = none then do
      let nodes ← setPrevious nodes address none
      let nodes ← setNext nodes address none
      let nodes ← setData nodes address data
      return (some address, nodes,
        { queue with head := some address, tail := some address, length := queue.length + 1 })
    else do
      let tail ← queue.tail
      let nodes ← setNext nodes tail (some address)
      let nodes ← setPrevious nodes address (some tail)
      let nodes ← setNext nodes address none
      let nodes ← setData nodes address data
      return (some address, nodes,
        { queue with tail := some address, length := queue.length + 1 })
  else some (none, Function.update nodes address none, queue)

/-- `queue_dequeue`: the data or `NULL`, and the memory. -/
def queueDequeue (queue : QueueT Address) :
    Option (Option Data × Nodes Address Data × QueueT Address) :=
  match queue.head with
  | none => some (none, nodes, queue)
  | some head =>
      if queue.head = queue.tail ∧ queue.length = 1 then do
        let node ← nodes head
        return (some node.data, Function.update nodes head none,
          { queue with head := none, tail := none, length := queue.length - 1 })
      else do
        let node ← nodes head
        let next ← node.next
        let nodes ← setPrevious nodes next none
        let node ← nodes head
        return (some node.data, Function.update nodes head none,
          { queue with head := some next, length := queue.length - 1 })

/-- What `queue_force_remove` does with a node that holds the item. -/
def removeNode (queue : QueueT Address) (address : Address) (node : Node Address Data) :
    Option (Nodes Address Data × QueueT Address) :=
  if queue.length = 1 then
    some (Function.update nodes address none,
      { queue with head := none, tail := none, length := queue.length - 1 })
  else if queue.head = some address then do
    let next ← node.next
    let nodes ← setPrevious nodes next none
    return (Function.update nodes address none,
      { queue with head := some next, length := queue.length - 1 })
  else if queue.tail = some address then do
    let previous ← node.previous
    let nodes ← setNext nodes previous none
    return (Function.update nodes address none,
      { queue with tail := some previous, length := queue.length - 1 })
  else do
    let previous ← node.previous
    let next ← node.next
    let nodes ← setNext nodes previous (some next)
    let nodes ← setPrevious nodes next (some previous)
    return (Function.update nodes address none, { queue with length := queue.length - 1 })

end Operations

/-- The loop of `queue_force_remove`. -/
def removeFrom [DecidableEq Data] (data : Data) :
    Nat → Nodes Address Data → QueueT Address → Option Address →
      Option (Nodes Address Data × QueueT Address)
  | 0, _, _, _ => none
  | _ + 1, nodes, queue, none => some (nodes, queue)
  | fuel + 1, nodes, queue, some tmpHead =>
      (nodes tmpHead).bind fun node =>
        if node.data = data then
          (removeNode nodes queue tmpHead node).bind fun (nodes, queue) =>
            removeFrom data fuel nodes queue node.next
        else removeFrom data fuel nodes queue node.next

/-- `queue_force_remove`. The loop meets every node and the final `NULL`. -/
def queueForceRemove [DecidableEq Data] (nodes : Nodes Address Data) (queue : QueueT Address)
    (data : Data) : Option (Nodes Address Data × QueueT Address) :=
  if queue.length = 0 then some (nodes, queue)
  else removeFrom data (queue.length.toNat + 1) nodes queue queue.head

/-! ## The operations on queues in memory -/

/-- The part of a queue that linked lists have too. -/
def QueueT.list (queue : QueueT Address) : LnkLst Address := ⟨queue.head, queue.tail, queue.length⟩

def QueueT.withList (queue : QueueT Address) (list : LnkLst Address) : QueueT Address :=
  ⟨list.listHead, list.listTail, list.listLength, queue.limit⟩

section Specifications

variable {nodes : Nodes Address Data} {queue : QueueT Address}
  {entries left right : List (Address × Data)} {address : Address} {data : Data}

theorem queueEnqueue_spec (held : Represents nodes queue.list entries)
    (fresh : nodes address = none) (leftover : Node Address Data) (data : Data)
    (room : queue.length < queue.limit ∨ queue.limit = -1) :
    ∃ after extended, queueEnqueue nodes queue address leftover data =
        some (some address, after, extended) ∧
      extended.limit = queue.limit ∧
      Represents after extended.list (entries ++ [(address, data)]) := by
  have notMember : address ∉ entries.map Prod.fst := by
    intro member
    rcases List.mem_map.mp member with ⟨entry, inEntries, isAddress⟩
    rcases held.segment.allocated inEntries with ⟨node, allocated, -⟩
    rw [isAddress, fresh] at allocated
    cases allocated
  rcases List.eq_nil_or_concat' entries with isEmpty | ⟨left, last, isConcat⟩
  · subst isEmpty
    have noNodes : queue.head = none ∧ queue.tail = none := ⟨held.head, held.tail⟩
    refine ⟨Function.update nodes address (some ⟨none, none, data⟩),
      ⟨some address, some address, queue.length + 1, queue.limit⟩, ?_, rfl, ?_⟩
    · simp [queueEnqueue, room, noNodes, setPrevious, setNext, setData]
    · constructor
      · exact ⟨Function.update_self .., trivial⟩
      · rfl
      · rfl
      · have noLength : queue.length = 0 := held.length
        simp [QueueT.list, noLength]
      · exact List.nodup_singleton _
  · subst isConcat
    have newest : last.1 ≠ address := fun same => notMember (by simp [← same])
    have isTail : queue.tail = some last.1 := by
      have tail : queue.tail = lastOr none (left ++ [last]) := held.tail
      rw [tail, lastOr_append]
      rfl
    have atLast : nodes last.1 = some ⟨lastOr none left, none, last.2⟩ := held.segment.at
    refine ⟨Function.update (Function.update nodes last.1
        (some ⟨lastOr none left, some address, last.2⟩)) address (some ⟨some last.1, none, data⟩),
      ⟨queue.head, some address, queue.length + 1, queue.limit⟩, ?_, rfl, ?_⟩
    · have found : Function.update nodes address (some leftover) last.1 =
          some ⟨lastOr none left, none, last.2⟩ := by
        rw [Function.update_of_ne newest, atLast]
      have new : Function.update (Function.update nodes address (some leftover)) last.1
          (some ⟨lastOr none left, some address, last.2⟩) address = some leftover := by
        rw [Function.update_of_ne newest.symm, Function.update_self]
      simp only [queueEnqueue, if_pos room, isTail, reduceCtorEq, and_false, if_false,
        Option.bind_eq_bind, Option.bind_some, setNext_of_some found, setPrevious_of_some new,
        setNext_of_some (Function.update_self ..), setData, Function.update_self,
        Option.map_some, Function.update_idem, Option.pure_def]
      rw [Function.update_comm newest.symm, Function.update_idem]
    · apply held.extend notMember
      · rw [Function.update_of_ne newest, Function.update_self]
      · exact Function.update_self ..
      · intro place notLast notNew
        rw [Function.update_of_ne notNew, Function.update_of_ne notLast]

omit [DecidableEq Address] in
theorem length_eq_one_iff (held : Represents nodes queue.list (left ++ (address, data) :: right)) :
    queue.length = 1 ↔ left = [] ∧ right = [] := by
  have length : queue.length = ((left ++ (address, data) :: right).length : Int) := held.length
  rw [List.length_append, List.length_cons] at length
  rw [← List.length_eq_zero_iff, ← List.length_eq_zero_iff]
  omega

omit [DecidableEq Address] in
theorem nodup_around (held : Represents nodes queue.list (left ++ (address, data) :: right)) :
    ∀ entry ∈ left ++ right, entry.1 ≠ address := by
  have distinct : (left.map Prod.fst ++ address :: right.map Prod.fst).Nodup := by
    simpa using held.nodup
  have apart := List.nodup_append.mp distinct
  intro entry member same
  rcases List.mem_append.mp member with onLeft | onRight
  · exact apart.2.2 entry.1 (List.mem_map_of_mem onLeft) address (by simp) same
  · exact (List.nodup_cons.mp apart.2.1).1 (same ▸ List.mem_map_of_mem onRight)

theorem removeNode_eq (held : Represents nodes queue.list (left ++ (address, data) :: right)) :
    removeNode nodes queue address ⟨lastOr none left, headOr none right, data⟩ =
      (unlinkNode nodes queue.list address).map fun (after, list) =>
        (after, queue.withList list) := by
  have found : nodes address = some ⟨lastOr none left, headOr none right, data⟩ :=
    held.segment.at
  have apart := nodup_around held
  have isHead : queue.head = headOr none (left ++ (address, data) :: right) := held.head
  have isTail : queue.tail = lastOr none (left ++ (address, data) :: right) := held.tail
  unfold removeNode unlinkNode
  by_cases single : queue.length = 1
  · rcases (length_eq_one_iff held).mp single with ⟨noLeft, noRight⟩
    subst noLeft noRight
    have head : queue.head = some address := isHead
    simp [single, QueueT.list, QueueT.withList, found, head, headOr]
  · rw [if_neg single, found]
    have neighbour : ¬(left = [] ∧ right = []) := fun none => single ((length_eq_one_iff held).mpr none)
    cases left with
    | nil =>
        cases right with
        | nil => exact absurd ⟨rfl, rfl⟩ neighbour
        | cons first later =>
            have head : queue.head = some address := isHead
            simp only [QueueT.list, head, if_true, Option.bind_eq_bind, Option.bind_some, headOr]
            cases setPrevious nodes first.1 none <;> rfl
    | cons one rest =>
        have notHead : queue.head ≠ some address := by
          rw [isHead]
          intro same
          exact apart one (by simp) (Option.some.inj same)
        rcases @exists_lastOr Address Data (one :: rest) none (by simp) with ⟨last, -, isLast⟩
        cases right with
        | nil =>
            have tail : queue.tail = some address := by
              rw [isTail, lastOr_append]
              rfl
            simp only [QueueT.list, notHead, tail, if_false, if_true, Option.bind_eq_bind,
              Option.bind_some, isLast]
            cases setNext nodes last.1 none <;> rfl
        | cons first later =>
            have notTail : queue.tail ≠ some address := by
              rw [isTail, lastOr_append]
              rcases @exists_lastOr Address Data (first :: later) (some address) (by simp) with
                ⟨final, inLater, isFinal⟩
              intro same
              rw [lastOr, isFinal] at same
              exact apart final (by simp [inLater]) (Option.some.inj same)
            simp only [QueueT.list, notHead, notTail, if_false, Option.bind_eq_bind,
              Option.bind_some, isLast, headOr]
            cases setNext nodes last.1 (some first.1) with
            | none => rfl
            | some linked =>
                simp only [Option.bind_some]
                cases setPrevious linked first.1 (some last.1) <;> rfl

theorem removeNode_spec (held : Represents nodes queue.list (left ++ (address, data) :: right)) :
    ∃ after shortened,
      removeNode nodes queue address ⟨lastOr none left, headOr none right, data⟩ =
        some (after, shortened) ∧
      shortened.limit = queue.limit ∧ Represents after shortened.list (left ++ right) := by
  rcases unlinkNode_spec held with ⟨after, list, unlinked, shorter, -, -⟩
  refine ⟨after, queue.withList list, ?_, rfl, shorter⟩
  rw [removeNode_eq held, unlinked]
  rfl

/-- The loop takes out every node with the data that it still has to meet. -/
theorem removeFrom_spec [DecidableEq Data] (data : Data) {kept : List (Address × Data)}
    {fuel : Nat} (held : Represents nodes queue.list (kept ++ entries))
    (enough : entries.length < fuel) :
    ∃ after remaining, removeFrom data fuel nodes queue (headOr none entries) =
        some (after, remaining) ∧
      remaining.limit = queue.limit ∧
      Represents after remaining.list (kept ++ entries.filter fun entry => entry.2 ≠ data) := by
  induction entries generalizing nodes queue kept fuel with
  | nil =>
      cases fuel with
      | zero => cases enough
      | succ fuel => exact ⟨nodes, queue, rfl, rfl, by simpa using held⟩
  | cons entry rest induction =>
      cases fuel with
      | zero => cases enough
      | succ fuel =>
          have enoughLater : rest.length < fuel := Nat.lt_of_succ_lt_succ enough
          have found : nodes entry.1 = some ⟨lastOr none kept, headOr none rest, entry.2⟩ :=
            held.segment.at
          rw [headOr, removeFrom, found, Option.bind_some]
          by_cases same : entry.2 = data
          · rcases removeNode_spec held with ⟨linked, shortened, removed, limit, shorter⟩
            rcases induction shorter enoughLater with ⟨after, remaining, loops, lastLimit, final⟩
            refine ⟨after, remaining, ?_, lastLimit.trans limit, ?_⟩
            · simp only [if_pos same, removed, Option.bind_some, loops]
            · simpa [List.filter_cons, same] using final
          · have longer : Represents nodes queue.list ((kept ++ [entry]) ++ rest) := by
              simpa using held
            rcases induction longer enoughLater with ⟨after, remaining, loops, limit, final⟩
            refine ⟨after, remaining, ?_, limit, ?_⟩
            · simp only [if_neg same, loops]
            · simpa [List.filter_cons, same] using final

theorem queueForceRemove_spec [DecidableEq Data] (held : Represents nodes queue.list entries)
    (data : Data) :
    ∃ after remaining, queueForceRemove nodes queue data = some (after, remaining) ∧
      remaining.limit = queue.limit ∧
      Represents after remaining.list (entries.filter fun entry => entry.2 ≠ data) := by
  have length : queue.length = (entries.length : Int) := held.length
  unfold queueForceRemove
  by_cases isEmpty : queue.length = 0
  · have noEntries : entries = [] := List.length_eq_zero_iff.mp (by omega)
    rw [if_pos isEmpty]
    exact ⟨nodes, queue, rfl, rfl, by simpa [noEntries] using held⟩
  · rw [if_neg isEmpty, show queue.head = headOr none entries from held.head]
    have whole : Represents nodes queue.list ([] ++ entries) := held
    exact removeFrom_spec data whole (by omega)

theorem queueDequeue_spec {entry : Address × Data}
    (held : Represents nodes queue.list (entry :: entries)) :
    ∃ after shortened, queueDequeue nodes queue = some (some entry.2, after, shortened) ∧
      shortened.limit = queue.limit ∧ Represents after shortened.list entries := by
  have head : queue.head = some entry.1 := held.head
  have tail : queue.tail = lastOr (some entry.1) entries := held.tail
  have found : nodes entry.1 = some ⟨none, headOr none entries, entry.2⟩ := held.segment.1
  have split : Represents nodes queue.list ([] ++ (entry.1, entry.2) :: entries) := held
  rcases removeNode_spec split with ⟨after, shortened, removed, limit, shorter⟩
  refine ⟨after, shortened, ?_, limit, shorter⟩
  have single := length_eq_one_iff split
  unfold removeNode at removed
  unfold queueDequeue
  rw [head]
  simp only
  cases entries with
  | nil =>
      have one : queue.length = 1 := single.mpr ⟨rfl, rfl⟩
      rw [if_pos one] at removed
      rw [tail]
      simp only [lastOr, one, and_self, if_true, found, Option.bind_eq_bind, Option.bind_some,
        Option.pure_def]
      rw [Option.some_inj.mp removed.symm, one]
  | cons first later =>
      have notOne : ¬queue.length = 1 := fun one => by simpa using (single.mp one).2
      have isNext : nodes first.1 = some ⟨some entry.1, headOr none later, first.2⟩ :=
        held.segment.2.1
      have apart : first.1 ≠ entry.1 := nodup_around split first (by simp)
      rw [if_neg notOne, if_pos head] at removed
      simp only [headOr, Option.bind_eq_bind, Option.bind_some, setPrevious_of_some isNext,
        Option.pure_def, Option.some_inj] at removed
      simp only [notOne, and_false, if_false, found, headOr, Option.bind_eq_bind, Option.bind_some,
        setPrevious_of_some isNext, Function.update_of_ne apart.symm, Option.pure_def]
      rw [← removed]

end Specifications

/-! ## Sequences of calls -/

/-- The calls with non-`NULL` data. An enqueuing call has got a node from `kern_malloc`. -/
inductive Call (Address Data : Type) where
  | enqueue (address : Address) (leftover : Node Address Data) (data : Data)
  | dequeue
  | forceRemove (data : Data)

/-- What a call returns. -/
inductive Returned (Address Data : Type) where
  | node (pointer : Option Address)
  | data (pointer : Option Data)
  | nothing
deriving DecidableEq, Repr

/-- The memory and the queue. -/
structure State (Address Data : Type) where
  nodes : Nodes Address Data
  queue : QueueT Address

section Runs

variable [DecidableEq Data]

def step (state : State Address Data) :
    Call Address Data → Option (Returned Address Data × State Address Data)
  | .enqueue address leftover data =>
      (queueEnqueue state.nodes state.queue address leftover data).map
        fun (pointer, nodes, queue) => (.node pointer, ⟨nodes, queue⟩)
  | .dequeue =>
      (queueDequeue state.nodes state.queue).map
        fun (pointer, nodes, queue) => (.data pointer, ⟨nodes, queue⟩)
  | .forceRemove data =>
      (queueForceRemove state.nodes state.queue data).map
        fun (nodes, queue) => (.nothing, ⟨nodes, queue⟩)

/-- `kern_malloc` returns a block that is not in use. -/
def FreshNode (state : State Address Data) : Call Address Data → Prop
  | .enqueue address _ _ => state.nodes address = none
  | _ => True

instance (state : State Address Data) (call : Call Address Data) :
    Decidable (FreshNode state call) :=
  match call with
  | .enqueue address _ _ => inferInstanceAs (Decidable (state.nodes address = none))
  | .dequeue => .isTrue trivial
  | .forceRemove _ => .isTrue trivial

/-- The calls on the list of the items. -/
def modelStep (limit : Int) (items : List Data) :
    Call Address Data → Returned Address Data × List Data
  | .enqueue address _ data =>
      if items.length < limit ∨ limit = -1 then (.node (some address), items ++ [data])
      else (.node none, items)
  | .dequeue => (.data (Queue.dequeue items).1, (Queue.dequeue items).2)
  | .forceRemove data => (.nothing, Queue.forceRemove items data)

/-- The items are met in order from the head and in the opposite order from the tail, and
their number is counted and does not exceed a limit that is not negative. A limit of -1 is
none; with any other negative limit the queue is empty. -/
structure Holds (limit : Int) (state : State Address Data) (items : List Data) : Prop where
  forward : (follow Node.next state.nodes (items.length + 1) state.queue.head).map
    (List.map Prod.snd) = some items
  backward : (follow Node.previous state.nodes (items.length + 1) state.queue.tail).map
    (List.map Prod.snd) = some items.reverse
  length : state.queue.length = items.length
  limited : 0 ≤ limit → state.queue.length ≤ limit
  refused : limit < -1 → items = []

/-- The nodes in memory, and the items as the list model has them. -/
def Related (limit : Int) (state : State Address Data) (items : List Data) : Prop :=
  state.queue.limit = limit ∧ (0 ≤ limit → (items.length : Int) ≤ limit) ∧
    (limit < -1 → items = []) ∧
    ∃ entries, Represents state.nodes state.queue.list entries ∧ entries.map Prod.snd = items

omit [DecidableEq Address] [DecidableEq Data] in
theorem Related.holds {limit : Int} {state : State Address Data} {items : List Data}
    (related : Related limit state items) : Holds limit state items := by
  rcases related with ⟨-, limited, refused, entries, held, isItems⟩
  have sameLength : items.length = entries.length := by rw [← isItems, List.length_map]
  have length : state.queue.length = (entries.length : Int) := held.length
  have head : state.queue.head = headOr none entries := held.head
  have tail : state.queue.tail = lastOr none entries := held.tail
  constructor
  · rw [sameLength, head, follow_next held.segment, Option.map_some, isItems]
  · rw [sameLength, tail, follow_previous held.segment, Option.map_some, List.map_reverse, isItems]
  · omega
  · intro notNegative
    have atMost := limited notNegative
    omega
  · exact refused

theorem step_simulated {limit : Int} {state : State Address Data} {items : List Data}
    {call : Call Address Data} (related : Related limit state items)
    (fresh : FreshNode state call) :
    ∃ next, step state call = some ((modelStep limit items call).1, next) ∧
      Related limit next (modelStep limit items call).2 := by
  rcases related with ⟨isLimit, limited, refused, entries, held, isItems⟩
  have sameLength : items.length = entries.length := by rw [← isItems, List.length_map]
  have length : state.queue.length = (entries.length : Int) := held.length
  cases call with
  | enqueue address leftover data =>
      by_cases room : (items.length : Int) < limit ∨ limit = -1
      · have hasRoom : state.queue.length < state.queue.limit ∨ state.queue.limit = -1 := by omega
        rcases queueEnqueue_spec held fresh leftover data hasRoom with
          ⟨after, extended, enqueued, keepsLimit, longer⟩
        refine ⟨⟨after, extended⟩, ?_, keepsLimit.trans isLimit, ?_, ?_,
          entries ++ [(address, data)], longer, ?_⟩
        · simp only [step, modelStep, if_pos room, enqueued, Option.map_some]
        · simp only [modelStep, if_pos room, List.length_append, List.length_singleton]
          omega
        · omega
        · simp [modelStep, if_pos room, isItems]
      · have noRoom : ¬(state.queue.length < state.queue.limit ∨ state.queue.limit = -1) := by
          omega
        refine ⟨state, ?_, ?_⟩
        · have unchanged : Function.update state.nodes address none = state.nodes := by
            rw [← show state.nodes address = none from fresh, Function.update_eq_self]
          simp only [step, modelStep, if_neg room, queueEnqueue, if_neg noRoom, Option.map_some,
            Function.update_idem, unchanged]
        · simp only [modelStep, if_neg room]
          exact ⟨isLimit, limited, refused, entries, held, isItems⟩
  | dequeue =>
      cases entries with
      | nil =>
          have noItems : items = [] := isItems.symm
          have noHead : state.queue.head = none := held.head
          refine ⟨state, ?_, ?_⟩
          · simp [step, modelStep, noItems, Queue.dequeue, queueDequeue, noHead]
          · subst noItems
            exact ⟨isLimit, limited, refused, [], held, rfl⟩
      | cons entry rest =>
          rcases queueDequeue_spec held with ⟨after, shortened, dequeued, keepsLimit, shorter⟩
          have isCons : items = entry.2 :: rest.map Prod.snd := isItems.symm
          subst isCons
          refine ⟨⟨after, shortened⟩, ?_, keepsLimit.trans isLimit, ?_, ?_, rest, shorter, rfl⟩
          · simp only [step, modelStep, Queue.dequeue_cons, dequeued, Option.map_some]
          · intro notNegative
            have before := limited notNegative
            simp only [modelStep, Queue.dequeue_cons, List.length_cons] at before ⊢
            omega
          · intro negative
            cases refused negative
  | forceRemove data =>
      rcases queueForceRemove_spec held data with ⟨after, remaining, removed, keepsLimit, final⟩
      have isFiltered : (entries.filter fun entry => entry.2 ≠ data).map Prod.snd =
          Queue.forceRemove items data := by
        rw [← isItems, Queue.forceRemove, List.filter_map]
        rfl
      refine ⟨⟨after, remaining⟩, ?_, keepsLimit.trans isLimit, ?_, ?_, _, final, isFiltered⟩
      · simp only [step, modelStep, removed, Option.map_some]
      · intro notNegative
        have fewer : (Queue.forceRemove items data).length ≤ items.length :=
          List.length_filter_le _ _
        have before := limited notNegative
        simp only [modelStep]
        omega
      · intro negative
        rw [refused negative]
        rfl

/-- Every sequence of calls on a new queue returns what it returns on lists, and leaves the
items of the list in memory. -/
theorem serve_holds (nodes : Nodes Address Data) (limit : Int) (calls : List (Call Address Data))
    (fresh : Guarded step FreshNode ⟨nodes, createQueue limit⟩ calls) :
    ∃ final, serve step ⟨nodes, createQueue limit⟩ calls =
        some ((answer (modelStep limit) [] calls).1, final) ∧
      Holds limit final (answer (modelStep limit) [] calls).2 := by
  have initial : Related limit (⟨nodes, createQueue limit⟩ : State Address Data) [] :=
    ⟨rfl, fun notNegative => notNegative, fun _ => rfl, [], Represents.empty, rfl⟩
  rcases serve_refines (fun _ _ _ => step_simulated) initial fresh with ⟨final, served, related⟩
  exact ⟨final, served, related.holds⟩

end Runs

/-- Three items are put in a queue for two, and taken out again. -/
def overfull : List (Call Nat Nat) :=
  [.enqueue 0 ⟨some 7, some 8, 9⟩ 5, .enqueue 1 ⟨none, none, 0⟩ 6, .enqueue 2 ⟨none, none, 0⟩ 5,
    .forceRemove 6, .dequeue, .dequeue]

theorem serve_holds_overfull :
    Guarded step FreshNode ⟨fun _ => none, createQueue 2⟩ overfull ∧
      ∃ final, serve step ⟨fun _ => none, createQueue 2⟩ overfull =
          some ((answer (modelStep 2) [] overfull).1, final) ∧
        Holds 2 final (answer (modelStep 2) [] overfull).2 :=
  ⟨by decide, serve_holds (fun _ => none) 2 overfull (by decide)⟩

/-- An empty queue is longer than a limit of -2. -/
theorem not_limited :
    ¬∀ (limit : Int) (calls : List (Call Nat Nat)),
      Guarded step FreshNode ⟨fun _ => none, createQueue limit⟩ calls →
        ∃ final, serve step ⟨fun _ => none, createQueue limit⟩ calls =
            some ((answer (modelStep limit) [] calls).1, final) ∧
          Holds limit final (answer (modelStep limit) [] calls).2 ∧
          (final.queue.length ≤ limit ∨ limit = -1) := by
  intro always
  rcases always (-2) [] trivial with ⟨final, served, -, limited⟩
  have isFinal : ⟨fun _ => none, createQueue (-2)⟩ = final :=
    congrArg Prod.snd (Option.some.inj served)
  rw [← isFinal] at limited
  exact absurd limited (by decide)

end Dbos.QueueMemory
