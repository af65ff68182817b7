import Dbos.Foundation.Refinement
import Dbos.Kernel.Util.LinkedList

/-! # Calls on linked lists

The rest of `linked_list.c`, and all of it against lists. -/

namespace Dbos.LinkedList

variable {Address Data : Type} [DecidableEq Address]

section Operations

variable (nodes : Nodes Address Data)

/-- The loops that follow `next` a number of times. -/
def advance : Nat → Option Address → Option (Option Address)
  | 0, here => some here
  | _ + 1, none => none
  | count + 1, some here => (nodes here).bind fun node => advance count node.next

/-- `linked_list_insert_at_index` for an index that is not negative, where `address` is the
node that `create_node` returns. -/
def linkedListInsertAtIndex (list : LnkLst Address) (address : Address) (data : Data)
    (index : Nat) : Option (Nodes Address Data × LnkLst Address) :=
  let nodes := Function.update nodes address (some ⟨none, none, data⟩)
  if index = 0 then
    if list.listLength = 0 then
      some (nodes, ⟨some address, some address, list.listLength + 1⟩)
    else do
      let nodes ← setPrevious nodes address none
      let nodes ← setNext nodes address list.listHead
      let head ← list.listHead
      let nodes ← setPrevious nodes head (some address)
      return (nodes, { list with listHead := some address, listLength := list.listLength + 1 })
  else if list.listLength ≤ index then do
    let tail ← list.listTail
    let nodes ← setNext nodes tail (some address)
    let nodes ← setPrevious nodes address (some tail)
    let nodes ← setNext nodes address none
    return (nodes, { list with listTail := some address, listLength := list.listLength + 1 })
  else do
    let tmpNode ← (← advance nodes index list.listHead)
    let previous ← (← nodes tmpNode).previous
    let nodes ← setNext nodes previous (some address)
    let nodes ← setPrevious nodes address (some previous)
    let nodes ← setNext nodes address (some tmpNode)
    let nodes ← setPrevious nodes tmpNode (some address)
    return (nodes, { list with listLength := list.listLength + 1 })

/-- The loop of `linked_list_get_at`, when `i` has been counted up from 0. -/
def getFrom (index : Int) : Nat → Int → Option Address → Option (Option Address)
  | 0, _, _ => none
  | _ + 1, _, none => some none
  | fuel + 1, i, some tmp =>
      if 0 ≤ index then
        if index = i then some (some tmp)
        else (nodes tmp).bind fun node => getFrom index fuel (i + 1) node.next
      else some none

def linkedListGetAt (list : LnkLst Address) (index : Int) : Option (Option Address) :=
  getFrom nodes index list.rounds 0 list.listHead

/-- `linked_list_remove` for any pointer. -/
def linkedListRemovePointer (list : LnkLst Address) :
    Option Address → Option (Nodes Address Data × LnkLst Address)
  | none => some (nodes, list)
  | some address => linkedListRemove nodes list address

/-- `linked_list_remove_at_index` for an index that is not negative. -/
def linkedListRemoveAtIndex (list : LnkLst Address) (index : Nat) :
    Option (Nodes Address Data × LnkLst Address) :=
  if index < list.listLength then
    (advance nodes index list.listHead).bind fun head => linkedListRemovePointer nodes list head
  else some (nodes, list)

end Operations

/-! ## The operations on lists in memory -/

section Specifications

variable {nodes : Nodes Address Data} {list : LnkLst Address}
  {entries left right : List (Address × Data)} {address : Address} {data : Data}

omit [DecidableEq Address] in
theorem advance_segment {previous next : Option Address}
    (segment : Segment nodes previous (left ++ right) next) :
    advance nodes left.length (headOr next (left ++ right)) = some (headOr next right) := by
  induction left generalizing previous with
  | nil => rfl
  | cons entry left induction =>
      rw [List.cons_append, headOr, List.length_cons, advance, segment.1, Option.bind_some]
      exact induction segment.2

omit [DecidableEq Address] in
theorem getFrom_segment {previous : Option Address} {index i : Int} {fuel : Nat}
    (segment : Segment nodes previous entries none) (enough : entries.length < fuel)
    (counted : 0 ≤ i) :
    getFrom nodes index fuel i (headOr none entries) =
      some (if i ≤ index then (entries[(index - i).toNat]?).map Prod.fst else none) := by
  induction entries generalizing previous fuel i with
  | nil =>
      cases fuel with
      | zero => cases enough
      | succ fuel => simp [getFrom, headOr]
  | cons entry rest induction =>
      cases fuel with
      | zero => cases enough
      | succ fuel =>
          rw [headOr, getFrom]
          have later := induction (i := i + 1) segment.2 (Nat.lt_of_succ_lt_succ enough) (by omega)
          by_cases negative : 0 ≤ index
          · rw [if_pos negative]
            by_cases here : index = i
            · rw [if_pos here, if_pos (by omega), here, Int.sub_self]
              rfl
            · rw [if_neg here, segment.1, Option.bind_some, later]
              by_cases further : i ≤ index
              · rw [if_pos further, if_pos (by omega),
                  show (index - i).toNat = (index - (i + 1)).toNat + 1 by omega,
                  List.getElem?_cons_succ]
              · rw [if_neg further, if_neg (by omega)]
          · rw [if_neg negative, if_neg (by omega)]

omit [DecidableEq Address] in
theorem Represents.notMem_of_fresh (held : Represents nodes list entries)
    (fresh : nodes address = none) : address ∉ entries.map Prod.fst := by
  intro member
  rcases List.mem_map.mp member with ⟨entry, inEntries, isAddress⟩
  rcases held.segment.allocated inEntries with ⟨node, allocated, -⟩
  rw [isAddress, fresh] at allocated
  cases allocated

omit [DecidableEq Address] in
theorem exists_split {index : Nat} (inside : index < entries.length) :
    ∃ left entry right, entries = left ++ entry :: right ∧ left.length = index := by
  refine ⟨entries.take index, entries.get ⟨index, inside⟩, entries.drop (index + 1), ?_, ?_⟩
  · rw [List.get_eq_getElem, List.getElem_cons_drop, List.take_append_drop]
  · rw [List.length_take, Nat.min_eq_left (Nat.le_of_lt inside)]

theorem insertAtIndex_front {first : Address × Data} {later : List (Address × Data)}
    (held : Represents nodes list (first :: later)) (fresh : nodes address = none) (data : Data) :
    ∃ after extended, linkedListInsertAtIndex nodes list address data 0 = some (after, extended) ∧
      Represents after extended ((address, data) :: first :: later) := by
  have notMember := held.notMem_of_fresh fresh
  have newest : first.1 ≠ address := fun same => notMember (by simp [← same])
  have notEmpty : ¬list.listLength = 0 := by
    rw [held.length, List.length_cons]
    omega
  have head : list.listHead = some first.1 := held.head
  have atFirst : nodes first.1 = some ⟨none, headOr none later, first.2⟩ := held.segment.1
  have whole : Represents nodes list ([] ++ first :: later) := held
  refine ⟨Function.update (Function.update nodes address (some ⟨none, some first.1, data⟩)) first.1
    (some ⟨some address, headOr none later, first.2⟩),
    { list with listHead := some address, listLength := list.listLength + 1 }, ?_, ?_⟩
  · have found : Function.update nodes address (some ⟨none, some first.1, data⟩) first.1 =
        some ⟨none, headOr none later, first.2⟩ := by
      rw [Function.update_of_ne newest, atFirst]
    simp only [linkedListInsertAtIndex, if_true, if_neg notEmpty, head, Option.bind_eq_bind,
      Option.bind_some, setPrevious_of_some (Function.update_self ..), Function.update_idem,
      setNext_of_some (Function.update_self ..), setPrevious_of_some found, Option.pure_def]
  · have tail : list.listTail = lastOr none ([] ++ (address, data) :: first :: later) := held.tail
    rw [tail]
    apply whole.splice notMember
    · intro earlier last isConcat
      simp at isConcat
    · rw [Function.update_of_ne newest.symm, Function.update_self]
      rfl
    · intro one rest isCons
      cases isCons
      exact Function.update_self ..
    · intro place member _ notFirst
      have notNew : place ≠ address := fun same => notMember (same ▸ member)
      rw [Function.update_of_ne fun same => notFirst (congrArg some same),
        Function.update_of_ne notNew]

theorem insertAtIndex_back {last : Address × Data}
    (held : Represents nodes list (left ++ [last])) (fresh : nodes address = none) (data : Data)
    {index : Nat} (behind : left.length + 1 ≤ index) :
    ∃ after extended,
      linkedListInsertAtIndex nodes list address data index = some (after, extended) ∧
      Represents after extended (left ++ [last] ++ [(address, data)]) := by
  have notMember := held.notMem_of_fresh fresh
  have newest : last.1 ≠ address := fun same => notMember (by simp [← same])
  have beyond : list.listLength ≤ index := by
    rw [held.length, List.length_append, List.length_singleton]
    omega
  have tail : list.listTail = some last.1 := by
    rw [held.tail, lastOr_append]
    rfl
  have atLast : nodes last.1 = some ⟨lastOr none left, none, last.2⟩ := held.segment.at
  refine ⟨Function.update (Function.update nodes last.1
      (some ⟨lastOr none left, some address, last.2⟩)) address (some ⟨some last.1, none, data⟩),
    ⟨list.listHead, some address, list.listLength + 1⟩, ?_, ?_⟩
  · have found : Function.update nodes address (some ⟨none, none, data⟩) last.1 =
        some ⟨lastOr none left, none, last.2⟩ := by
      rw [Function.update_of_ne newest, atLast]
    have new : Function.update (Function.update nodes address (some ⟨none, none, data⟩)) last.1
        (some ⟨lastOr none left, some address, last.2⟩) address = some ⟨none, none, data⟩ := by
      rw [Function.update_of_ne newest.symm, Function.update_self]
    simp only [linkedListInsertAtIndex, show index ≠ 0 by omega, if_false, if_pos beyond, tail,
      Option.bind_eq_bind, Option.bind_some, setNext_of_some found, setPrevious_of_some new,
      setNext_of_some (Function.update_self ..), Function.update_idem, Option.pure_def]
    rw [Function.update_comm newest.symm, Function.update_idem]
  · apply held.extend notMember
    · rw [Function.update_of_ne newest, Function.update_self]
    · exact Function.update_self ..
    · intro place notLast notNew
      rw [Function.update_of_ne notNew, Function.update_of_ne notLast]

section Between

variable {last first : Address × Data} {later : List (Address × Data)}

/-- The nodes after an insertion between two others. -/
def insertedBetween (nodes : Nodes Address Data) (left later : List (Address × Data))
    (last first : Address × Data) (address : Address) (data : Data) : Nodes Address Data :=
  Function.update (Function.update (Function.update nodes last.1
    (some ⟨lastOr none left, some address, last.2⟩)) address
    (some ⟨some last.1, some first.1, data⟩)) first.1
    (some ⟨some address, headOr none later, first.2⟩)

omit [DecidableEq Address] in
theorem ne_between (held : Represents nodes list (left ++ [last] ++ first :: later))
    (fresh : nodes address = none) :
    last.1 ≠ address ∧ first.1 ≠ address ∧ last.1 ≠ first.1 := by
  have notMember := held.notMem_of_fresh fresh
  have distinct : ((left ++ [last]).map Prod.fst ++ (first :: later).map Prod.fst).Nodup := by
    rw [← List.map_append]
    exact held.nodup
  exact ⟨fun same => notMember (by simp [← same]), fun same => notMember (by simp [← same]),
    (List.nodup_append.mp distinct).2.2 last.1 (by simp) first.1 (by simp)⟩

theorem insertAtIndex_between_eq (held : Represents nodes list (left ++ [last] ++ first :: later))
    (fresh : nodes address = none) (data : Data) :
    linkedListInsertAtIndex nodes list address data (left.length + 1) =
      some (insertedBetween nodes left later last first address data,
        { list with listLength := list.listLength + 1 }) := by
  have notMember := held.notMem_of_fresh fresh
  rcases ne_between held fresh with ⟨lastOld, firstOld, apart⟩
  have inside : ¬list.listLength ≤ (left.length + 1 : Nat) := by
    rw [held.length]
    simp only [List.length_append, List.length_cons, List.length_nil]
    omega
  have atLast : nodes last.1 = some ⟨lastOr none left, some first.1, last.2⟩ := by
    have stretch := held.segment
    rw [List.append_assoc] at stretch
    exact stretch.at
  have atFirst : nodes first.1 = some ⟨some last.1, headOr none later, first.2⟩ := by
    have located := held.segment.at
    rwa [lastOr_append] at located
  have kept : Segment (Function.update nodes address (some ⟨none, none, data⟩)) none
      ((left ++ [last]) ++ first :: later) none := by
    apply held.segment.congr
    intro place member
    have notNew : place ≠ address := fun same => notMember (same ▸ member)
    exact Function.update_of_ne notNew _ _
  have reached : advance (Function.update nodes address (some ⟨none, none, data⟩))
      (left.length + 1) list.listHead = some (some first.1) := by
    have advanced := advance_segment kept
    rwa [List.length_append, List.length_singleton, ← held.head] at advanced
  have firstFound : Function.update nodes address (some ⟨none, none, data⟩) first.1 =
      some ⟨some last.1, headOr none later, first.2⟩ := by
    rw [Function.update_of_ne firstOld, atFirst]
  have lastFound : Function.update nodes address (some ⟨none, none, data⟩) last.1 =
      some ⟨lastOr none left, some first.1, last.2⟩ := by
    rw [Function.update_of_ne lastOld, atLast]
  have new : Function.update (Function.update nodes address (some ⟨none, none, data⟩)) last.1
      (some ⟨lastOr none left, some address, last.2⟩) address = some ⟨none, none, data⟩ := by
    rw [Function.update_of_ne lastOld.symm, Function.update_self]
  have firstLater : Function.update (Function.update nodes last.1
      (some ⟨lastOr none left, some address, last.2⟩)) address
      (some ⟨some last.1, some first.1, data⟩) first.1 =
        some ⟨some last.1, headOr none later, first.2⟩ := by
    rw [Function.update_of_ne firstOld, Function.update_of_ne apart.symm, atFirst]
  simp only [linkedListInsertAtIndex, Nat.succ_ne_zero, if_false, if_neg inside, reached,
    Option.bind_eq_bind, Option.bind_some, firstFound, setNext_of_some lastFound,
    setPrevious_of_some new, setNext_of_some (Function.update_self ..), Function.update_idem,
    Option.pure_def]
  rw [Function.update_comm lastOld.symm, Function.update_idem,
    setPrevious_of_some firstLater, Option.bind_some]
  rfl

theorem represents_insertedBetween
    (held : Represents nodes list (left ++ [last] ++ first :: later))
    (fresh : nodes address = none) (data : Data) :
    Represents (insertedBetween nodes left later last first address data)
      { list with listLength := list.listLength + 1 }
      (left ++ [last] ++ (address, data) :: first :: later) := by
  have notMember := held.notMem_of_fresh fresh
  rcases ne_between held fresh with ⟨lastOld, firstOld, apart⟩
  have head : list.listHead =
      headOr none (left ++ [last] ++ (address, data) :: first :: later) := by
    rw [held.head, List.append_assoc, List.append_assoc, headOr_append, headOr_append _ left]
    rfl
  have tail : list.listTail =
      lastOr none (left ++ [last] ++ (address, data) :: first :: later) := by
    rw [held.tail, lastOr_append, lastOr_append _ (left ++ [last])]
    rfl
  rw [head, tail]
  unfold insertedBetween
  apply held.splice notMember
  · intro earlier final isConcat
    rcases List.append_inj' isConcat rfl with ⟨sameEarlier, sameLast⟩
    cases sameEarlier
    cases sameLast
    rw [Function.update_of_ne apart, Function.update_of_ne lastOld, Function.update_self]
  · rw [Function.update_of_ne firstOld.symm, Function.update_self, lastOr_append]
    rfl
  · intro one rest isCons
    cases isCons
    exact Function.update_self ..
  · intro place member notLast notFirst
    have notNew : place ≠ address := fun same => notMember (same ▸ member)
    rw [lastOr_append] at notLast
    rw [Function.update_of_ne fun same => notFirst (congrArg some same),
      Function.update_of_ne notNew, Function.update_of_ne fun same => notLast (congrArg some same)]

end Between

theorem linkedListInsertAtIndex_spec (held : Represents nodes list entries)
    (fresh : nodes address = none) (data : Data) {index : Nat}
    (allowed : index = 0 ∨ entries ≠ []) :
    ∃ after extended,
      linkedListInsertAtIndex nodes list address data index = some (after, extended) ∧
      Represents after extended (entries.take index ++ (address, data) :: entries.drop index) := by
  rcases Nat.lt_or_ge index entries.length with inside | beyond
  · rcases exists_split inside with ⟨left, first, later, isSplit, isIndex⟩
    subst isSplit isIndex
    rw [List.take_left' rfl, List.drop_left' rfl]
    rcases List.eq_nil_or_concat' left with isEmpty | ⟨earlier, last, isConcat⟩
    · subst isEmpty
      exact insertAtIndex_front held fresh data
    · subst isConcat
      rw [List.length_append, List.length_singleton]
      exact ⟨_, _, insertAtIndex_between_eq held fresh data,
        represents_insertedBetween held fresh data⟩
  · rw [List.take_of_length_le beyond, List.drop_eq_nil_of_le beyond]
    rcases List.eq_nil_or_concat' entries with isEmpty | ⟨left, last, isConcat⟩
    · have isZero : index = 0 := allowed.resolve_right (fun notEmpty => notEmpty isEmpty)
      subst isEmpty isZero
      have noNodes : list.listLength = 0 := held.length
      refine ⟨_, _, by rw [linkedListInsertAtIndex, if_pos rfl, if_pos noNodes], ?_⟩
      constructor
      · exact ⟨Function.update_self .., trivial⟩
      · rfl
      · rfl
      · rw [noNodes]
        rfl
      · exact List.nodup_singleton _
    · subst isConcat
      exact insertAtIndex_back held fresh data (by simpa using beyond)

theorem linkedListRemove_of_notMem (held : Represents nodes list entries)
    (absent : address ∉ entries.map Prod.fst) :
    linkedListRemove nodes list address = some (nodes, list) := by
  have notFound : entries.find? (fun entry => decide (entry.1 = address)) = none := by
    rw [List.find?_eq_none]
    intro entry member same
    exact absent (of_decide_eq_true same ▸ List.mem_map_of_mem member)
  rw [linkedListRemove, held.head, search_segment _ held.segment (by rw [held.rounds_eq]; omega),
    notFound, Option.bind_some, Option.map_none, if_neg (by simp)]

theorem linkedListRemovePointer_spec (held : Represents nodes list entries)
    (pointer : Option Address) :
    ∃ after shortened, linkedListRemovePointer nodes list pointer = some (after, shortened) ∧
      Represents after shortened (entries.filter fun entry => some entry.1 ≠ pointer) := by
  cases pointer with
  | none => exact ⟨nodes, list, rfl, by simpa using held⟩
  | some address =>
      rw [linkedListRemovePointer]
      by_cases member : address ∈ entries.map Prod.fst
      · rcases List.mem_map.mp member with ⟨entry, inEntries, isAddress⟩
        rcases List.append_of_mem inEntries with ⟨left, right, isSplit⟩
        subst isSplit isAddress
        rcases linkedListRemove_spec held with ⟨after, shortened, removed, shorter, -, -⟩
        refine ⟨after, shortened, removed, ?_⟩
        have distinct : (left.map Prod.fst ++ entry.1 :: right.map Prod.fst).Nodup := by
          simpa using held.nodup
        have apart := List.nodup_append.mp distinct
        have keepsLeft : left.filter (fun other => some other.1 ≠ some entry.1) = left := by
          rw [List.filter_eq_self]
          intro other inLeft
          have different := apart.2.2 other.1 (List.mem_map_of_mem inLeft) entry.1 (by simp)
          simpa using different
        have keepsRight : right.filter (fun other => some other.1 ≠ some entry.1) = right := by
          rw [List.filter_eq_self]
          intro other inRight
          have notHere := (List.nodup_cons.mp apart.2.1).1
          have different : other.1 ≠ entry.1 :=
            fun same => notHere (same ▸ List.mem_map_of_mem inRight)
          simpa using different
        rw [List.filter_append, List.filter_cons_of_neg (by simp), keepsLeft, keepsRight]
        exact shorter
      · have keepsAll : entries.filter (fun entry => some entry.1 ≠ some address) = entries := by
          rw [List.filter_eq_self]
          intro entry inEntries
          have different : entry.1 ≠ address :=
            fun same => member (same ▸ List.mem_map_of_mem inEntries)
          simpa using different
        rw [keepsAll]
        exact ⟨nodes, list, linkedListRemove_of_notMem held member, held⟩

theorem linkedListRemoveAtIndex_spec (held : Represents nodes list entries) (index : Nat) :
    ∃ after shortened, linkedListRemoveAtIndex nodes list index = some (after, shortened) ∧
      Represents after shortened (entries.eraseIdx index) := by
  unfold linkedListRemoveAtIndex
  rw [held.length]
  rcases Nat.lt_or_ge index entries.length with inside | beyond
  · rw [if_pos (Int.ofNat_lt.mpr inside)]
    rcases exists_split inside with ⟨left, entry, right, isSplit, isIndex⟩
    subst isSplit isIndex
    have reached := advance_segment held.segment
    rw [held.head, reached, Option.bind_some]
    rcases linkedListRemove_spec held with ⟨after, shortened, removed, shorter, -, -⟩
    refine ⟨after, shortened, removed, ?_⟩
    rw [List.eraseIdx_append_of_length_le (Nat.le_refl _), Nat.sub_self]
    exact shorter
  · rw [if_neg (by omega), List.eraseIdx_of_length_le beyond]
    exact ⟨nodes, list, rfl, held⟩

omit [DecidableEq Address] in
theorem linkedListGetAt_spec (held : Represents nodes list entries) (index : Int) :
    linkedListGetAt nodes list index =
      some (if 0 ≤ index then (entries[index.toNat]?).map Prod.fst else none) := by
  rw [linkedListGetAt, held.head, getFrom_segment held.segment (by rw [held.rounds_eq]; omega)
    (Int.le_refl 0), Int.sub_zero]

omit [DecidableEq Address] in
theorem linkedListFind_eq [DecidableEq Data] (held : Represents nodes list entries)
    (data : Data) :
    linkedListFind nodes list data =
      some ((entries.find? fun entry => entry.2 = data).map Prod.fst) := by
  rw [linkedListFind, held.head, search_segment _ held.segment (by rw [held.rounds_eq]; omega)]

end Specifications

end Dbos.LinkedList

namespace Dbos.LinkedListCalls

open Dbos.LinkedList Dbos.Refinement

variable {Address Data : Type} [DecidableEq Address]

/-! ## Sequences of calls -/

/-- The calls with non-`NULL` data. A call that puts data in has got a node from
`create_node`. -/
inductive Call (Address Data : Type) where
  | append (address : Address) (data : Data)
  | insertAtIndex (address : Address) (data : Data) (index : Nat)
  | remove (pointer : Option Address)
  | removeAtIndex (index : Nat)
  | getAt (index : Int)
  | find (data : Data)
deriving DecidableEq, Repr

/-- The memory and the list. -/
structure State (Address Data : Type) where
  nodes : Nodes Address Data
  list : LnkLst Address

section Runs

variable [DecidableEq Data]

/-- A call, with the node that it returns. -/
def step (state : State Address Data) :
    Call Address Data → Option (Option Address × State Address Data)
  | .append address data =>
      (linkedListAppend state.nodes state.list address data).map
        fun (nodes, list) => (some address, ⟨nodes, list⟩)
  | .insertAtIndex address data index =>
      (linkedListInsertAtIndex state.nodes state.list address data index).map
        fun (nodes, list) => (some address, ⟨nodes, list⟩)
  | .remove pointer =>
      (linkedListRemovePointer state.nodes state.list pointer).map
        fun (nodes, list) => (none, ⟨nodes, list⟩)
  | .removeAtIndex index =>
      (linkedListRemoveAtIndex state.nodes state.list index).map
        fun (nodes, list) => (none, ⟨nodes, list⟩)
  | .getAt index =>
      (linkedListGetAt state.nodes state.list index).map fun pointer => (pointer, state)
  | .find data => (linkedListFind state.nodes state.list data).map fun pointer => (pointer, state)

/-- `kern_malloc` returns a block that is not in use, and only at index 0 are data put in an
empty list. -/
def Allowed (state : State Address Data) : Call Address Data → Prop
  | .append address _ => state.nodes address = none
  | .insertAtIndex address _ index =>
      state.nodes address = none ∧ (index = 0 ∨ state.list.listLength ≠ 0)
  | _ => True

instance (state : State Address Data) (call : Call Address Data) :
    Decidable (Allowed state call) :=
  match call with
  | .append address _ => inferInstanceAs (Decidable (state.nodes address = none))
  | .insertAtIndex address _ index =>
      inferInstanceAs (Decidable (state.nodes address = none ∧
        (index = 0 ∨ state.list.listLength ≠ 0)))
  | .remove _ => .isTrue trivial
  | .removeAtIndex _ => .isTrue trivial
  | .getAt _ => .isTrue trivial
  | .find _ => .isTrue trivial

/-- The calls on the list of the nodes with their data. -/
def modelStep (entries : List (Address × Data)) :
    Call Address Data → Option Address × List (Address × Data)
  | .append address data => (some address, entries ++ [(address, data)])
  | .insertAtIndex address data index =>
      (some address, entries.take index ++ (address, data) :: entries.drop index)
  | .remove pointer => (none, entries.filter fun entry => some entry.1 ≠ pointer)
  | .removeAtIndex index => (none, entries.eraseIdx index)
  | .getAt index => (if 0 ≤ index then (entries[index.toNat]?).map Prod.fst else none, entries)
  | .find data => ((entries.find? fun entry => entry.2 = data).map Prod.fst, entries)

/-- The nodes are met in order from the head and in the opposite order from the tail, each
once, and their number is counted. -/
structure Holds (state : State Address Data) (entries : List (Address × Data)) : Prop where
  forward : follow Node.next state.nodes (entries.length + 1) state.list.listHead = some entries
  backward : follow Node.previous state.nodes (entries.length + 1) state.list.listTail =
    some entries.reverse
  length : state.list.listLength = entries.length
  distinct : (entries.map Prod.fst).Nodup

omit [DecidableEq Address] [DecidableEq Data] in
theorem holds_of_represents {state : State Address Data} {entries : List (Address × Data)}
    (held : Represents state.nodes state.list entries) : Holds state entries := by
  constructor
  · rw [held.head, follow_next held.segment]
  · rw [held.tail, follow_previous held.segment]
  · exact held.length
  · exact held.nodup

theorem step_simulated {state : State Address Data} {entries : List (Address × Data)}
    {call : Call Address Data} (held : Represents state.nodes state.list entries)
    (allowed : Allowed state call) :
    ∃ next, step state call = some ((modelStep entries call).1, next) ∧
      Represents next.nodes next.list (modelStep entries call).2 := by
  cases call with
  | append address data =>
      rcases linkedListAppend_spec held (held.notMem_of_fresh allowed) data with
        ⟨after, extended, appended, longer, -⟩
      exact ⟨⟨after, extended⟩, by simp only [step, appended, Option.map_some, modelStep], longer⟩
  | insertAtIndex address data index =>
      have notEmpty : index = 0 ∨ entries ≠ [] := by
        apply allowed.2.imp_right
        intro counted isEmpty
        apply counted
        rw [held.length, isEmpty]
        rfl
      rcases linkedListInsertAtIndex_spec held allowed.1 data notEmpty with
        ⟨after, extended, inserted, longer⟩
      exact ⟨⟨after, extended⟩, by simp only [step, inserted, Option.map_some, modelStep], longer⟩
  | remove pointer =>
      rcases linkedListRemovePointer_spec held pointer with ⟨after, shortened, removed, shorter⟩
      exact ⟨⟨after, shortened⟩, by simp only [step, removed, Option.map_some, modelStep], shorter⟩
  | removeAtIndex index =>
      rcases linkedListRemoveAtIndex_spec held index with ⟨after, shortened, removed, shorter⟩
      exact ⟨⟨after, shortened⟩, by simp only [step, removed, Option.map_some, modelStep], shorter⟩
  | getAt index =>
      refine ⟨state, ?_, held⟩
      simp only [step, linkedListGetAt_spec held, Option.map_some, modelStep]
  | find data =>
      refine ⟨state, ?_, held⟩
      simp only [step, linkedListFind_eq held, Option.map_some, modelStep]

/-- Every sequence of calls on a new list returns what it returns on lists, and leaves the
nodes of the list in memory. -/
theorem serve_represents (nodes : Nodes Address Data) (calls : List (Call Address Data))
    (allowed : Guarded step Allowed ⟨nodes, linkedListCreate⟩ calls) :
    ∃ final, serve step ⟨nodes, linkedListCreate⟩ calls =
        some ((answer modelStep [] calls).1, final) ∧
      Holds final (answer modelStep [] calls).2 := by
  have initial : Represents nodes linkedListCreate [] := Represents.empty
  have simulated : ∀ (state : State Address Data) entries call,
      Represents state.nodes state.list entries → Allowed state call →
        ∃ next, step state call = some ((modelStep entries call).1, next) ∧
          Represents next.nodes next.list (modelStep entries call).2 :=
    fun _ _ _ => step_simulated
  rcases @serve_refines _ _ _ _ step Allowed modelStep
    (fun state entries => Represents state.nodes state.list entries) simulated
    ⟨nodes, linkedListCreate⟩ [] calls initial allowed with ⟨final, served, held⟩
  exact ⟨final, served, holds_of_represents held⟩

end Runs

/-- Nodes are put in front, in the middle and at the end, and removed again. -/
def manyCalls : List (Call Nat Nat) :=
  [.append 0 10, .append 1 11, .insertAtIndex 2 12 1, .insertAtIndex 3 13 0,
    .insertAtIndex 4 14 9, .getAt 2, .remove (some 2), .removeAtIndex 3, .removeAtIndex 7,
    .remove (some 2), .find 11, .removeAtIndex 0]

theorem serve_represents_manyCalls :
    Guarded step Allowed ⟨fun _ => none, linkedListCreate⟩ manyCalls ∧
      ∃ final, serve step ⟨fun _ => none, linkedListCreate⟩ manyCalls =
          some ((answer modelStep [] manyCalls).1, final) ∧
        Holds final (answer modelStep [] manyCalls).2 :=
  ⟨by decide, serve_represents (fun _ => none) manyCalls (by decide)⟩

end Dbos.LinkedListCalls
