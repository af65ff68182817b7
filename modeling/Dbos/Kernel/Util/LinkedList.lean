import Mathlib.Data.List.Induction
import Mathlib.Data.List.Nodup
import Mathlib.Logic.Function.Basic

/-! # Linked lists

`linked_list.c` on the level of its pointers. The nodes that are allocated are a
partial map from addresses; following a `NULL` pointer or one to a freed node is
`none`, and so is a loop that does not come to an end within the number of nodes
the list counts. Where an operation allocates a node, the address that
`kern_malloc` returns is an argument. -/

namespace Dbos.LinkedList

/-- `lnk_lst_node_t`. -/
structure Node (Address Data : Type) where
  previous : Option Address
  next : Option Address
  data : Data
deriving DecidableEq, Repr

/-- `lnk_lst_t`. -/
structure LnkLst (Address : Type) where
  listHead : Option Address
  listTail : Option Address
  listLength : Int
deriving DecidableEq, Repr

/-- The nodes that are allocated, with their contents. -/
abbrev Nodes (Address Data : Type) := Address → Option (Node Address Data)

variable {Address Data : Type} [DecidableEq Address]

section Operations

variable (nodes : Nodes Address Data)

/-- `node->next = next`. -/
def setNext (address : Address) (next : Option Address) : Option (Nodes Address Data) :=
  (nodes address).map fun node =>
    Function.update nodes address (some { node with next := next })

/-- `node->previous = previous`. -/
def setPrevious (address : Address) (previous : Option Address) :
    Option (Nodes Address Data) :=
  (nodes address).map fun node =>
    Function.update nodes address (some { node with previous := previous })

def linkedListCreate : LnkLst Address := ⟨none, none, 0⟩

/-- `linked_list_append`, where `address` is the node that `create_node` returns. -/
def linkedListAppend (list : LnkLst Address) (address : Address) (data : Data) :
    Option (Nodes Address Data × LnkLst Address) :=
  let nodes := Function.update nodes address (some ⟨none, none, data⟩)
  if list.listLength = 0 ∧ list.listHead = none then
    some (nodes, ⟨some address, some address, list.listLength + 1⟩)
  else if 0 < list.listLength then
    if list.listHead = list.listTail then do
      let head ← list.listHead
      let nodes ← setNext nodes head (some address)
      let nodes ← setPrevious nodes address (some head)
      let nodes ← setNext nodes address none
      return (nodes, ⟨some head, some address, list.listLength + 1⟩)
    else do
      let tail ← list.listTail
      let nodes ← setNext nodes tail (some address)
      let nodes ← setPrevious nodes address (some tail)
      return (nodes, ⟨list.listHead, some address, list.listLength + 1⟩)
  else some (nodes, { list with listLength := list.listLength + 1 })

/-- The loops that look for a node: the first one from `here` on that is to stop
at, or `NULL`. -/
def search (stop : Address → Data → Bool) : Nat → Option Address → Option (Option Address)
  | 0, _ => none
  | _ + 1, none => some none
  | fuel + 1, some here =>
      (nodes here).bind fun node =>
        if stop here node.data then some (some here) else search stop fuel node.next

/-- A loop over the whole list meets its nodes and the final `NULL`. -/
def LnkLst.rounds (list : LnkLst Address) : Nat := list.listLength.toNat + 1

def linkedListFind [DecidableEq Data] (list : LnkLst Address) (data : Data) :
    Option (Option Address) :=
  search nodes (fun _ other => other = data) list.rounds list.listHead

/-- The second half of `linked_list_remove`, for a node that is on the list. -/
def unlinkNode (list : LnkLst Address) (address : Address) :
    Option (Nodes Address Data × LnkLst Address) := do
  let node ← nodes address
  if list.listHead = some address then
    match node.next with
    | some next =>
        let nodes ← setPrevious nodes next none
        return (Function.update nodes address none,
          { list with listHead := node.next, listLength := list.listLength - 1 })
    | none =>
        return (Function.update nodes address none, ⟨none, none, list.listLength - 1⟩)
  else if list.listTail = some address then
    let previous ← node.previous
    let nodes ← setNext nodes previous none
    return (Function.update nodes address none,
      { list with listTail := node.previous, listLength := list.listLength - 1 })
  else
    let previous ← node.previous
    let next ← node.next
    let nodes ← setNext nodes previous node.next
    let nodes ← setPrevious nodes next node.previous
    return (Function.update nodes address none,
      { list with listLength := list.listLength - 1 })

/-- `linked_list_remove`: a node that is not on the list is left alone. -/
def linkedListRemove (list : LnkLst Address) (address : Address) :
    Option (Nodes Address Data × LnkLst Address) :=
  (search nodes (fun here _ => here = address) list.rounds list.listHead).bind fun found =>
    if found = some address then unlinkNode nodes list address else some (nodes, list)

end Operations

/-- The loop of `linked_list_destroy`. -/
def freeFrom : Nat → Nodes Address Data → Option Address → Option (Nodes Address Data)
  | 0, _, _ => none
  | _ + 1, nodes, none => some nodes
  | fuel + 1, nodes, some here =>
      (nodes here).bind fun node => freeFrom fuel (Function.update nodes here none) node.next

def linkedListDestroy (nodes : Nodes Address Data) (list : LnkLst Address) :
    Option (Nodes Address Data) :=
  freeFrom list.rounds nodes list.listHead

/-! ## Lists in memory -/

/-- The first node of a stretch of a list that is followed by `next`. -/
def headOr (next : Option Address) : List (Address × Data) → Option Address
  | [] => next
  | entry :: _ => some entry.1

/-- The last node of a stretch that follows `previous`. -/
def lastOr (previous : Option Address) : List (Address × Data) → Option Address
  | [] => previous
  | entry :: rest => lastOr (some entry.1) rest

/-- The memory holds a stretch of a list between `previous` and `next`. -/
def Segment (nodes : Nodes Address Data) :
    Option Address → List (Address × Data) → Option Address → Prop
  | _, [], _ => True
  | previous, entry :: rest, next =>
      nodes entry.1 = some ⟨previous, headOr next rest, entry.2⟩ ∧
        Segment nodes (some entry.1) rest next

/-- The memory holds a list with the given nodes and data. -/
structure Represents (nodes : Nodes Address Data) (list : LnkLst Address)
    (entries : List (Address × Data)) : Prop where
  segment : Segment nodes none entries none
  head : list.listHead = headOr none entries
  tail : list.listTail = lastOr none entries
  length : list.listLength = entries.length
  nodup : (entries.map Prod.fst).Nodup

omit [DecidableEq Address] in
theorem headOr_append (next : Option Address) (left right : List (Address × Data)) :
    headOr next (left ++ right) = headOr (headOr next right) left := by
  cases left <;> rfl

omit [DecidableEq Address] in
theorem lastOr_append (previous : Option Address) (left right : List (Address × Data)) :
    lastOr previous (left ++ right) = lastOr (lastOr previous left) right := by
  induction left generalizing previous with
  | nil => rfl
  | cons entry left induction => exact induction (some entry.1)

section Stretches

variable {nodes : Nodes Address Data}

omit [DecidableEq Address] in
theorem segment_append {previous next : Option Address} {left right : List (Address × Data)} :
    Segment nodes previous (left ++ right) next ↔
      Segment nodes previous left (headOr next right) ∧
        Segment nodes (lastOr previous left) right next := by
  induction left generalizing previous with
  | nil => simp [Segment, lastOr]
  | cons entry left induction =>
      simp only [List.cons_append, Segment, lastOr, headOr_append, induction, and_assoc]

omit [DecidableEq Address] in
theorem Segment.congr {other : Nodes Address Data} {entries : List (Address × Data)}
    {previous next : Option Address}
    (same : ∀ address ∈ entries.map Prod.fst, other address = nodes address)
    (segment : Segment nodes previous entries next) : Segment other previous entries next := by
  induction entries generalizing previous with
  | nil => trivial
  | cons entry rest induction =>
      constructor
      · rw [same entry.1 (by simp)]
        exact segment.1
      · exact induction (fun address member => same address (by simp [member])) segment.2

omit [DecidableEq Address] in
theorem Represents.congr {other : Nodes Address Data} {list : LnkLst Address}
    {entries : List (Address × Data)} (held : Represents nodes list entries)
    (same : ∀ address ∈ entries.map Prod.fst, other address = nodes address) :
    Represents other list entries :=
  ⟨held.segment.congr same, held.head, held.tail, held.length, held.nodup⟩

omit [DecidableEq Address] in
theorem Represents.empty : Represents nodes linkedListCreate [] :=
  ⟨trivial, rfl, rfl, rfl, List.nodup_nil⟩

omit [DecidableEq Address] in
theorem Segment.at {previous next : Option Address} {left right : List (Address × Data)}
    {entry : Address × Data} (segment : Segment nodes previous (left ++ entry :: right) next) :
    nodes entry.1 = some ⟨lastOr previous left, headOr next right, entry.2⟩ :=
  (segment_append.mp segment).2.1

omit [DecidableEq Address] in
theorem Segment.allocated {previous next : Option Address} {entries : List (Address × Data)}
    (segment : Segment nodes previous entries next) {entry : Address × Data}
    (member : entry ∈ entries) :
    ∃ node, nodes entry.1 = some node ∧ node.data = entry.2 := by
  rcases List.append_of_mem member with ⟨left, right, split⟩
  rw [split] at segment
  exact ⟨_, segment.at, rfl⟩

end Stretches

/-! ## The operations on lists in memory -/

section Specifications

variable {nodes : Nodes Address Data} {list : LnkLst Address}
  {entries left right : List (Address × Data)} {address : Address} {data : Data}

theorem setNext_of_some {node : Node Address Data} (found : nodes address = some node)
    (next : Option Address) : setNext nodes address next =
      some (Function.update nodes address (some { node with next := next })) := by
  rw [setNext, found, Option.map_some]

theorem setPrevious_of_some {node : Node Address Data} (found : nodes address = some node)
    (previous : Option Address) : setPrevious nodes address previous =
      some (Function.update nodes address (some { node with previous := previous })) := by
  rw [setPrevious, found, Option.map_some]

omit [DecidableEq Address] in
theorem Represents.extend {other : Nodes Address Data} {last : Address × Data}
    (held : Represents nodes list (left ++ [last]))
    (fresh : address ∉ (left ++ [last]).map Prod.fst)
    (atLast : other last.1 = some ⟨lastOr none left, some address, last.2⟩)
    (atNew : other address = some ⟨some last.1, none, data⟩)
    (others : ∀ place, place ≠ last.1 → place ≠ address → other place = nodes place) :
    Represents other ⟨list.listHead, some address, list.listLength + 1⟩
      (left ++ [last] ++ [(address, data)]) := by
  have distinct : (left.map Prod.fst ++ [last.1]).Nodup := by simpa using held.nodup
  have unchanged : ∀ place ∈ left.map Prod.fst, other place = nodes place := by
    intro place member
    apply others
    · intro same
      have apart := (List.nodup_append.mp distinct).2.2 place member last.1 (by simp)
      exact apart same
    · intro same
      exact fresh (by simp [← same, List.mem_map.mp member])
  constructor
  · apply segment_append.mpr
    constructor
    · apply segment_append.mpr
      constructor
      · exact (segment_append.mp held.segment).1.congr unchanged
      · exact ⟨atLast, trivial⟩
    · rw [lastOr_append]
      exact ⟨atNew, trivial⟩
  · rw [held.head, headOr_append, headOr_append, headOr_append]
    rfl
  · rw [lastOr_append]
    rfl
  · have length := held.length
    simp only [List.length_append, List.length_singleton] at length ⊢
    omega
  · rw [List.map_append, List.nodup_append]
    refine ⟨held.nodup, List.nodup_singleton _, ?_⟩
    intro place member new isNew same
    rw [List.map_singleton, List.mem_singleton] at isNew
    rw [same, isNew] at member
    exact fresh member

theorem linkedListAppend_spec (held : Represents nodes list entries)
    (fresh : address ∉ entries.map Prod.fst) (data : Data) :
    ∃ after extended, linkedListAppend nodes list address data = some (after, extended) ∧
      Represents after extended (entries ++ [(address, data)]) ∧
      ∀ place, place ≠ address → place ∉ entries.map Prod.fst → after place = nodes place := by
  rcases List.eq_nil_or_concat' entries with isEmpty | ⟨left, last, isConcat⟩
  · subst isEmpty
    have noNodes : list.listLength = 0 ∧ list.listHead = none := ⟨held.length, held.head⟩
    refine ⟨_, _, by rw [linkedListAppend, if_pos noNodes], ?_, ?_⟩
    · constructor
      · exact ⟨Function.update_self .., trivial⟩
      · rfl
      · rfl
      · rw [noNodes.1]
        rfl
      · exact List.nodup_singleton _
    · intro place different _
      exact Function.update_of_ne different _ _
  · subst isConcat
    have newest : last.1 ≠ address := fun same => fresh (by simp [← same])
    have positive : 0 < list.listLength := by
      rw [held.length]
      simp
    have notEmpty : ¬(list.listLength = 0 ∧ list.listHead = none) := by omega
    have isTail : list.listTail = some last.1 := by
      rw [held.tail, lastOr_append]
      rfl
    have atLast : nodes last.1 = some ⟨lastOr none left, none, last.2⟩ := held.segment.at
    have found : Function.update nodes address (some ⟨none, none, data⟩) last.1 =
        some ⟨lastOr none left, none, last.2⟩ := by
      rw [Function.update_of_ne newest, atLast]
    have listHead : list.listHead = list.listTail → list.listHead = some last.1 :=
      fun same => same.trans isTail
    -- Both branches leave the same nodes behind.
    have appended : linkedListAppend nodes list address data = some
        (Function.update (Function.update (Function.update nodes address
            (some ⟨none, none, data⟩)) last.1 (some ⟨lastOr none left, some address, last.2⟩))
          address (some ⟨some last.1, none, data⟩),
          ⟨list.listHead, some address, list.listLength + 1⟩) := by
      have linked := setNext_of_some found (some address)
      have new : Function.update (Function.update nodes address (some ⟨none, none, data⟩)) last.1
          (some ⟨lastOr none left, some address, last.2⟩) address =
          some ⟨none, none, data⟩ := by
        rw [Function.update_of_ne newest.symm, Function.update_self]
      rw [linkedListAppend, if_neg notEmpty, if_pos positive]
      split
      case isTrue same =>
        simp only [listHead same, Option.bind_eq_bind, Option.bind_some, linked,
          setPrevious_of_some new, setNext_of_some (Function.update_self ..), Option.pure_def,
          Function.update_idem]
      case isFalse =>
        simp only [isTail, Option.bind_eq_bind, Option.bind_some, linked,
          setPrevious_of_some new, Option.pure_def]
    refine ⟨_, _, appended, ?_, ?_⟩
    · apply held.extend fresh
      · rw [Function.update_of_ne newest, Function.update_self]
      · exact Function.update_self ..
      · intro place notLast notNew
        rw [Function.update_of_ne notNew, Function.update_of_ne notLast,
          Function.update_of_ne notNew]
    · intro place notNew notMember
      have notLast : place ≠ last.1 := fun same => notMember (by simp [same])
      rw [Function.update_of_ne notNew, Function.update_of_ne notLast,
        Function.update_of_ne notNew]

omit [DecidableEq Address] in
theorem search_segment {previous : Option Address} (stop : Address → Data → Bool) {fuel : Nat}
    (segment : Segment nodes previous entries none) (enough : entries.length < fuel) :
    search nodes stop fuel (headOr none entries) =
      some ((entries.find? fun entry => stop entry.1 entry.2).map Prod.fst) := by
  induction entries generalizing previous fuel with
  | nil =>
      cases fuel with
      | zero => cases enough
      | succ fuel => rfl
  | cons entry rest induction =>
      cases fuel with
      | zero => cases enough
      | succ fuel =>
          rw [headOr, search, segment.1, Option.bind_some, List.find?_cons]
          split
          case isTrue stops => simp [stops]
          case isFalse goesOn =>
            have later := induction segment.2 (by simpa using enough)
            simp only [goesOn, later]

omit [DecidableEq Address] in
theorem Represents.rounds_eq (held : Represents nodes list entries) :
    list.rounds = entries.length + 1 := by
  rw [LnkLst.rounds, held.length, Int.toNat_natCast]

omit [DecidableEq Address] in
theorem linkedListFind_spec [DecidableEq Data]
    (held : Represents nodes list (left ++ (address, data) :: right))
    (first : ∀ entry ∈ left, entry.2 ≠ data) :
    linkedListFind nodes list data = some (some address) := by
  have unmatched : left.find? (fun entry => decide (entry.2 = data)) = none := by
    rw [List.find?_eq_none]
    intro entry member
    simpa using first entry member
  rw [linkedListFind, held.head, search_segment _ held.segment (by rw [held.rounds_eq]; omega),
    List.find?_append, unmatched, Option.none_or, List.find?_cons]
  simp

omit [DecidableEq Address] in
theorem exists_lastOr {previous : Option Address} (nonempty : entries ≠ []) :
    ∃ entry ∈ entries, lastOr previous entries = some entry.1 := by
  rcases List.eq_nil_or_concat' entries with isEmpty | ⟨left, last, isConcat⟩
  · exact absurd isEmpty nonempty
  · refine ⟨last, by simp [isConcat], ?_⟩
    rw [isConcat, lastOr_append]
    rfl

omit [DecidableEq Address] in
theorem Segment.withNext {other : Nodes Address Data} {previous next newNext : Option Address}
    (segment : Segment nodes previous left next) (distinct : (left.map Prod.fst).Nodup)
    (before : ∀ earlier last, left = earlier ++ [last] →
      other last.1 = some ⟨lastOr previous earlier, newNext, last.2⟩)
    (others : ∀ place ∈ left.map Prod.fst, some place ≠ lastOr none left →
      other place = nodes place) : Segment other previous left newNext := by
  rcases List.eq_nil_or_concat' left with isEmpty | ⟨earlier, last, isConcat⟩
  · rw [isEmpty]
    trivial
  · rw [isConcat] at segment distinct ⊢
    rw [List.map_append] at distinct
    apply segment_append.mpr
    refine ⟨(segment_append.mp segment).1.congr ?_, before earlier last isConcat, trivial⟩
    intro place member
    have apart := (List.nodup_append.mp distinct).2.2 place member last.1 (by simp)
    apply others place
    · rw [isConcat, List.map_append]
      exact List.mem_append_left _ member
    · rw [isConcat, lastOr_append]
      exact fun same => apart (Option.some.inj same)

omit [DecidableEq Address] in
theorem Segment.withPrevious {other : Nodes Address Data}
    {previous newPrevious next : Option Address} (segment : Segment nodes previous right next)
    (distinct : (right.map Prod.fst).Nodup)
    (behind : ∀ first later, right = first :: later →
      other first.1 = some ⟨newPrevious, headOr next later, first.2⟩)
    (others : ∀ place ∈ right.map Prod.fst, some place ≠ headOr none right →
      other place = nodes place) : Segment other newPrevious right next := by
  cases right with
  | nil => trivial
  | cons first later =>
      refine ⟨behind first later rfl, segment.2.congr ?_⟩
      intro place member
      have notFirst := (List.nodup_cons.mp distinct).1
      apply others place (List.mem_cons_of_mem _ member)
      intro same
      exact notFirst (Option.some.inj same ▸ member)

omit [DecidableEq Address] in
theorem lastOr_ne_headOr {place : Address} (distinct : ((left ++ right).map Prod.fst).Nodup) :
    (place ∈ left.map Prod.fst → some place ≠ headOr none right) ∧
      (place ∈ right.map Prod.fst → some place ≠ lastOr none left) := by
  rw [List.map_append] at distinct
  have apart := (List.nodup_append.mp distinct).2.2
  constructor
  · intro onLeft same
    cases isRight : right with
    | nil => simp [isRight, headOr] at same
    | cons first later =>
        rw [isRight] at same
        exact apart place onLeft first.1 (by simp [isRight]) (Option.some.inj same)
  · intro onRight same
    cases isLeft : left with
    | nil => simp [isLeft, lastOr] at same
    | cons one rest =>
        rcases @exists_lastOr Address Data left none (by simp [isLeft]) with ⟨last, inLeft, isLast⟩
        rw [isLast] at same
        exact apart last.1 (List.mem_map_of_mem inLeft) place onRight (Option.some.inj same).symm

omit [DecidableEq Address] in
theorem Represents.relink {other : Nodes Address Data} {middle : List (Address × Data)}
    {newNext newPrevious : Option Address} (held : Represents nodes list (left ++ middle ++ right))
    (before : ∀ earlier last, left = earlier ++ [last] →
      other last.1 = some ⟨lastOr none earlier, newNext, last.2⟩)
    (behind : ∀ first later, right = first :: later →
      other first.1 = some ⟨newPrevious, headOr none later, first.2⟩)
    (others : ∀ place ∈ (left ++ right).map Prod.fst, some place ≠ lastOr none left →
      some place ≠ headOr none right → other place = nodes place) :
    Segment other none left newNext ∧ Segment other newPrevious right none := by
  have distinct : ((left ++ right).map Prod.fst).Nodup := by
    have shorter : ((left ++ right).map Prod.fst).Sublist
        ((left ++ middle ++ right).map Prod.fst) := by simp
    exact shorter.nodup held.nodup
  have apart := distinct
  rw [List.map_append] at apart
  have parts := segment_append.mp held.segment
  constructor
  · apply (segment_append.mp parts.1).1.withNext (List.nodup_append.mp apart).1 before
    intro place member notLast
    apply others place _ notLast ((lastOr_ne_headOr distinct).1 member)
    rw [List.map_append]
    exact List.mem_append_left _ member
  · apply parts.2.withPrevious (List.nodup_append.mp apart).2.1 behind
    intro place member notFirst
    apply others place _ ((lastOr_ne_headOr distinct).2 member) notFirst
    rw [List.map_append]
    exact List.mem_append_right _ member

omit [DecidableEq Address] in
/-- What taking a node out of a list has to leave in memory: its neighbours are
linked to each other. -/
theorem Represents.bypass {other : Nodes Address Data} {entry : Address × Data}
    (held : Represents nodes list (left ++ entry :: right))
    (before : ∀ earlier last, left = earlier ++ [last] →
      other last.1 = some ⟨lastOr none earlier, headOr none right, last.2⟩)
    (behind : ∀ first later, right = first :: later →
      other first.1 = some ⟨lastOr none left, headOr none later, first.2⟩)
    (others : ∀ place ∈ (left ++ right).map Prod.fst, some place ≠ lastOr none left →
      some place ≠ headOr none right → other place = nodes place) :
    Represents other
      ⟨headOr none (left ++ right), lastOr none (left ++ right), list.listLength - 1⟩
      (left ++ right) := by
  have whole : Represents nodes list (left ++ [entry] ++ right) := by simpa using held
  constructor
  · exact segment_append.mpr (whole.relink before behind others)
  · rfl
  · rfl
  · have length := held.length
    simp only [List.length_append, List.length_cons] at length ⊢
    omega
  · have shorter : ((left ++ right).map Prod.fst).Sublist
        ((left ++ entry :: right).map Prod.fst) := by simp
    exact shorter.nodup held.nodup

omit [DecidableEq Address] in
/-- What putting a node in a list has to leave in memory: the new node has its neighbours,
and they have it. -/
theorem Represents.splice {other : Nodes Address Data}
    (held : Represents nodes list (left ++ right)) (fresh : address ∉ (left ++ right).map Prod.fst)
    (before : ∀ earlier last, left = earlier ++ [last] →
      other last.1 = some ⟨lastOr none earlier, some address, last.2⟩)
    (new : other address = some ⟨lastOr none left, headOr none right, data⟩)
    (behind : ∀ first later, right = first :: later →
      other first.1 = some ⟨some address, headOr none later, first.2⟩)
    (others : ∀ place ∈ (left ++ right).map Prod.fst, some place ≠ lastOr none left →
      some place ≠ headOr none right → other place = nodes place) :
    Represents other
      ⟨headOr none (left ++ (address, data) :: right),
        lastOr none (left ++ (address, data) :: right), list.listLength + 1⟩
      (left ++ (address, data) :: right) := by
  have whole : Represents nodes list (left ++ [] ++ right) := by simpa using held
  have linked := whole.relink before behind others
  constructor
  · exact segment_append.mpr ⟨linked.1, new, linked.2⟩
  · rfl
  · rfl
  · have length := held.length
    simp only [List.length_append, List.length_cons] at length ⊢
    omega
  · have distinct := held.nodup
    rw [List.map_append] at distinct fresh
    rw [List.map_append, List.map_cons]
    exact List.nodup_middle.mpr (List.nodup_cons.mpr ⟨fresh, distinct⟩)

/-- Freeing a node whose neighbours have been linked to each other. -/
theorem Represents.unlink {linked : Nodes Address Data}
    (held : Represents nodes list (left ++ (address, data) :: right))
    (before : ∀ earlier last, left = earlier ++ [last] →
      linked last.1 = some ⟨lastOr none earlier, headOr none right, last.2⟩)
    (behind : ∀ first later, right = first :: later →
      linked first.1 = some ⟨lastOr none left, headOr none later, first.2⟩)
    (others : ∀ place, some place ≠ lastOr none left → some place ≠ headOr none right →
      linked place = nodes place) :
    Represents (Function.update linked address none)
        ⟨headOr none (left ++ right), lastOr none (left ++ right), list.listLength - 1⟩
        (left ++ right) ∧
      ∀ place ∉ (left ++ (address, data) :: right).map Prod.fst,
        Function.update linked address none place = nodes place := by
  have distinct : (left.map Prod.fst ++ address :: right.map Prod.fst).Nodup := by
    simpa using held.nodup
  have apart := List.nodup_append.mp distinct
  have inRight : ∀ entry ∈ right, entry.1 ≠ address := by
    intro entry member same
    exact (List.nodup_cons.mp apart.2.1).1 (same ▸ List.mem_map_of_mem member)
  have inLeft : ∀ entry ∈ left, entry.1 ≠ address := by
    intro entry member
    exact apart.2.2 entry.1 (List.mem_map_of_mem member) address (by simp)
  constructor
  · apply held.bypass
    · intro earlier last isConcat
      rw [Function.update_of_ne (inLeft last (by simp [isConcat]))]
      exact before earlier last isConcat
    · intro first later isCons
      rw [Function.update_of_ne (inRight first (by simp [isCons]))]
      exact behind first later isCons
    · intro place member notLast notFirst
      have notRemoved : place ≠ address := by
        rcases List.mem_map.mp member with ⟨entry, inList, isPlace⟩
        rcases List.mem_append.mp inList with onLeft | onRight
        · exact isPlace ▸ inLeft entry onLeft
        · exact isPlace ▸ inRight entry onRight
      rw [Function.update_of_ne notRemoved]
      exact others place notLast notFirst
  · intro place outside
    have notRemoved : place ≠ address := fun same => outside (by simp [same])
    rw [Function.update_of_ne notRemoved]
    apply others
    · intro isLast
      cases isLeft : left with
      | nil => simp [isLeft, lastOr] at isLast
      | cons one rest =>
          have last : ∃ last ∈ left, lastOr none left = some last.1 :=
            exists_lastOr (by simp [isLeft])
          rcases last with ⟨last, onLeft, same⟩
          apply outside
          rw [same] at isLast
          rw [Option.some.inj isLast]
          exact List.mem_map_of_mem (List.mem_append_left _ onLeft)
    · intro isFirst
      cases isRight : right with
      | nil => simp [isRight, headOr] at isFirst
      | cons first later =>
          rw [isRight] at isFirst
          exact outside (by simp [isRight, Option.some.inj isFirst])

/-- The nodes on both sides of one that is taken out are linked to each other. -/
structure Relinked (nodes linked : Nodes Address Data) (left right : List (Address × Data)) :
    Prop where
  before : ∀ earlier last, left = earlier ++ [last] →
    linked last.1 = some ⟨lastOr none earlier, headOr none right, last.2⟩
  behind : ∀ first later, right = first :: later →
    linked first.1 = some ⟨lastOr none left, headOr none later, first.2⟩
  others : ∀ place, some place ≠ lastOr none left → some place ≠ headOr none right →
    linked place = nodes place

theorem unlinkNode_first (held : Represents nodes list ((address, data) :: right)) :
    ∃ linked, unlinkNode nodes list address = some (Function.update linked address none,
        ⟨headOr none right, lastOr none right, list.listLength - 1⟩) ∧
      Relinked nodes linked [] right := by
  have found : nodes address = some ⟨none, headOr none right, data⟩ := held.segment.1
  have isHead : list.listHead = some address := held.head
  cases right with
  | nil =>
      refine ⟨nodes, ?_, by simp, by simp, fun _ _ _ => rfl⟩
      simp [unlinkNode, found, isHead, headOr, lastOr]
  | cons first later =>
      have next : nodes first.1 = some ⟨some address, headOr none later, first.2⟩ :=
        held.segment.2.1
      have isTail : list.listTail = lastOr none (first :: later) := held.tail
      refine ⟨Function.update nodes first.1 (some ⟨none, headOr none later, first.2⟩), ?_,
        by simp, ?_, ?_⟩
      · rw [← isTail]
        simp [unlinkNode, found, isHead, headOr, setPrevious_of_some next]
      · intro one rest same
        cases same
        exact Function.update_self ..
      · intro place _ notFirst
        exact Function.update_of_ne (fun same => notFirst (congrArg some same)) _ _

section BehindLast

variable {earlier : List (Address × Data)} {last : Address × Data}
  (held : Represents nodes list (earlier ++ [last] ++ (address, data) :: right))
include held

omit [DecidableEq Address] in
theorem Represents.behind_last : list.listHead ≠ some address ∧
    nodes last.1 = some ⟨lastOr none earlier, some address, last.2⟩ ∧
    nodes address = some ⟨some last.1, headOr none right, data⟩ := by
  have distinct := held.nodup
  rw [List.map_append, List.map_append] at distinct
  have apart := (List.nodup_append.mp distinct).2.2
  refine ⟨?_, ?_, ?_⟩
  · rw [held.head]
    cases earlier with
    | nil =>
        intro same
        exact apart last.1 (by simp) address (by simp) (Option.some.inj same)
    | cons one rest =>
        intro same
        exact apart one.1 (by simp) address (by simp) (Option.some.inj same)
  · have stretch := held.segment
    rw [List.append_assoc] at stretch
    exact stretch.at
  · have located := held.segment.at
    rwa [lastOr_append] at located

theorem unlinkNode_last (isLast : right = []) :
    ∃ linked, unlinkNode nodes list address = some (Function.update linked address none,
        ⟨headOr none (earlier ++ [last]), lastOr none (earlier ++ [last]),
          list.listLength - 1⟩) ∧
      Relinked nodes linked (earlier ++ [last]) [] := by
  subst isLast
  rcases held.behind_last with ⟨notHead, previous, found⟩
  have isPrevious : lastOr none (earlier ++ [last]) = some last.1 := by
    rw [lastOr_append]
    rfl
  have isHead : list.listHead = headOr none (earlier ++ [last]) := by
    rw [held.head]
    cases earlier <;> rfl
  have isTail : list.listTail = some address := by
    rw [held.tail, lastOr_append]
    rfl
  refine ⟨Function.update nodes last.1 (some ⟨lastOr none earlier, none, last.2⟩), ?_, ?_,
    by simp, ?_⟩
  · rw [← isHead, isPrevious]
    simp [unlinkNode, found, notHead, isTail, headOr, setNext_of_some previous]
  · intro others other same
    rcases List.append_inj' same rfl with ⟨sameEarlier, sameLast⟩
    cases sameEarlier
    cases sameLast
    exact Function.update_self ..
  · intro place notLast _
    rw [isPrevious] at notLast
    exact Function.update_of_ne (fun same => notLast (congrArg some same)) _ _

theorem unlinkNode_between {first : Address × Data} {later : List (Address × Data)}
    (isRight : right = first :: later) :
    ∃ linked, unlinkNode nodes list address = some (Function.update linked address none,
        ⟨headOr none (earlier ++ [last] ++ right), lastOr none (earlier ++ [last] ++ right),
          list.listLength - 1⟩) ∧
      Relinked nodes linked (earlier ++ [last]) right := by
  subst isRight
  rcases held.behind_last with ⟨notHead, previous, found⟩
  have distinct : ((earlier ++ [last]).map Prod.fst ++
      address :: (first :: later).map Prod.fst).Nodup := by
    simpa using held.nodup
  have isPrevious : lastOr none (earlier ++ [last]) = some last.1 := by
    rw [lastOr_append]
    rfl
  have isHead : list.listHead = headOr none (earlier ++ [last] ++ first :: later) := by
    rw [held.head]
    cases earlier <;> rfl
  have apart : last.1 ≠ first.1 :=
    (List.nodup_append.mp distinct).2.2 last.1 (by simp) first.1 (by simp)
  have next : nodes first.1 = some ⟨some address, headOr none later, first.2⟩ := by
    have stretch := held.segment
    rw [List.append_cons] at stretch
    have located := stretch.at
    rwa [lastOr_append] at located
  have notTail : list.listTail ≠ some address := by
    rw [held.tail, lastOr_append]
    have last : ∃ last ∈ first :: later,
        lastOr (some address) (first :: later) = some last.1 := exists_lastOr (by simp)
    rcases last with ⟨last, member, isLast⟩
    intro same
    have same := Option.some.inj (isLast.symm.trans same)
    have notLater := (List.nodup_cons.mp (List.nodup_append.mp distinct).2.1).1
    exact notLater (same ▸ List.mem_map_of_mem member)
  have isTail : list.listTail = lastOr none (earlier ++ [last] ++ first :: later) := by
    rw [held.tail, lastOr_append, lastOr_append _ (earlier ++ [last])]
    rfl
  have nextLater : Function.update nodes last.1
      (some ⟨lastOr none earlier, some first.1, last.2⟩) first.1 =
      some ⟨some address, headOr none later, first.2⟩ := by
    rw [Function.update_of_ne apart.symm, next]
  refine ⟨Function.update (Function.update nodes last.1
      (some ⟨lastOr none earlier, some first.1, last.2⟩)) first.1
      (some ⟨some last.1, headOr none later, first.2⟩), ?_, ?_, ?_, ?_⟩
  · rw [← isHead, ← isTail]
    simp [unlinkNode, found, notHead, notTail, headOr, setNext_of_some previous,
      setPrevious_of_some nextLater]
  · intro others other same
    rcases List.append_inj' same rfl with ⟨sameEarlier, sameLast⟩
    cases sameEarlier
    cases sameLast
    rw [Function.update_of_ne apart, Function.update_self]
    rfl
  · intro one rest same
    cases same
    rw [isPrevious]
    exact Function.update_self ..
  · intro place notLast notFirst
    rw [isPrevious] at notLast
    rw [Function.update_of_ne fun same => notFirst (congrArg some same),
      Function.update_of_ne fun same => notLast (congrArg some same)]

end BehindLast

theorem unlinkNode_spec (held : Represents nodes list (left ++ (address, data) :: right)) :
    ∃ after shortened, unlinkNode nodes list address = some (after, shortened) ∧
      Represents after shortened (left ++ right) ∧ after address = none ∧
      ∀ place ∉ (left ++ (address, data) :: right).map Prod.fst, after place = nodes place := by
  have unlinks : ∃ linked : Nodes Address Data, unlinkNode nodes list address =
      some (Function.update linked address none, ⟨headOr none (left ++ right),
        lastOr none (left ++ right), list.listLength - 1⟩) ∧
      Relinked nodes linked left right := by
    rcases List.eq_nil_or_concat' left with isEmpty | ⟨earlier, last, isConcat⟩
    · subst isEmpty
      exact unlinkNode_first held
    subst isConcat
    cases right with
    | nil =>
        rw [List.append_nil]
        exact unlinkNode_last held rfl
    | cons first later => exact unlinkNode_between held rfl
  rcases unlinks with ⟨linked, unlinked, relinked⟩
  have shortened := held.unlink relinked.before relinked.behind relinked.others
  exact ⟨_, _, unlinked, shortened.1, Function.update_self .., shortened.2⟩

theorem linkedListRemove_spec (held : Represents nodes list (left ++ (address, data) :: right)) :
    ∃ after shortened, linkedListRemove nodes list address = some (after, shortened) ∧
      Represents after shortened (left ++ right) ∧ after address = none ∧
      ∀ place ∉ (left ++ (address, data) :: right).map Prod.fst, after place = nodes place := by
  have onList : (left ++ (address, data) :: right).find?
      (fun entry => decide (entry.1 = address)) ≠ none := by
    rw [ne_eq, List.find?_eq_none]
    intro absent
    exact absent (address, data) (by simp) (by simp)
  rcases Option.ne_none_iff_exists'.mp onList with ⟨entry, isFirst⟩
  have isAddress : entry.1 = address := by simpa using List.find?_some isFirst
  have searched : search nodes (fun here _ => decide (here = address)) list.rounds
      list.listHead = some (some address) := by
    rw [held.head, search_segment _ held.segment (by rw [held.rounds_eq]; omega), isFirst,
      Option.map_some, isAddress]
  rw [linkedListRemove, searched, Option.bind_some, if_pos rfl]
  exact unlinkNode_spec held

theorem freeFrom_segment {previous : Option Address} {fuel : Nat}
    (segment : Segment nodes previous entries none) (enough : entries.length < fuel)
    (nodup : (entries.map Prod.fst).Nodup) :
    ∃ after, freeFrom fuel nodes (headOr none entries) = some after ∧
      ∀ place, after place = if place ∈ entries.map Prod.fst then none else nodes place := by
  induction entries generalizing previous fuel nodes with
  | nil =>
      cases fuel with
      | zero => cases enough
      | succ fuel => exact ⟨nodes, rfl, fun _ => rfl⟩
  | cons entry rest induction =>
      cases fuel with
      | zero => cases enough
      | succ fuel =>
          have split := List.nodup_cons.mp nodup
          have kept : Segment (Function.update nodes entry.1 none) (some entry.1) rest none := by
            apply segment.2.congr
            intro place member
            have different : place ≠ entry.1 := fun same => split.1 (same ▸ member)
            exact Function.update_of_ne different _ _
          rcases induction kept (by simpa using enough) split.2 with ⟨after, freed, places⟩
          refine ⟨after, ?_, ?_⟩
          · rw [headOr, freeFrom, segment.1, Option.bind_some, freed]
          · intro place
            rw [places place, List.map_cons]
            by_cases isHere : place = entry.1
            · rw [isHere, if_neg split.1, Function.update_self, if_pos List.mem_cons_self]
            · rw [Function.update_of_ne isHere]
              simp only [List.mem_cons, isHere, false_or]

theorem linkedListDestroy_spec (held : Represents nodes list entries) :
    ∃ after, linkedListDestroy nodes list = some after ∧
      ∀ place, after place = if place ∈ entries.map Prod.fst then none else nodes place := by
  rw [linkedListDestroy, held.head]
  apply freeFrom_segment held.segment
  · rw [held.rounds_eq]
    omega
  · exact held.nodup

end Specifications

/-! ## Walking along a list -/

/-- The nodes that are met when a link is followed to its end, with their data. -/
def follow (link : Node Address Data → Option Address) (nodes : Nodes Address Data) :
    Nat → Option Address → Option (List (Address × Data))
  | 0, _ => none
  | _ + 1, none => some []
  | fuel + 1, some here =>
      (nodes here).bind fun node =>
        (follow link nodes fuel (link node)).map fun rest => (here, node.data) :: rest

section Walks

variable {nodes : Nodes Address Data} {entries : List (Address × Data)}

omit [DecidableEq Address] in
theorem follow_next {previous : Option Address} (segment : Segment nodes previous entries none) :
    follow Node.next nodes (entries.length + 1) (headOr none entries) = some entries := by
  induction entries generalizing previous with
  | nil => rfl
  | cons entry rest induction =>
      rw [headOr, List.length_cons, follow, segment.1, Option.bind_some]
      simp only [induction segment.2, Option.map_some]

omit [DecidableEq Address] in
theorem follow_previous {next : Option Address} (segment : Segment nodes none entries next) :
    follow Node.previous nodes (entries.length + 1) (lastOr none entries) =
      some entries.reverse := by
  induction entries using List.reverseRecOn generalizing next with
  | nil => rfl
  | append_singleton left last induction =>
      have parts := segment_append.mp segment
      rw [lastOr_append, List.length_append, List.length_singleton]
      simp only [lastOr]
      rw [follow, parts.2.1, Option.bind_some]
      simp [induction parts.1]

end Walks

end Dbos.LinkedList
