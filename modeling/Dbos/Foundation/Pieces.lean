import Mathlib.Data.List.Basic

/-! # Pieces of a list between separators

Splitting a list at a separator and putting it together again, over any type of
elements. -/

namespace Dbos.Pieces

variable {α : Type}

/-- The pieces one after the other, each with the separator in front of it. -/
def joined (separator : α) (pieces : List (List α)) : List α :=
  pieces.flatMap fun piece => separator :: piece

/-- The pieces one after the other, each with the mark behind it. -/
def marked (mark : α) (pieces : List (List α)) : List α :=
  pieces.flatMap fun piece => piece ++ [mark]

theorem drop_joined (separator : α) (piece : List α) (pieces : List (List α)) :
    (joined separator (piece :: pieces)).drop (piece.length + 1) = joined separator pieces := by
  simp [joined]

theorem length_joined_cons (separator : α) (piece : List α) (pieces : List (List α)) :
    (joined separator (piece :: pieces)).length =
      piece.length + 1 + (joined separator pieces).length := by
  simp only [joined, List.flatMap_cons, List.cons_append, List.length_cons, List.length_append]
  omega

theorem length_le_joined (separator : α) (pieces : List (List α)) :
    pieces.length ≤ (joined separator pieces).length := by
  induction pieces with
  | nil => simp
  | cons piece pieces induction =>
      rw [length_joined_cons, List.length_cons]
      omega

/-- The pieces with their places, where one place is left free behind each piece. -/
def placed : (start : Nat) → List (List α) → List (Nat × List α)
  | _, [] => []
  | start, piece :: pieces => (start, piece) :: placed (start + (piece.length + 1)) pieces

theorem map_snd_placed (start : Nat) (pieces : List (List α)) :
    (placed start pieces).map Prod.snd = pieces := by
  induction pieces generalizing start with
  | nil => rfl
  | cons piece pieces induction => rw [placed, List.map_cons, induction]

theorem length_placed (start : Nat) (pieces : List (List α)) :
    (placed start pieces).length = pieces.length := by
  rw [← List.length_map Prod.snd, map_snd_placed]

theorem bounds_of_mem_placed (separator : α) {start : Nat} {pieces : List (List α)}
    {place : Nat × List α} (member : place ∈ placed start pieces) :
    start ≤ place.1 ∧
      place.1 + place.2.length < start + (joined separator pieces).length := by
  induction pieces generalizing start with
  | nil => cases member
  | cons piece pieces induction =>
      rw [length_joined_cons]
      rcases List.mem_cons.mp member with rfl | later
      · simp only
        omega
      · have bounds := induction later
        omega

theorem drop_joined_placed (separator : α) {start index : Nat} {pieces : List (List α)}
    (below : index < (placed start pieces).length) :
    (joined separator pieces).drop ((placed start pieces)[index].1 - start) =
      joined separator (pieces.drop index) := by
  induction pieces generalizing start index with
  | nil => cases below
  | cons piece pieces induction =>
      cases index with
      | zero => simp [placed]
      | succ index =>
          simp only [placed, List.length_cons, Nat.add_lt_add_iff_right] at below
          have above := (bounds_of_mem_placed separator (List.getElem_mem below)).1
          have split : (placed (start + (piece.length + 1)) pieces)[index].1 - start =
              piece.length + 1 +
                ((placed (start + (piece.length + 1)) pieces)[index].1 -
                  (start + (piece.length + 1))) := by
            omega
          simp only [placed, List.getElem_cons_succ, List.drop_succ_cons]
          rw [split, ← List.drop_drop, drop_joined, induction below]

theorem drop_joined_succ (separator : α) {start index : Nat} {pieces : List (List α)}
    (below : index < (placed start pieces).length) :
    (joined separator pieces).drop ((placed start pieces)[index].1 - start + 1) =
      (placed start pieces)[index].2 ++ joined separator (pieces.drop (index + 1)) := by
  have inside : index < pieces.length := length_placed start pieces ▸ below
  have isPiece : (placed start pieces)[index].2 = pieces[index] := by
    have same := congrArg (fun list => list[index]?) (map_snd_placed start pieces)
    simpa [List.getElem?_eq_getElem below, List.getElem?_eq_getElem inside] using same
  rw [← List.drop_drop, drop_joined_placed separator below, List.drop_eq_getElem_cons inside,
    isPiece]
  rfl

variable [DecidableEq α]

def piecesOf (separator : α) : List α → List (List α)
  | [] => [[]]
  | item :: rest =>
      if item = separator then [] :: piecesOf separator rest
      else
        match piecesOf separator rest with
        | [] => [[item]]
        | piece :: pieces => (item :: piece) :: pieces

variable (separator : α)

theorem piecesOf_ne_nil (items : List α) : piecesOf separator items ≠ [] := by
  cases items with
  | nil => simp [piecesOf]
  | cons item rest =>
      unfold piecesOf
      split
      · simp
      · split <;> simp

theorem length_piecesOf (items : List α) :
    (piecesOf separator items).length = items.count separator + 1 := by
  induction items with
  | nil => rfl
  | cons item rest induction =>
      unfold piecesOf
      split
      case isTrue here => simp [here, induction]
      case isFalse other =>
        rw [List.count_cons_of_ne other, ← induction]
        split
        case h_1 empty => exact absurd empty (piecesOf_ne_nil separator rest)
        case h_2 piece pieces isCons => simp [isCons]

theorem piecesOf_eq_splitOn (items : List α) :
    piecesOf separator items = items.splitOn separator := by
  induction items with
  | nil => rfl
  | cons item rest induction =>
      unfold piecesOf
      rw [induction, List.splitOn, List.splitOn, List.splitOnP_cons_eq_if_modifyHead]
      split
      case isTrue here => simp [here]
      case isFalse other =>
        rw [if_neg (by simpa using other)]
        cases isPieces : List.splitOnP (· == separator) rest with
        | nil => exact absurd isPieces (List.splitOnP_ne_nil _ _)
        | cons piece pieces => rfl

theorem map_append_mark (mark : α) (items : List α) :
    items.map (fun item => if item = separator then mark else item) ++ [mark] =
      marked mark (piecesOf separator items) := by
  induction items with
  | nil => rfl
  | cons item rest induction =>
      unfold piecesOf
      split
      case isTrue here => simp [here, induction, marked]
      case isFalse other =>
        split
        case h_1 empty => exact absurd empty (piecesOf_ne_nil separator rest)
        case h_2 piece pieces isCons =>
          rw [List.map_cons, List.cons_append, induction, isCons, if_neg other]
          rfl

theorem separator_cons_eq (items : List α) :
    separator :: items = joined separator (piecesOf separator items) := by
  induction items with
  | nil => rfl
  | cons item rest induction =>
      unfold piecesOf
      split
      case isTrue here => simp [here, induction, joined]
      case isFalse other =>
        split
        case h_1 empty => exact absurd empty (piecesOf_ne_nil separator rest)
        case h_2 piece pieces isCons =>
          rw [isCons] at induction
          simp only [joined, List.flatMap_cons, List.cons_append, List.cons.injEq,
            true_and] at induction ⊢
          exact induction

theorem notMem_of_mem_piecesOf {items : List α} {absent : α} (notMember : absent ∉ items) :
    ∀ piece ∈ piecesOf separator items, absent ∉ piece := by
  induction items with
  | nil => simp [piecesOf]
  | cons item rest induction =>
      rw [List.mem_cons, not_or] at notMember
      have later := induction notMember.2
      unfold piecesOf
      split
      · simpa using later
      · split
        case h_1 => simpa using notMember.1
        case h_2 piece pieces isCons =>
          rw [isCons] at later
          intro other member
          rcases List.mem_cons.mp member with rfl | tail
          · rw [List.mem_cons, not_or]
            exact ⟨notMember.1, later piece (by simp)⟩
          · exact later other (by simp [tail])

theorem separator_notMem_of_mem_piecesOf (items : List α) :
    ∀ piece ∈ piecesOf separator items, separator ∉ piece := by
  induction items with
  | nil => simp [piecesOf]
  | cons item rest induction =>
      unfold piecesOf
      split
      · simpa using induction
      case isFalse other =>
        split
        case h_1 => simpa using fun equal : separator = item => other equal.symm
        case h_2 piece pieces isCons =>
          rw [isCons] at induction
          intro found member
          rcases List.mem_cons.mp member with rfl | tail
          · rw [List.mem_cons, not_or]
            exact ⟨fun equal => other equal.symm, induction piece (by simp)⟩
          · exact induction found (by simp [tail])

omit [DecidableEq α] in
theorem joined_append (first second : List (List α)) :
    joined separator (first ++ second) = joined separator first ++ joined separator second := by
  simp [joined]

omit [DecidableEq α] in
theorem joined_of_getLast? {pieces : List (List α)} {last : List α}
    (isLast : pieces.getLast? = some last) :
    joined separator pieces = joined separator pieces.dropLast ++ separator :: last := by
  conv_lhs => rw [← List.dropLast_append_getLast? last isLast]
  rw [joined_append]
  simp [joined]

end Dbos.Pieces
