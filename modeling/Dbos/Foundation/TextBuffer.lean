import Mathlib.Data.List.Basic
import Mathlib.Data.List.GetD
import Mathlib.Logic.Function.Basic

/-! # Text in a buffer

A buffer is the bytes from an address on. Writers put bytes one after the other;
a string ends at the first `NUL`. -/

namespace Dbos.TextBuffer

/-- The characters of a string up to its `NUL`. -/
structure CString where
  characters : List UInt8
  noNul : 0 ∉ characters

abbrev Buffer := Nat → UInt8

def put (buffer : Buffer) (position : Nat) (byte : UInt8) : Buffer :=
  Function.update buffer position byte

/-- The bytes one after the other from the position on. -/
def splice (buffer : Buffer) (position : Nat) (bytes : List UInt8) : Buffer := fun index =>
  if position ≤ index then bytes.getD (index - position) (buffer index) else buffer index

/-- The buffer begins with the text and its `NUL`. -/
def HoldsString (buffer : Buffer) (text : List UInt8) : Prop :=
  0 ∉ text ∧ ∀ index ≤ text.length, buffer index = text.getD index 0

theorem splice_below {buffer : Buffer} {position index : Nat} {bytes : List UInt8}
    (below : index < position) : splice buffer position bytes index = buffer index :=
  if_neg (Nat.not_le.mpr below)

theorem splice_inside {buffer : Buffer} {position index : Nat} {bytes : List UInt8}
    (inside : index < bytes.length) :
    splice buffer position bytes (position + index) = bytes[index] := by
  rw [splice, if_pos (Nat.le_add_right _ _), Nat.add_sub_cancel_left,
    List.getD_eq_getElem _ _ inside]

theorem splice_beyond {buffer : Buffer} {position index : Nat} {bytes : List UInt8}
    (beyond : position + bytes.length ≤ index) :
    splice buffer position bytes index = buffer index := by
  rw [splice, if_pos (by omega), List.getD_eq_default _ _ (by omega)]

@[simp] theorem splice_nil (buffer : Buffer) (position : Nat) :
    splice buffer position [] = buffer := by
  funext index
  simp [splice]

theorem splice_cons (buffer : Buffer) (position : Nat) (byte : UInt8) (bytes : List UInt8) :
    splice buffer position (byte :: bytes) =
      splice (put buffer position byte) (position + 1) bytes := by
  funext index
  rcases Nat.lt_trichotomy index position with below | same | above
  · rw [splice_below below, splice_below (by omega), put, Function.update_of_ne (by omega)]
  · subst same
    rw [splice_below (Nat.lt_succ_self _), put, Function.update_self, splice,
      if_pos (Nat.le_refl _), Nat.sub_self, List.getD_cons_zero]
  · have shifted : index - position = index - (position + 1) + 1 := by omega
    rw [splice, if_pos (by omega), splice, if_pos (by omega), shifted, List.getD_cons_succ, put,
      Function.update_of_ne (by omega)]

theorem splice_append (buffer : Buffer) (position : Nat) (front back : List UInt8) :
    splice buffer position (front ++ back) =
      splice (splice buffer position front) (position + front.length) back := by
  induction front generalizing buffer position with
  | nil => simp
  | cons byte front induction =>
      rw [List.cons_append, splice_cons, induction, splice_cons, List.length_cons]
      congr 1
      omega

theorem eq_of_splice_eq {bytes other : List UInt8}
    (same : ∀ buffer, splice buffer 0 bytes = splice buffer 0 other) : bytes = other := by
  apply List.ext_getElem?
  intro index
  have atIndex : ∀ byte : UInt8, bytes[index]?.getD byte = other[index]?.getD byte := by
    intro byte
    have equal := congrFun (same fun _ => byte) index
    simpa [splice, List.getD_eq_getElem?_getD] using equal
  cases left : bytes[index]? with
  | none =>
      cases right : other[index]? with
      | none => rfl
      | some byte =>
          have differs := atIndex (byte + 1)
          rw [left, right] at differs
          simp at differs
  | some byte =>
      cases right : other[index]? with
      | none =>
          have differs := atIndex (byte + 1)
          rw [left, right] at differs
          simp at differs
      | some otherByte =>
          have equal := atIndex 0
          rw [left, right] at equal
          exact congrArg some equal

theorem put_eq_splice (buffer : Buffer) (position : Nat) (byte : UInt8) :
    put buffer position byte = splice buffer position [byte] := by
  rw [splice_cons, splice_nil]

theorem splice_overwrite (buffer : Buffer) (position : Nat) {front back other : List UInt8}
    (covers : back.length ≤ other.length) :
    splice (splice buffer position (front ++ back)) (position + front.length) other =
      splice buffer position (front ++ other) := by
  rw [splice_append, splice_append]
  funext index
  rcases Nat.lt_or_ge index (position + front.length) with below | above
  · rw [splice_below below, splice_below below, splice_below below]
  rcases Nat.lt_or_ge index (position + front.length + other.length) with inside | beyond
  · obtain ⟨offset, rfl⟩ := Nat.exists_eq_add_of_le above
    rw [splice_inside (by omega), splice_inside (by omega)]
  · rw [splice_beyond beyond, splice_beyond (by omega), splice_beyond beyond]

theorem holdsString_splice {buffer : Buffer} {text : List UInt8} (noNul : 0 ∉ text) :
    HoldsString (splice buffer 0 (text ++ [0])) text := by
  refine ⟨noNul, fun index atMost => ?_⟩
  have inside : index < (text ++ [0]).length := by
    rw [List.length_append, List.length_singleton]
    omega
  have byte := @splice_inside buffer 0 index _ inside
  rw [Nat.zero_add] at byte
  rw [byte, List.getElem_append]
  split
  case isTrue before => rw [List.getD_eq_getElem _ _ before]
  case isFalse atEnd =>
    rw [List.getD_eq_default _ _ (by omega)]
    exact List.getElem_singleton _

/-- Without a `NUL` written behind the text, it has to be there already. -/
theorem holdsString_splice_iff {buffer : Buffer} {text : List UInt8} :
    HoldsString (splice buffer 0 text) text ↔ 0 ∉ text ∧ buffer text.length = 0 := by
  have behind : splice buffer 0 text text.length = buffer text.length :=
    splice_beyond (Nat.le_of_eq (Nat.zero_add _))
  constructor
  · rintro ⟨noNul, same⟩
    have ends := same text.length (Nat.le_refl _)
    rw [behind, List.getD_eq_default _ _ (Nat.le_refl _)] at ends
    exact ⟨noNul, ends⟩
  · rintro ⟨noNul, ends⟩
    refine ⟨noNul, fun index atMost => ?_⟩
    rcases Nat.lt_or_eq_of_le atMost with before | rfl
    · have byte := @splice_inside buffer 0 index text before
      rw [Nat.zero_add] at byte
      rw [byte, List.getD_eq_getElem _ _ before]
    · rw [behind, ends, List.getD_eq_default _ _ (Nat.le_refl _)]

/-- The string at the position, if its `NUL` is among the first `limit` bytes. -/
def stringAt (buffer : Buffer) : (limit position : Nat) → Option (List UInt8)
  | 0, _ => none
  | limit + 1, position =>
      if buffer position = 0 then some []
      else (stringAt buffer limit (position + 1)).map (buffer position :: ·)

theorem stringAt_eq {buffer : Buffer} {text : List UInt8} {limit position : Nat}
    (noNul : 0 ∉ text)
    (same : ∀ index ≤ text.length, buffer (position + index) = text.getD index 0)
    (enough : text.length < limit) : stringAt buffer limit position = some text := by
  induction text generalizing limit position with
  | nil =>
      obtain ⟨limit, rfl⟩ := Nat.exists_eq_succ_of_ne_zero (Nat.ne_of_gt enough)
      have ends := same 0 (Nat.le_refl _)
      rw [Nat.add_zero, List.getD_nil] at ends
      rw [stringAt, if_pos ends]
  | cons character text induction =>
      obtain ⟨limit, rfl⟩ := Nat.exists_eq_succ_of_ne_zero (Nat.ne_zero_of_lt enough)
      rw [List.mem_cons, not_or] at noNul
      rw [List.length_cons] at same enough
      have first := same 0 (Nat.zero_le _)
      rw [Nat.add_zero, List.getD_cons_zero] at first
      have rest := @induction limit (position + 1) noNul.2
        (fun index atMost => by
          have byte := same (index + 1) (Nat.succ_le_succ atMost)
          rwa [List.getD_cons_succ, Nat.add_comm index, ← Nat.add_assoc] at byte)
        (by omega)
      rw [stringAt, first, if_neg (Ne.symm noNul.1), rest, Option.map_some]

theorem HoldsString.stringAt_eq {buffer : Buffer} {text : List UInt8} {limit : Nat}
    (holds : HoldsString buffer text) (enough : text.length < limit) :
    stringAt buffer limit 0 = some text :=
  TextBuffer.stringAt_eq holds.1
    (fun index atMost => by
      rw [Nat.zero_add]
      exact holds.2 index atMost)
    enough

theorem stringAt_ends {buffer : Buffer} {text : List UInt8} {limit position : Nat}
    (found : stringAt buffer limit position = some text) : buffer (position + text.length) = 0 := by
  induction limit generalizing position text with
  | zero => cases found
  | succ limit induction =>
      unfold stringAt at found
      split at found
      case isTrue ends =>
        cases found
        exact ends
      case isFalse =>
        obtain ⟨rest, later, rfl⟩ := Option.map_eq_some_iff.mp found
        have behind := induction later
        rwa [List.length_cons, Nat.add_comm rest.length, ← Nat.add_assoc]

/-! ## Reversing in place -/

theorem put_splice_of_lt {buffer : Buffer} {index position : Nat} (below : index < position)
    (byte : UInt8) (bytes : List UInt8) :
    put (splice buffer position bytes) index byte =
      splice (put buffer index byte) position bytes := by
  induction bytes generalizing buffer position with
  | nil => rw [splice_nil, splice_nil]
  | cons first bytes induction =>
      rw [splice_cons, splice_cons, induction (Nat.lt_succ_of_lt below), put, put, put, put,
        Function.update_comm (Nat.ne_of_lt below)]

theorem put_splice_of_beyond {buffer : Buffer} {index position : Nat} {bytes : List UInt8}
    (beyond : position + bytes.length ≤ index) (byte : UInt8) :
    put (splice buffer position bytes) index byte =
      splice (put buffer index byte) position bytes := by
  induction bytes generalizing buffer position with
  | nil => rw [splice_nil, splice_nil]
  | cons first bytes induction =>
      rw [List.length_cons] at beyond
      rw [splice_cons, splice_cons, induction (by omega), put, put, put, put,
        Function.update_comm (by omega)]

theorem splice_around (buffer : Buffer) (position : Nat) (first last : UInt8)
    (inner : List UInt8) :
    splice buffer position (first :: inner ++ [last]) =
      splice (put (put buffer position first) (position + 1 + inner.length) last)
        (position + 1) inner := by
  rw [List.cons_append, splice_cons, splice_append, ← put_eq_splice,
    put_splice_of_beyond (Nat.le_refl _)]

/-- `while (i < j)`: swap the bytes at `i` and `j` and move both. -/
def reverseBetween (buffer : Buffer) : (fuel i j : Nat) → Buffer
  | 0, _, _ => buffer
  | fuel + 1, i, j =>
      if i < j then
        reverseBetween (put (put buffer i (buffer j)) j (buffer i)) fuel (i + 1) (j - 1)
      else buffer

theorem swap_ends (buffer : Buffer) (position : Nat) (first last : UInt8) (inner : List UInt8) :
    put (put (splice buffer position (first :: inner ++ [last])) position last)
      (position + 1 + inner.length) first =
      splice buffer position (last :: inner ++ [first]) := by
  rw [splice_around, splice_around, put_splice_of_lt (Nat.lt_succ_self _),
    put_splice_of_beyond (Nat.le_refl _)]
  unfold put
  rw [Function.update_comm (show position + 1 + inner.length ≠ position by omega),
    Function.update_idem, Function.update_idem]

theorem reverseBetween_splice (buffer : Buffer) (position : Nat) {bytes : List UInt8} {fuel : Nat}
    (enough : bytes.length ≤ fuel) :
    reverseBetween (splice buffer position bytes) fuel position (position + bytes.length - 1) =
      splice buffer position bytes.reverse := by
  induction fuel generalizing buffer position bytes with
  | zero =>
      rw [List.length_eq_zero_iff.mp (Nat.le_zero.mp enough)]
      rfl
  | succ fuel induction =>
      unfold reverseBetween
      cases bytes with
      | nil => rw [if_neg (by rw [List.length_nil]; omega), List.reverse_nil]
      | cons first rest =>
          rcases List.eq_nil_or_concat' rest with rfl | ⟨inner, last, rfl⟩
          · rw [if_neg (by rw [List.length_singleton]; omega), List.reverse_singleton]
          · have lastIndex : position + (first :: (inner ++ [last])).length - 1 =
                position + 1 + inner.length := by
              rw [List.length_cons, List.length_append, List.length_singleton]
              omega
            rw [List.length_cons, List.length_append, List.length_singleton] at enough
            have firstByte : splice buffer position (first :: (inner ++ [last])) position =
                first := by
              simp [splice]
            have lastByte : splice buffer position (first :: (inner ++ [last]))
                (position + 1 + inner.length) = last := by
              rw [← List.cons_append, splice_around, splice_beyond (Nat.le_refl _), put,
                Function.update_self]
            rw [lastIndex, if_pos (by omega), firstByte, lastByte, ← List.cons_append, swap_ends,
              splice_around]
            have inside := @induction (put (put buffer position last) (position + 1 + inner.length)
              first) (position + 1) inner (by omega)
            have reversed : (first :: inner ++ [last]).reverse =
                last :: inner.reverse ++ [first] := by simp
            rw [inside, reversed, splice_around, List.length_reverse]

end Dbos.TextBuffer
