import Dbos.Foundation.Numerals
import Dbos.Foundation.TextBuffer

/-! # Integers as text in the C library

`itoa` and `atoi`. -/

namespace Dbos.Stdlib

open TextBuffer Numerals

/-- The number of addresses. No string has its `NUL` farther away. -/
def addresses : Nat := 2 ^ 32

/-- `strlen(&str[position])`. -/
def strlen (str : Buffer) (position : Nat) : Option Nat :=
  (stringAt str addresses position).map List.length

/-- `strrev(&str[position], length)`. -/
def strrev (str : Buffer) (position length : Nat) : Buffer :=
  reverseBetween str length position (position + length - 1)

/-- `do *s++ = (n % 10) + '0'; while ((n /= 10) > 0)`: the buffer and the end of what
is stored. -/
def storeRemainders : (fuel : Nat) → (n : BitVec 32) → Buffer → (s : Nat) → Buffer × Nat
  | 0, _, str, s => (str, s)
  | fuel + 1, n, str, s =>
      let stored := put str s (.ofNat (n.srem 10 + 0x30).toNat)
      if 0 < (n.sdiv 10).toInt then storeRemainders fuel (n.sdiv 10) stored (s + 1)
      else (stored, s + 1)

/-- `itoa`: what it returns and the buffer afterwards. A number has at most ten
digits. -/
def itoa (value : BitVec 32) (s : Buffer) : Option (Nat × Buffer) :=
  let (n, rev, signed) :=
    if value.toInt < 0 then (-value, 1, put s 0 0x2D) else (value, 0, s)
  let (stored, last) := storeRemainders 10 n signed rev
  let reversed := strrev stored rev (last - rev)
  (strlen reversed last).map fun length => (last, put reversed (last + length) 0)

/-- `atoi`. It reads digits and compares their number with the length of the string. -/
def atoi (str : List UInt8) : BitVec 32 :=
  let (factor, digits) := if str.head? = some 0x2D then ((-1 : BitVec 32), str.tail) else (1, str)
  let (acum, rest) := scan decimalDigit (10 : BitVec 32) 0 digits
  let curLen := digits.length - rest.length
  if curLen ≠ str.length then -1 else factor * acum

/-- `itoa` leaves the text of the number, and `atoi` reads it again. -/
def RoundTrip (value : BitVec 32) (s : Buffer) : Prop :=
  ∃ stored, itoa value s = some ((signedText 10 value.toInt).length, stored) ∧
    HoldsString stored (signedText 10 value.toInt) ∧
    (stringAt stored addresses 0).map atoi = some value

/-! ## The digits -/

theorem toNat_srem_ten {n : BitVec 32} (nonnegative : n.msb = false) :
    (n.srem 10).toNat = n.toNat % 10 := by
  have ten : (10 : BitVec 32).msb = false := by decide
  rw [BitVec.srem, nonnegative, ten]
  exact BitVec.toNat_umod

theorem toNat_sdiv_ten {n : BitVec 32} (nonnegative : n.msb = false) :
    (n.sdiv 10).toNat = n.toNat / 10 := by
  have ten : (10 : BitVec 32).msb = false := by decide
  rw [BitVec.sdiv, nonnegative, ten]
  exact BitVec.toNat_udiv

theorem storeRemainders_eq {fuel : Nat} {n : BitVec 32} (nonnegative : n.msb = false)
    (enough : n.toNat < 10 ^ fuel) (positive : 0 < fuel) (str : Buffer) (s : Nat) :
    storeRemainders fuel n str s =
      (splice str s (text 10 n.toNat).reverse, s + (text 10 n.toNat).length) := by
  induction fuel generalizing n str s with
  | zero => exact absurd positive (Nat.lt_irrefl 0)
  | succ fuel induction =>
      have remainder : n.toNat % 10 < 10 := Nat.mod_lt _ (by omega)
      have byte : UInt8.ofNat (n.srem 10 + 0x30).toNat = digitChar (n.toNat % 10) := by
        rw [BitVec.toNat_add, toNat_srem_ten nonnegative, digitChar, if_neg (by omega)]
        exact congrArg UInt8.ofNat (Nat.mod_eq_of_lt (show n.toNat % 10 + 48 < 2 ^ 32 by omega))
      have quotient := toNat_sdiv_ten nonnegative
      have nextNonnegative : (n.sdiv 10).msb = false := by
        rw [BitVec.msb_eq_false_iff_two_mul_lt] at nonnegative ⊢
        omega
      rw [storeRemainders, byte, BitVec.toInt_eq_toNat_of_msb nextNonnegative, quotient]
      rcases Nat.lt_or_ge n.toNat 10 with small | notSmall
      · rw [if_neg (by omega), text_of_lt small, Nat.mod_eq_of_lt small, List.reverse_singleton,
          List.length_singleton, put_eq_splice]
      · have next : (n.sdiv 10).toNat < 10 ^ fuel := by
          rw [quotient, Nat.div_lt_iff_lt_mul (by omega), ← Nat.pow_succ]
          exact enough
        have fuelLeft : 0 < fuel := by
          rw [Nat.pos_iff_ne_zero]
          rintro rfl
          omega
        rw [if_pos (by omega), induction nextNonnegative next fuelLeft, quotient,
          text_of_le (by omega) notSmall, List.reverse_append, List.reverse_singleton,
          List.singleton_append, splice_cons, List.length_append, List.length_singleton]
        congr 1
        omega

theorem strrev_splice (str : Buffer) (position : Nat) (bytes : List UInt8) :
    strrev (splice str position bytes.reverse) position bytes.length =
      splice str position bytes := by
  have reversed := reverseBetween_splice str position (Nat.le_refl bytes.reverse.length)
  rwa [List.length_reverse, List.reverse_reverse] at reversed

/-- The `NUL` that `itoa` writes at the end is there already. -/
theorem strlen_put {str : Buffer} {position length : Nat}
    (found : strlen str position = some length) : put str (position + length) 0 = str := by
  obtain ⟨text, atPosition, rfl⟩ := Option.map_eq_some_iff.mp found
  rw [put, ← stringAt_ends atPosition, Function.update_eq_self]

/-- For all but the least number the buffer has the text, without a `NUL` of its own. -/
theorem itoa_eq {value : BitVec 32} (notLeast : value ≠ BitVec.intMin 32) (s : Buffer) :
    itoa value s = (strlen (splice s 0 (signedText 10 value.toInt))
        (signedText 10 value.toInt).length).map fun _ =>
      ((signedText 10 value.toInt).length, splice s 0 (signedText 10 value.toInt)) := by
  have ends : ∀ (str : Buffer) (position : Nat),
      ((strlen str position).map fun length => (position, put str (position + length) 0)) =
        (strlen str position).map fun _ => (position, str) := by
    intro str position
    apply Option.map_congr
    intro length found
    rw [strlen_put found]
  by_cases negative : value.toInt < 0
  · have magnitude := toNat_neg_of_negative (Int.not_le.mpr negative)
    have nonnegative : (-value).msb = false := by
      rw [BitVec.msb_neg_of_ne_intMin_of_ne_zero notLeast (fun zero => by simp [zero] at negative),
        BitVec.msb_eq_toInt]
      simpa using negative
    have bound := (-value).isLt
    simp only [itoa, signedText, if_pos negative,
      storeRemainders_eq nonnegative (show (-value).toNat < 10 ^ 10 by omega),
      Nat.succ_pos, Nat.add_comm 1, Nat.add_sub_cancel, strrev_splice, ends, magnitude, splice_cons,
      List.length_cons, Nat.zero_add]
  · have magnitude := toNat_of_nonnegative (Int.not_lt.mp negative)
    have nonnegative : value.msb = false := by
      rw [BitVec.msb_eq_toInt]
      exact decide_eq_false negative
    have bound := value.isLt
    simp only [itoa, signedText, if_neg negative,
      storeRemainders_eq nonnegative (show value.toNat < 10 ^ 10 by omega),
      Nat.succ_pos, Nat.zero_add, Nat.sub_zero, strrev_splice, ends, magnitude]

/-! ## Reading the text again -/

theorem atoi_signedText (value : BitVec 32) :
    atoi (signedText 10 value.toInt) = if value.toInt < 0 then -1 else value := by
  by_cases negative : value.toInt < 0
  · have shorter : (text 10 value.toInt.natAbs).length - ([] : List UInt8).length ≠
        (text 10 value.toInt.natAbs).length + 1 := by
      rw [List.length_nil]
      omega
    simp only [atoi, signedText, if_pos negative, List.head?_cons, if_true, List.tail_cons,
      List.length_cons, scan_decimal, if_pos shorter]
  · have magnitude := toNat_of_nonnegative (Int.not_lt.mp negative)
    simp only [atoi, signedText, if_neg negative,
      if_neg (head_text_ne_sign (show 1 < 10 by omega) (by omega) _), scan_decimal, ← magnitude]
    simp

theorem addresses_pos : 0 < addresses := Nat.two_pow_pos 32

theorem length_signedText_lt (value : BitVec 32) :
    (signedText 10 value.toInt).length < addresses := by
  have short := length_signedText_word_le value
  unfold addresses
  omega

/-- The round trip succeeds for numbers that are not negative and for `-1`, where there
is a `NUL` behind the text already. -/
theorem roundTrip_iff (value : BitVec 32) (s : Buffer) :
    RoundTrip value s ↔
      s (signedText 10 value.toInt).length = 0 ∧ (0 ≤ value.toInt ∨ value.toInt = -1) := by
  have enough := length_signedText_lt value
  have readBack : (if value.toInt < 0 then -1 else value) = value ↔
      0 ≤ value.toInt ∨ value.toInt = -1 := by
    rw [← BitVec.toInt_inj]
    split
    case isTrue negative =>
      rw [show (-1 : BitVec 32).toInt = -1 by decide]
      omega
    case isFalse notNegative => simp [Int.not_lt.mp notNegative]
  constructor
  · rintro ⟨stored, returned, holds, read⟩
    rw [holds.stringAt_eq enough, Option.map_some, Option.some_inj, atoi_signedText,
      readBack] at read
    have notLeast : value ≠ BitVec.intMin 32 := by
      rintro rfl
      revert read
      decide
    rw [itoa_eq notLeast] at returned
    obtain ⟨-, -, same⟩ := Option.map_eq_some_iff.mp returned
    obtain rfl := (Prod.mk.inj same).2
    exact ⟨(holdsString_splice_iff.mp holds).2, read⟩
  · rintro ⟨ends, inRange⟩
    have notLeast : value ≠ BitVec.intMin 32 := by
      rintro rfl
      revert inRange
      decide
    have holds : HoldsString (splice s 0 (signedText 10 value.toInt)) (signedText 10 value.toInt) :=
      holdsString_splice_iff.mpr ⟨zero_notMem_signedText (by omega) (by omega) _, ends⟩
    have behind : strlen (splice s 0 (signedText 10 value.toInt))
        (signedText 10 value.toInt).length = some 0 := by
      have found := @stringAt_eq (splice s 0 (signedText 10 value.toInt)) [] addresses
        (signedText 10 value.toInt).length List.not_mem_nil
        (fun index atMost => by
          rw [Nat.le_zero.mp atMost, Nat.add_zero,
            splice_beyond (Nat.le_of_eq (Nat.zero_add _)), ends, List.getD_nil])
        addresses_pos
      rw [strlen, found, Option.map_some, List.length_nil]
    refine ⟨_, ?_, holds, ?_⟩
    · rw [itoa_eq notLeast, behind, Option.map_some]
    · rw [holds.stringAt_eq enough, Option.map_some, atoi_signedText, readBack.mpr inRange]

/-- `-7`, even where the buffer is all zeros. -/
theorem not_roundTrip_negative : ¬RoundTrip (-7) (fun _ => 0) := by
  rintro ⟨stored, -, holds, read⟩
  rw [holds.stringAt_eq (length_signedText_lt _), Option.map_some, Option.some_inj,
    atoi_signedText] at read
  exact absurd read (by decide)

end Dbos.Stdlib
