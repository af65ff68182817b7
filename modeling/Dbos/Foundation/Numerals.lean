import Mathlib.Data.BitVec
import Mathlib.Data.Nat.Digits.Defs

/-! # Numerals

The digits of a number, the most significant one first, in any base, and the
usual ways to find them: by a divisor that shrinks and by shifting a word. The
way back accumulates digit after digit. At the end digits are written as
characters and read again. -/

namespace Dbos.Numerals

/-- The digits of the number without leading zeros; zero has one digit. -/
def numeral (base number : Nat) : List Nat :=
  if number = 0 then [0] else (Nat.digits base number).reverse

section Numeral

variable {base : Nat} (large : 1 < base)

include large

omit large in
theorem numeral_of_lt {number : Nat} (small : number < base) : numeral base number = [number] := by
  unfold numeral
  split
  case isTrue zero => rw [zero]
  case isFalse positive => rw [Nat.digits_of_lt base number positive small, List.reverse_singleton]

theorem numeral_of_le {number : Nat} (notSmall : base ≤ number) :
    numeral base number = numeral base (number / base) ++ [number % base] := by
  have quotient : 0 < number / base := Nat.div_pos notSmall (by omega)
  unfold numeral
  rw [if_neg (by omega), if_neg (Nat.pos_iff_ne_zero.mp quotient),
    Nat.digits_def' large (by omega), List.reverse_cons]

theorem lt_of_mem_numeral {number digit : Nat} (member : digit ∈ numeral base number) :
    digit < base := by
  unfold numeral at member
  split at member
  · rw [List.mem_singleton] at member
    omega
  · exact Nat.digits_lt_base large (List.mem_reverse.mp member)

theorem numeral_ne_nil (number : Nat) : numeral base number ≠ [] := by
  rcases Nat.lt_or_ge number base with small | notSmall
  · simp [numeral_of_lt small]
  · simp [numeral_of_le large notSmall]

theorem length_numeral_le {number places : Nat} (bound : number < base ^ (places + 1)) :
    (numeral base number).length ≤ places + 1 := by
  induction places generalizing number with
  | zero =>
      rw [Nat.zero_add, Nat.pow_one] at bound
      rw [numeral_of_lt bound]
      exact Nat.le_refl _
  | succ places induction =>
      rcases Nat.lt_or_ge number base with small | notSmall
      · rw [numeral_of_lt small, List.length_singleton]
        omega
      · have quotient : number / base < base ^ (places + 1) := by
          rw [Nat.div_lt_iff_lt_mul (by omega), ← Nat.pow_succ]
          exact bound
        have shorter := induction quotient
        rw [numeral_of_le large notSmall, List.length_append, List.length_singleton]
        omega

end Numeral

/-! ## The number of the digits -/

section Value

variable {R : Type} [CommSemiring R]

/-- Accumulate the digits, one after the other. -/
def accumulate (base : R) (start : R) (digits : List Nat) : R :=
  digits.foldl (fun sum (digit : Nat) => sum * base + (digit : R)) start

@[simp] theorem accumulate_nil (base start : R) : accumulate base start [] = start := rfl

@[simp] theorem accumulate_cons (base start : R) (digit : Nat) (digits : List Nat) :
    accumulate base start (digit :: digits) = accumulate base (start * base + digit) digits := rfl

theorem accumulate_numeral (base number : Nat) :
    accumulate (base : R) 0 (numeral base number) = number := by
  unfold numeral
  split
  case isTrue zero => simp [zero]
  case isFalse =>
    calc accumulate (base : R) 0 (Nat.digits base number).reverse
        = Nat.ofDigits (base : R) (Nat.digits base number) := by
          rw [accumulate, List.foldl_reverse, Nat.ofDigits_eq_foldr]
          congr 1
          funext digit sum
          ring
      _ = number := by rw [← Nat.coe_ofDigits, Nat.ofDigits_digits]

end Value

/-! ## Digits by a shrinking divisor -/

/-- The digits of a number below `base ^ (places + 1)`, leading zeros included. -/
def paddedNumeral (base : Nat) : (places number : Nat) → List Nat
  | 0, number => [number]
  | places + 1, number =>
      number / base ^ (places + 1) :: paddedNumeral base places (number % base ^ (places + 1))

theorem paddedNumeral_succ (base places number : Nat) :
    paddedNumeral base (places + 1) number =
      paddedNumeral base places (number / base) ++ [number % base] := by
  induction places generalizing number with
  | zero => simp [paddedNumeral]
  | succ places induction =>
      have high : number / base ^ (places + 2) = number / base / base ^ (places + 1) := by
        rw [Nat.div_div_eq_div_mul, ← Nat.pow_succ']
      have middle : number % base ^ (places + 2) / base = number / base % base ^ (places + 1) := by
        rw [Nat.pow_succ', Nat.mod_mul_right_div_self]
      have low : number % base ^ (places + 2) % base = number % base :=
        Nat.mod_mod_of_dvd _ (dvd_pow_self base (by omega))
      rw [paddedNumeral, induction, high, middle, low, paddedNumeral, List.cons_append]

theorem paddedNumeral_eq {base places number : Nat} (large : 1 < base)
    (bound : number < base ^ (places + 1)) (used : base ^ places ≤ number ∨ places = 0) :
    paddedNumeral base places number = numeral base number := by
  induction places generalizing number with
  | zero =>
      rw [Nat.zero_add, Nat.pow_one] at bound
      rw [paddedNumeral, numeral_of_lt bound]
  | succ places induction =>
      have inUse : base ^ places * base ≤ number := by
        rw [← Nat.pow_succ]
        exact used.resolve_right (by omega)
      have positive : 0 < base ^ places := Nat.pow_pos (by omega)
      have notSmall : base ≤ number :=
        (Nat.le_mul_of_pos_left base positive).trans inUse
      have quotientBound : number / base < base ^ (places + 1) := by
        rw [Nat.div_lt_iff_lt_mul (by omega), ← Nat.pow_succ]
        exact bound
      have quotientUsed : base ^ places ≤ number / base :=
        (Nat.le_div_iff_mul_le (by omega)).mpr inUse
      rw [paddedNumeral_succ, induction quotientBound (.inl quotientUsed),
        numeral_of_le large notSmall]

/-- `while (number / divisor == 0 && divisor >= base) divisor /= base`. -/
def shrinkDivisor (base number : Nat) : (fuel divisor : Nat) → Nat
  | 0, divisor => divisor
  | fuel + 1, divisor =>
      if number / divisor = 0 ∧ base ≤ divisor then
        shrinkDivisor base number fuel (divisor / base)
      else divisor

theorem shrinkDivisor_pow {base number places fuel : Nat} (large : 1 < base)
    (bound : number < base ^ (places + 1)) (enough : places ≤ fuel) :
    ∃ first ≤ places, shrinkDivisor base number fuel (base ^ places) = base ^ first ∧
      number < base ^ (first + 1) ∧ (base ^ first ≤ number ∨ first = 0) := by
  induction fuel generalizing places with
  | zero => exact ⟨places, Nat.le_refl _, rfl, bound, .inr (Nat.le_zero.mp enough)⟩
  | succ fuel induction =>
      unfold shrinkDivisor
      split
      case isTrue shrinks =>
        obtain ⟨unused, notLast⟩ := shrinks
        have small := (Nat.div_eq_zero_iff_lt (Nat.pow_pos (by omega))).mp unused
        cases places with
        | zero =>
            rw [Nat.pow_zero] at notLast
            omega
        | succ places =>
            obtain ⟨first, atMost, rest⟩ := induction small (by omega)
            rw [Nat.pow_succ, Nat.mul_div_cancel _ (by omega)]
            exact ⟨first, by omega, rest⟩
      case isFalse stops =>
        rw [not_and_or, Nat.div_eq_zero_iff_lt (Nat.pow_pos (by omega)), Nat.not_lt] at stops
        refine ⟨places, Nat.le_refl _, rfl, bound, stops.imp_right fun last => ?_⟩
        cases places with
        | zero => rfl
        | succ places => exact absurd (Nat.le_self_pow (by omega) base) last

/-- `while (divisor >= base)`: one digit, the rest of the number, the next divisor. -/
def divisorDigits (base : Nat) : (fuel divisor number : Nat) → List Nat
  | 0, _, number => [number]
  | fuel + 1, divisor, number =>
      if base ≤ divisor then
        number / divisor :: divisorDigits base fuel (divisor / base) (number % divisor)
      else [number]

theorem divisorDigits_pow {base places fuel : Nat} (large : 1 < base) (number : Nat)
    (enough : places ≤ fuel) :
    divisorDigits base fuel (base ^ places) number = paddedNumeral base places number := by
  induction fuel generalizing places number with
  | zero =>
      rw [Nat.le_zero.mp enough]
      rfl
  | succ fuel induction =>
      cases places with
      | zero =>
          rw [divisorDigits, if_neg (by rw [Nat.pow_zero]; omega), paddedNumeral]
      | succ places =>
          rw [divisorDigits, if_pos (Nat.le_self_pow (by omega) base), Nat.pow_succ,
            Nat.mul_div_cancel _ (by omega), induction _ (by omega), paddedNumeral, Nat.pow_succ]

theorem divisorDigits_shrinkDivisor {base number places fuel : Nat} (large : 1 < base)
    (bound : number < base ^ (places + 1)) (enough : places ≤ fuel) :
    divisorDigits base fuel (shrinkDivisor base number fuel (base ^ places)) number =
      numeral base number := by
  obtain ⟨first, atMost, divisor, small, used⟩ := shrinkDivisor_pow large bound enough
  rw [divisor, divisorDigits_pow large number (by omega), paddedNumeral_eq large small used]

/-! ## Digits by shifting a word -/

/-- `for (i = bits * places; i > 0; i -= bits)`: the digit `(word >> i) & mask`,
where zeros in front are left out, and then `word & mask`. -/
def shiftDigits {width : Nat} (bits : Nat) (word : BitVec width) :
    (places : Nat) → (leading : Bool) → List Nat
  | 0, _ => [(word &&& .ofNat width (2 ^ bits - 1)).toNat]
  | places + 1, leading =>
      let digit := ((word >>> (bits * (places + 1))) &&& .ofNat width (2 ^ bits - 1)).toNat
      if digit = 0 ∧ leading = true then shiftDigits bits word places leading
      else digit :: shiftDigits bits word places false

section Shift

variable {width bits : Nat} (fits : bits ≤ width) (word : BitVec width)

include fits

theorem toNat_shiftRight_and (places : Nat) :
    ((word >>> (bits * places)) &&& .ofNat width (2 ^ bits - 1)).toNat =
      word.toNat / (2 ^ bits) ^ places % 2 ^ bits := by
  have mask : 2 ^ bits - 1 < 2 ^ width := by
    have atMost : 2 ^ bits ≤ 2 ^ width := Nat.pow_le_pow_right (by omega) fits
    have positive : 0 < 2 ^ bits := Nat.two_pow_pos bits
    omega
  rw [BitVec.toNat_and, BitVec.toNat_ushiftRight, BitVec.toNat_ofNat, Nat.mod_eq_of_lt mask,
    Nat.and_two_pow_sub_one_eq_mod, Nat.shiftRight_eq_div_pow, Nat.pow_mul]

theorem shiftDigits_false (places : Nat) :
    shiftDigits bits word places false =
      paddedNumeral (2 ^ bits) places (word.toNat % (2 ^ bits) ^ (places + 1)) := by
  induction places with
  | zero =>
      have last := toNat_shiftRight_and fits word 0
      rw [Nat.mul_zero, BitVec.ushiftRight_zero, Nat.pow_zero, Nat.div_one] at last
      rw [shiftDigits, last, Nat.zero_add, Nat.pow_one, paddedNumeral]
  | succ places induction =>
      have divided : word.toNat % (2 ^ bits) ^ (places + 2) / (2 ^ bits) ^ (places + 1) =
          word.toNat / (2 ^ bits) ^ (places + 1) % 2 ^ bits := by
        rw [Nat.pow_succ _ (places + 1), Nat.mod_mul_right_div_self]
      have rest : word.toNat % (2 ^ bits) ^ (places + 2) % (2 ^ bits) ^ (places + 1) =
          word.toNat % (2 ^ bits) ^ (places + 1) :=
        Nat.mod_mod_of_dvd _ (pow_dvd_pow _ (by omega))
      simp only [shiftDigits, Bool.false_eq_true, and_false, if_false]
      rw [toNat_shiftRight_and fits, induction, paddedNumeral, divided, rest]

theorem shiftDigits_true (positive : 0 < bits) (places : Nat) :
    shiftDigits bits word places true =
      numeral (2 ^ bits) (word.toNat % (2 ^ bits) ^ (places + 1)) := by
  have large : 1 < 2 ^ bits := Nat.one_lt_two_pow (by omega)
  induction places with
  | zero =>
      have last := toNat_shiftRight_and fits word 0
      rw [Nat.mul_zero, BitVec.ushiftRight_zero, Nat.pow_zero, Nat.div_one] at last
      rw [shiftDigits, last, Nat.zero_add, Nat.pow_one,
        numeral_of_lt (Nat.mod_lt _ (by omega))]
  | succ places induction =>
      have power : 0 < (2 ^ bits) ^ (places + 1) := Nat.pow_pos (by omega)
      have divided : word.toNat % (2 ^ bits) ^ (places + 2) / (2 ^ bits) ^ (places + 1) =
          word.toNat / (2 ^ bits) ^ (places + 1) % 2 ^ bits := by
        rw [Nat.pow_succ _ (places + 1), Nat.mod_mul_right_div_self]
      have rest : word.toNat % (2 ^ bits) ^ (places + 2) % (2 ^ bits) ^ (places + 1) =
          word.toNat % (2 ^ bits) ^ (places + 1) :=
        Nat.mod_mod_of_dvd _ (pow_dvd_pow _ (by omega))
      rw [shiftDigits, toNat_shiftRight_and fits]
      by_cases zero : word.toNat / (2 ^ bits) ^ (places + 1) % 2 ^ bits = 0
      · have below : word.toNat % (2 ^ bits) ^ (places + 2) < (2 ^ bits) ^ (places + 1) := by
          rw [← Nat.div_eq_zero_iff_lt power, divided, zero]
        rw [if_pos ⟨zero, rfl⟩, induction, ← rest, Nat.mod_eq_of_lt below]
      · have first : (2 ^ bits) ^ (places + 1) ≤ word.toNat % (2 ^ bits) ^ (places + 2) := by
          rw [← Nat.not_lt, ← Nat.div_eq_zero_iff_lt power, divided]
          exact zero
        rw [if_neg (fun both => zero both.1), shiftDigits_false fits,
          ← paddedNumeral_eq large (Nat.mod_lt _ (Nat.pow_pos (by omega))) (.inl first),
          paddedNumeral, divided, rest]

end Shift

/-! ## Fields of a word -/

theorem shifted_or (places high : Nat) {low : Nat} (small : low < 2 ^ places) :
    high * 2 ^ places ||| low = high * 2 ^ places + low := by
  rw [← Nat.shiftLeft_eq, Nat.shiftLeft_add_eq_or_of_lt small]

/-! ## Digits as characters -/

/-- The character of a digit: `0` to `9`, then `A` on. -/
def digitChar (digit : Nat) : UInt8 :=
  if 10 ≤ digit then .ofNat (digit - 10 + 0x41) else .ofNat (digit + 0x30)

def text (base number : Nat) : List UInt8 := (numeral base number).map digitChar

/-- The text of an integer has a sign in front if it is negative. -/
def signedText (base : Nat) (number : Int) : List UInt8 :=
  if number < 0 then 0x2D :: text base number.natAbs else text base number.natAbs

theorem toNat_digitChar {digit : Nat} (small : digit < 36) :
    (digitChar digit).toNat = if 10 ≤ digit then digit - 10 + 0x41 else digit + 0x30 := by
  unfold digitChar
  split
  · rw [UInt8.toNat_ofNat', Nat.mod_eq_of_lt (by omega)]
  · rw [UInt8.toNat_ofNat', Nat.mod_eq_of_lt (by omega)]

theorem digitChar_bounds {digit : Nat} (small : digit < 36) :
    0x30 ≤ (digitChar digit).toNat ∧ (digitChar digit).toNat ≤ 0x5A := by
  rw [toNat_digitChar small]
  split <;> omega

section Text

variable {base : Nat} (large : 1 < base) (small : base ≤ 36)

include large

omit large in
theorem text_of_lt {number : Nat} (small : number < base) :
    text base number = [digitChar number] := by
  rw [text, numeral_of_lt small, List.map_singleton]

theorem text_of_le {number : Nat} (notSmall : base ≤ number) :
    text base number = text base (number / base) ++ [digitChar (number % base)] := by
  rw [text, numeral_of_le large notSmall, List.map_append, List.map_singleton, text]

theorem text_ne_nil (number : Nat) : text base number ≠ [] :=
  fun empty => numeral_ne_nil large number (List.map_eq_nil_iff.mp empty)

include small

theorem bounds_of_mem_text {number : Nat} {byte : UInt8} (member : byte ∈ text base number) :
    0x30 ≤ byte.toNat ∧ byte.toNat ≤ 0x5A := by
  obtain ⟨digit, digitMember, rfl⟩ := List.mem_map.mp member
  have digitBound := lt_of_mem_numeral large digitMember
  exact digitChar_bounds (by omega)

theorem zero_notMem_text (number : Nat) : (0 : UInt8) ∉ text base number := fun member => by
  have bounds := bounds_of_mem_text large small member
  simp at bounds

theorem zero_notMem_signedText (number : Int) : (0 : UInt8) ∉ signedText base number := by
  have digits := zero_notMem_text large small number.natAbs
  unfold signedText
  split
  · simpa using digits
  · exact digits

end Text

/-! ## Words of 32 bits -/

theorem map_divisorDigits_word (word : BitVec 32) :
    (divisorDigits 10 9 (shrinkDivisor 10 word.toNat 9 1000000000) word.toNat).map
      (fun digit => UInt8.ofNat (0x30 + digit)) = text 10 word.toNat := by
  have bound := word.isLt
  have digits := @divisorDigits_shrinkDivisor 10 word.toNat 9 9 (by omega) (by omega) (by omega)
  rw [show 1000000000 = 10 ^ 9 by rfl, digits]
  apply List.map_congr_left
  intro digit member
  have small := lt_of_mem_numeral (by omega) member
  rw [digitChar, if_neg (by omega), Nat.add_comm]

theorem shiftDigits_word (word : BitVec 32) :
    shiftDigits 4 word 7 true = numeral 16 word.toNat := by
  have digits := @shiftDigits_true 32 4 (by omega) word (by omega) 7
  have bound := word.isLt
  rwa [Nat.mod_eq_of_lt (by omega)] at digits

theorem length_text_word_le (word : BitVec 32) : (text 10 word.toNat).length ≤ 10 := by
  have bound := word.isLt
  rw [text, List.length_map]
  exact @length_numeral_le 10 (by omega) _ 9 (by omega)

theorem length_hex_word_le (word : BitVec 32) : (text 16 word.toNat).length ≤ 8 := by
  have bound := word.isLt
  rw [text, List.length_map]
  exact @length_numeral_le 16 (by omega) _ 7 (by omega)

theorem toNat_neg_of_negative {word : BitVec 32} (negative : ¬0 ≤ word.toInt) :
    (-word).toNat = word.toInt.natAbs := by
  have bound := word.isLt
  rw [BitVec.toInt_eq_toNat_cond] at negative ⊢
  rw [BitVec.toNat_neg]
  split at negative
  · omega
  · rw [if_neg (by assumption)]
    omega

theorem toNat_of_nonnegative {word : BitVec 32} (nonnegative : 0 ≤ word.toInt) :
    word.toNat = word.toInt.natAbs := by
  have bound := word.isLt
  rw [BitVec.toInt_eq_toNat_cond] at nonnegative ⊢
  split at nonnegative
  · rw [if_pos (by assumption)]
    omega
  · omega

theorem length_signedText_word_le (word : BitVec 32) :
    (signedText 10 word.toInt).length ≤ 11 := by
  unfold signedText
  split
  case isTrue negative =>
    have digits := length_text_word_le (-word)
    rw [toNat_neg_of_negative (Int.not_le.mpr negative)] at digits
    rw [List.length_cons]
    omega
  case isFalse nonnegative =>
    have digits := length_text_word_le word
    rw [toNat_of_nonnegative (Int.not_lt.mp nonnegative)] at digits
    omega

/-! ## Reading digits -/

section Scan

variable {R : Type} [CommSemiring R]

/-- Accumulate digits while there are some; the characters behind them are left. -/
def scan (digitOf : UInt8 → Option Nat) (base : R) : R → List UInt8 → R × List UInt8
  | sum, [] => (sum, [])
  | sum, character :: rest =>
      match digitOf character with
      | some digit => scan digitOf base (sum * base + digit) rest
      | none => (sum, character :: rest)

variable {digitOf : UInt8 → Option Nat}

theorem scan_digits {digits : List Nat} {rest : List UInt8}
    (known : ∀ digit ∈ digits, digitOf (digitChar digit) = some digit)
    (ends : ∀ character ∈ rest.head?, digitOf character = none) (base sum : R) :
    scan digitOf base sum (digits.map digitChar ++ rest) =
      (accumulate base sum digits, rest) := by
  induction digits generalizing sum with
  | nil =>
      cases rest with
      | nil => rfl
      | cons character rest => simp [scan, ends character rfl]
  | cons digit digits induction =>
      rw [List.map_cons, List.cons_append, scan, known digit List.mem_cons_self]
      exact induction (fun other member => known other (List.mem_cons_of_mem _ member)) _

theorem scan_text {base : Nat} (large : 1 < base)
    (known : ∀ digit < base, digitOf (digitChar digit) = some digit)
    {rest : List UInt8} (ends : ∀ character ∈ rest.head?, digitOf character = none)
    (number : Nat) :
    scan digitOf (base : R) 0 (text base number ++ rest) = ((number : R), rest) := by
  rw [text, scan_digits (fun digit member => known digit (lt_of_mem_numeral large member)) ends,
    accumulate_numeral]

end Scan

/-- The digit of a character between `0` and `9`. -/
def decimalDigit (character : UInt8) : Option Nat :=
  if 0x30 ≤ character ∧ character ≤ 0x39 then some (character.toNat - 0x30) else none

theorem decimalDigit_digitChar {digit : Nat} (small : digit < 10) :
    decimalDigit (digitChar digit) = some digit := by
  have character := toNat_digitChar (show digit < 36 by omega)
  rw [if_neg (by omega)] at character
  have inside : 0x30 ≤ digitChar digit ∧ digitChar digit ≤ 0x39 := by
    rw [UInt8.le_iff_toNat_le, UInt8.le_iff_toNat_le, character]
    exact ⟨Nat.le_add_left _ _, Nat.add_le_add_right (Nat.le_of_lt_succ small) _⟩
  rw [decimalDigit, if_pos inside, character, Nat.add_sub_cancel]

theorem scan_decimal {R : Type} [CommSemiring R] (number : Nat) :
    scan decimalDigit (10 : R) 0 (text 10 number) = ((number : R), []) := by
  have scanned := @scan_text R _ decimalDigit 10 (by omega)
    (fun digit => decimalDigit_digitChar) [] (by simp) number
  rwa [List.append_nil, Nat.cast_ofNat] at scanned

theorem head_text_ne_sign {base : Nat} (large : 1 < base) (small : base ≤ 36) (number : Nat) :
    (text base number).head? ≠ some 0x2D := by
  intro sign
  have bounds := bounds_of_mem_text large small (List.mem_of_mem_head? sign)
  simp at bounds

end Dbos.Numerals
