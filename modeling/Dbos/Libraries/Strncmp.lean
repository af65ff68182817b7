import Mathlib.Algebra.Group.Nat.Defs
import Mathlib.Data.Int.Order.Basic
import Mathlib.Data.Sign.Defs
import Dbos.Foundation.TextBuffer
import Dbos.Kernel.Util.Strings

/-! # `strncmp` of the C library

It compares signed characters and stops where either string ends. The kernel's
`strncmp` compares unsigned characters and stops where both end. -/

namespace Dbos.Libc

open TextBuffer

/-- A `char` is signed. -/
def signed (character : UInt8) : Int := character.toBitVec.toInt

/-- `strncmp` of the C library. -/
def strncmp : List UInt8 → List UInt8 → Nat → Int
  | first :: str1, second :: str2, n + 1 =>
      if signed first > signed second then 1
      else if signed second > signed first then -1
      else strncmp str1 str2 n
  | _, _, _ => 0

/-- The kernel's `strncmp`. Its length is an `int`, and a negative one allows no round. -/
def kernelStrncmp (str1 str2 : List UInt8) (length : BitVec 32) : Int :=
  Strings.strncmp str1 str2 length.toInt.toNat

/-- The strings agree on their first characters, up to and including a terminator. -/
def AgreeOn (n : Nat) (str1 str2 : List UInt8) : Prop :=
  (str1 ++ [0]).take n = (str2 ++ [0]).take n

/-- The two functions answer alike, and the answer is `0` where the strings agree. -/
def Alike (str1 str2 : CString) (n : BitVec 32) : Prop :=
  (strncmp str1.characters str2.characters n.toNat).sign =
      (kernelStrncmp str1.characters str2.characters n).sign ∧
    (strncmp str1.characters str2.characters n.toNat = 0 ↔
      AgreeOn n.toNat str1.characters str2.characters)

/-- The first two characters, among as many as are looked at, that are not the same. -/
def firstDifference : List UInt8 → List UInt8 → Nat → Option (UInt8 × UInt8)
  | _, _, 0 => none
  | [], [], _ + 1 => none
  | [], second :: _, _ + 1 => some (0, second)
  | first :: _, [], _ + 1 => some (first, 0)
  | first :: str1, second :: str2, n + 1 =>
      if first = second then firstDifference str1 str2 n else some (first, second)

/-- Both strings go on at the difference, with characters of the same sign. -/
def Harmless (difference : UInt8 × UInt8) : Prop :=
  difference.1 ≠ 0 ∧ difference.2 ≠ 0 ∧ (difference.1 < 0x80 ↔ difference.2 < 0x80)

theorem ne_of_firstDifference {str1 str2 : List UInt8} {n : Nat} {first second : UInt8}
    (noNul1 : 0 ∉ str1) (noNul2 : 0 ∉ str2)
    (found : firstDifference str1 str2 n = some (first, second)) : first ≠ second := by
  fun_induction firstDifference str1 str2 n with
  | case1 => cases found
  | case2 => cases found
  | case3 other str2 n =>
      cases found
      exact fun same => noNul2 (same ▸ List.mem_cons_self)
  | case4 other str1 n =>
      cases found
      exact fun same => noNul1 (same ▸ List.mem_cons_self)
  | case5 n first str1 str2 induction =>
      rw [List.mem_cons, not_or] at noNul1 noNul2
      exact induction noNul1.2 noNul2.2 found
  | case6 first str1 second str2 n different =>
      cases found
      exact different

theorem agreeOn_iff {str1 str2 : List UInt8} {n : Nat} (noNul1 : 0 ∉ str1) (noNul2 : 0 ∉ str2) :
    AgreeOn n str1 str2 ↔ firstDifference str1 str2 n = none := by
  unfold AgreeOn
  fun_induction firstDifference str1 str2 n with
  | case1 => simp
  | case2 => simp
  | case3 second str2 n =>
      rw [List.mem_cons, not_or] at noNul2
      simp [noNul2.1]
  | case4 first str1 n =>
      rw [List.mem_cons, not_or] at noNul1
      simp [Ne.symm noNul1.1]
  | case5 n first str1 str2 induction =>
      rw [List.mem_cons, not_or] at noNul1 noNul2
      simpa using induction noNul1.2 noNul2.2
  | case6 first str1 second str2 n different => simp [different]

theorem signed_eq (character : UInt8) :
    signed character =
      if character < 0x80 then (character.toNat : Int) else character.toNat - 0x100 := by
  have small : character < 0x80 ↔ 2 * character.toBitVec.toNat < 2 ^ 8 := by
    rw [UInt8.lt_iff_toNat_lt, UInt8.toNat_toBitVec]
    change character.toNat < 128 ↔ _
    omega
  unfold signed
  rw [BitVec.toInt_eq_toNat_cond]
  split
  case isTrue below => rw [if_pos (small.mpr below), UInt8.toNat_toBitVec]
  case isFalse above =>
    rw [if_neg (fun below => above (small.mp below)), UInt8.toNat_toBitVec]
    rfl

theorem signed_injective {first second : UInt8} (same : signed first = signed second) :
    first = second :=
  UInt8.toBitVec_inj.mp (BitVec.toInt_inj.mp same)

theorem strncmp_eq {str1 str2 : List UInt8} {n : Nat} (noNul1 : 0 ∉ str1) (noNul2 : 0 ∉ str2) :
    strncmp str1 str2 n =
      match firstDifference str1 str2 n with
      | none => 0
      | some (first, second) =>
          if first = 0 ∨ second = 0 then 0
          else if signed first > signed second then 1 else -1 := by
  fun_induction firstDifference str1 str2 n with
  | case1 str1 str2 => cases str1 <;> cases str2 <;> rfl
  | case2 => rfl
  | case3 second str2 n => simp [strncmp]
  | case4 first str1 n => simp [strncmp]
  | case5 n character str1 str2 induction =>
      rw [List.mem_cons, not_or] at noNul1 noNul2
      rw [strncmp, if_neg (Int.lt_irrefl _), if_neg (Int.lt_irrefl _),
        induction noNul1.2 noNul2.2]
  | case6 first str1 second str2 n different =>
      rw [List.mem_cons, not_or] at noNul1 noNul2
      have notNul : ¬(first = 0 ∨ second = 0) := fun either =>
        either.elim (fun zero => noNul1.1 zero.symm) (fun zero => noNul2.1 zero.symm)
      simp only [strncmp, if_neg notNul]
      split
      · rfl
      case isFalse notGreater =>
        have less : signed second > signed first :=
          lt_of_le_of_ne (Int.not_lt.mp notGreater) fun same => different (signed_injective same)
        rw [if_pos less]

theorem kernel_strncmp_eq {str1 str2 : List UInt8} {n : Nat} (noNul1 : 0 ∉ str1)
    (noNul2 : 0 ∉ str2) :
    Strings.strncmp str1 str2 n =
      match firstDifference str1 str2 n with
      | none => 0
      | some (first, second) => if first < second then -1 else 1 := by
  fun_induction firstDifference str1 str2 n with
  | case1 str1 str2 => cases str1 <;> cases str2 <;> rfl
  | case2 => rfl
  | case3 second str2 n =>
      rw [List.mem_cons, not_or] at noNul2
      have positive : 0 < second := UInt8.pos_iff_ne_zero.mpr (Ne.symm noNul2.1)
      simp [Strings.strncmp, positive]
  | case4 first str1 n => simp [Strings.strncmp]
  | case5 n character str1 str2 induction =>
      rw [List.mem_cons, not_or] at noNul1 noNul2
      simp [Strings.strncmp, induction noNul1.2 noNul2.2]
  | case6 first str1 second str2 n different =>
      simp only [Strings.strncmp]
      split
      · rfl
      case isFalse notLess =>
        have greater : second < first :=
          UInt8.lt_of_le_of_ne (UInt8.not_lt.mp notLess) (Ne.symm different)
        rw [if_pos greater]

theorem signed_gt_iff {first second : UInt8} (different : first ≠ second) :
    (signed first > signed second ↔ ¬first < second) ↔ (first < 0x80 ↔ second < 0x80) := by
  have notSame : first.toNat ≠ second.toNat := fun same => different (UInt8.toNat_inj.mp same)
  have firstBound := first.toNat_lt
  have secondBound := second.toNat_lt
  have firstLow : first < 0x80 ↔ first.toNat < 128 := UInt8.lt_iff_toNat_lt
  have secondLow : second < 0x80 ↔ second.toNat < 128 := UInt8.lt_iff_toNat_lt
  have order : first < second ↔ first.toNat < second.toNat := UInt8.lt_iff_toNat_lt
  simp only [signed_eq, firstLow, secondLow, order]
  split <;> split <;> omega

theorem sign_eq_iff (left right : Prop) [Decidable left] [Decidable right] :
    (if left then (1 : Int) else -1).sign = (if right then (-1 : Int) else 1).sign ↔
      (left ↔ ¬right) := by
  split <;> split <;> simp_all

theorem toNat_toInt (n : BitVec 32) :
    n.toInt.toNat = if n.toNat < 2 ^ 31 then n.toNat else 0 := by
  have bound := n.isLt
  rw [BitVec.toInt_eq_toNat_cond]
  split <;> split <;> omega

/-- The two functions answer alike where there is no difference, or the first one is
harmless and the length is not negative as an `int`. -/
theorem alike_iff (str1 str2 : CString) (n : BitVec 32) :
    Alike str1 str2 n ↔
      ∀ difference ∈ firstDifference str1.characters str2.characters n.toNat,
        n.toNat < 2 ^ 31 ∧ Harmless difference := by
  unfold Alike kernelStrncmp
  rw [agreeOn_iff str1.noNul str2.noNul, strncmp_eq str1.noNul str2.noNul,
    kernel_strncmp_eq str1.noNul str2.noNul, toNat_toInt]
  have nothing : firstDifference str1.characters str2.characters 0 = none := by
    cases str1.characters <;> cases str2.characters <;> rfl
  cases found : firstDifference str1.characters str2.characters n.toNat with
  | none =>
      have kernelNone : firstDifference str1.characters str2.characters
          (if n.toNat < 2 ^ 31 then n.toNat else 0) = none := by
        split
        · exact found
        · exact nothing
      rw [kernelNone]
      simp
  | some difference =>
      obtain ⟨first, second⟩ := difference
      have different := ne_of_firstDifference str1.noNul str2.noNul found
      simp only [Option.mem_def, Option.some_inj, forall_eq', reduceCtorEq, iff_false]
      by_cases ended : first = 0 ∨ second = 0
      · have harmful : ¬Harmless (first, second) := fun harmless =>
          ended.elim harmless.1 harmless.2.1
        simp [ended, harmful]
      · have bothGoOn := not_or.mp ended
        have harmless : Harmless (first, second) ↔ (first < 0x80 ↔ second < 0x80) :=
          ⟨fun harmless => harmless.2.2, fun same => ⟨bothGoOn.1, bothGoOn.2, same⟩⟩
        have nonzero : (if signed first > signed second then (1 : Int) else -1) ≠ 0 := by
          split <;> decide
        rw [if_neg ended, harmless, ← signed_gt_iff different]
        by_cases short : n.toNat < 2 ^ 31
        · rw [if_pos short, found]
          simp only [sign_eq_iff, nonzero, not_false_eq_true, and_true, short, true_and]
        · rw [if_neg short, nothing]
          simp only [Int.sign_zero, Int.sign_eq_zero_iff_zero, nonzero, short, false_and]

/-- `"a"` and `"ab"` are different, but the C library answers `0`. -/
theorem not_alike_prefix : ¬Alike ⟨[0x61], by decide⟩ ⟨[0x61, 0x62], by decide⟩ 2 := by
  rintro ⟨same, -⟩
  exact absurd same (by decide)

end Dbos.Libc
