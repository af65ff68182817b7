import Dbos.Kernel.Util.Kstdio

/-! # Numbers as text in the kernel

What `ksprintf` writes for a number, and `atoi`, which reads it again. -/

namespace Dbos.Kstdio

open TextBuffer Numerals Formats

/-- `atoi`. Its arithmetic wraps around. -/
def atoi (str : List UInt8) : BitVec 32 :=
  if str.head? = some 0x2D then -1 * (scan decimalDigit 10 0 str.tail).1
  else 1 * (scan decimalDigit 10 0 str).1

theorem atoi_signedText (num : BitVec 32) : atoi (signedText 10 num.toInt) = num := by
  unfold atoi signedText
  split
  case isTrue negative =>
    have magnitude := toNat_neg_of_negative (Int.not_le.mpr negative)
    rw [List.head?_cons, if_pos rfl, List.tail_cons, scan_decimal, ← magnitude,
      BitVec.natCast_eq_ofNat, BitVec.ofNat_toNat, BitVec.setWidth_eq]
    ring
  case isFalse nonnegative =>
    have magnitude := toNat_of_nonnegative (Int.not_lt.mp nonnegative)
    rw [if_neg (head_text_ne_sign (by omega) (by omega) _), scan_decimal, ← magnitude,
      BitVec.natCast_eq_ofNat, BitVec.ofNat_toNat, BitVec.setWidth_eq, one_mul]

theorem ksprintf_piece {string : CString} {arguments : List Argument} {piece : Piece}
    (parsed : pieces [] string.characters arguments = some [piece]) (noNul : 0 ∉ piece.text)
    (dest : Buffer) :
    ∃ stored, ksprintf dest string arguments = some stored ∧ HoldsString stored piece.text := by
  have written := ksprintf_eq parsed dest
  rw [output_cons, output_nil, List.append_nil] at written
  exact ⟨_, written, holdsString_splice noNul⟩

/-- `ksprintf` writes the numeral of a number, and `atoi` reads it again. -/
theorem ksprintf_numbers (dest : Buffer) :
    (∀ num : BitVec 32, ∃ stored,
      ksprintf dest ⟨[0x25, 0x64], by decide⟩ [.word num] = some stored ∧
      HoldsString stored (signedText 10 num.toInt) ∧
      atoi (signedText 10 num.toInt) = num) ∧
    (∀ uinteg : BitVec 32, ∃ stored,
      ksprintf dest ⟨[0x25, 0x75], by decide⟩ [.word uinteg] = some stored ∧
      HoldsString stored (text 10 uinteg.toNat)) ∧
    (∀ hex : BitVec 32, ∃ stored,
      ksprintf dest ⟨[0x25, 0x78], by decide⟩ [.word hex] = some stored ∧
      HoldsString stored (0x30 :: 0x78 :: text 16 hex.toNat)) := by
  refine ⟨fun num => ?_, fun uinteg => ?_, fun hex => ?_⟩
  · obtain ⟨stored, written, holds⟩ :=
      @ksprintf_piece ⟨[0x25, 0x64], by decide⟩ [.word num] (.decimal num) rfl
        (zero_notMem_signedText (by omega) (by omega) _) dest
    exact ⟨stored, written, holds, atoi_signedText num⟩
  · exact @ksprintf_piece ⟨[0x25, 0x75], by decide⟩ [.word uinteg] (.unsigned uinteg) rfl
      (zero_notMem_text (by omega) (by omega) _) dest
  · exact @ksprintf_piece ⟨[0x25, 0x78], by decide⟩ [.word hex] (.hex hex) rfl
      (zero_notMem_hex _) dest

end Dbos.Kstdio
