import Mathlib.Order.Bounds.Basic
import Dbos.Foundation.Numerals
import Dbos.Drivers.Tarfs.Scan

/-! # The size field

`get_file_size_tarfs` folds the 12 bytes of the field into a word and leaves out blanks
wherever they are. The loops advance by the size, and go to the start of a block in the next
round only. -/

namespace Dbos.Tarfs

open Dbos.Numerals Dbos.Strings

/-! ## The digits -/

def sizeField (header : Header) : Str := (List.range 12).map fun index => header (124 + index)

/-- One round of `get_file_size_tarfs`. -/
def sizeRound (size : Nat) (byte : UInt8) : Nat :=
  if byte = 0 ∨ byte = 0x20 then size
  else (((size * 8 : Nat) + byte.toInt8.toInt - 0x30) % (wordSize : Int)).toNat

theorem getFileSizeTarfs_eq (header : Header) :
    getFileSizeTarfs header = (sizeField header).foldl sizeRound 0 := rfl

/-- The octal digits of a number in a field of 12 bytes. -/
structure Rendering (number : Nat) where
  spaces : Nat
  zeros : Nat
  terminator : Str
  ends : terminator ≠ []
  blank : ∀ byte ∈ terminator, byte = 0 ∨ byte = 0x20
  fills : spaces + zeros + (text 8 number).length + terminator.length = 12

def Rendering.bytes {number : Nat} (rendering : Rendering number) : Str :=
  List.replicate rendering.spaces 0x20 ++ List.replicate rendering.zeros 0x30 ++ text 8 number ++
    rendering.terminator

theorem sizeRound_blank {byte : UInt8} (blank : byte = 0 ∨ byte = 0x20) (size : Nat) :
    sizeRound size byte = size :=
  if_pos blank

theorem foldl_blank {bytes : Str} (blank : ∀ byte ∈ bytes, byte = 0 ∨ byte = 0x20) (size : Nat) :
    bytes.foldl sizeRound size = size := by
  induction bytes with
  | nil => rfl
  | cons byte bytes induction =>
      rw [List.foldl_cons, sizeRound_blank (blank byte List.mem_cons_self)]
      exact induction fun other member => blank other (List.mem_cons_of_mem _ member)

theorem foldl_zeros (count : Nat) : (List.replicate count 0x30).foldl sizeRound 0 = 0 := by
  induction count with
  | zero => rfl
  | succ count induction =>
      rw [List.replicate_succ, List.foldl_cons]
      exact induction

theorem sizeRound_digit {digit : Nat} (small : digit < 8) (size : Nat) :
    sizeRound size (digitChar digit) = (size * 8 + digit) % wordSize := by
  have every : ∀ digit < 8, ¬(digitChar digit = 0 ∨ digitChar digit = 0x20) ∧
      (digitChar digit).toInt8.toInt = digit + 0x30 := by decide
  rcases every digit small with ⟨notBlank, value⟩
  rw [sizeRound, if_neg notBlank, value]
  unfold wordSize
  omega

theorem foldl_text {number : Nat} (small : number < wordSize) :
    (text 8 number).foldl sizeRound 0 = number := by
  induction number using Nat.strongRecOn with
  | ind number induction =>
      by_cases single : number < 8
      · rw [text_of_lt single, List.foldl_cons, List.foldl_nil, sizeRound_digit single, Nat.zero_mul,
          Nat.zero_add]
        exact Nat.mod_eq_of_lt (by omega)
      · rw [text_of_le (by decide) (by omega), List.foldl_append,
          induction (number / 8) (by omega) (by omega), List.foldl_cons, List.foldl_nil,
          sizeRound_digit (by omega), Nat.mod_eq_of_lt (by omega)]
        omega

theorem foldl_bytes {number : Nat} (small : number < wordSize) (rendering : Rendering number) :
    rendering.bytes.foldl sizeRound 0 = number := by
  unfold Rendering.bytes
  rw [List.foldl_append, List.foldl_append, List.foldl_append,
    foldl_blank fun byte member => .inr (List.eq_of_mem_replicate member), foldl_zeros,
    foldl_text small, foldl_blank rendering.blank]

/-! ## The next header -/

/-- The multiples of the block size that are not below the address. -/
def blocksFrom (address : Nat) : Set Nat := { block | hdrSize ∣ block ∧ address ≤ block }

theorem align_eq_of_isLeast {address least : Nat} (isLeast : IsLeast (blocksFrom address) least)
    (small : least < wordSize) : align address = least := by
  rcases isLeast with ⟨⟨⟨count, rfl⟩, above⟩, below⟩
  have isNext : hdrSize * ((address + (hdrSize - 1)) / hdrSize) ∈ blocksFrom address := by
    refine ⟨Nat.dvd_mul_right _ _, ?_⟩
    unfold hdrSize
    omega
  have atMost := below isNext
  unfold align
  unfold hdrSize at *
  split
  · rw [Nat.mod_eq_of_lt (by omega)]
    omega
  · omega

section Rounds

variable {parse : Header → Str → Option (Int × Header)} {memory : Memory} {node : Node}
  {position next : Position} {header : Header}

/-- One of the loops goes from one position to the next one. -/
def Continues (parse : Header → Str → Option (Int × Header)) (memory : Memory) (node : Node)
    (position next : Position) : Prop :=
  (∃ entryNo, readDirectoryRound parse memory node entryNo position = some (.inr next)) ∨
    ∃ chunk, findRound parse memory node chunk position = some (.inr next)

theorem Continues.address (continues : Continues parse memory node position next)
    (isRead : readNodeTarfs memory node (align position.address) position.header = some header) :
    next.address = (align position.address + hdrSize + getFileSizeTarfs header) % wordSize := by
  rcases continues with ⟨entryNo, isNext⟩ | ⟨chunk, isNext⟩
  · unfold readDirectoryRound at isNext
    simp only [isRead, Option.bind_some] at isNext
    split at isNext
    case isTrue isUstar =>
      rcases Option.map_eq_some_iff.mp isNext with ⟨⟨isChild, parsed⟩, -, rest⟩
      simp only at rest
      split at rest
      · cases rest
      · split at rest
        · cases rest
        · cases rest
          rfl
    case isFalse => cases isNext
  · unfold findRound at isNext
    simp only [isRead, Option.bind_some] at isNext
    split at isNext
    case isTrue isUstar =>
      rcases Option.map_eq_some_iff.mp isNext with ⟨⟨isChild, parsed⟩, -, rest⟩
      simp only at rest
      split at rest
      · cases rest
      · cases rest
        rfl
    case isFalse => cases isNext

/-- The size is the number, and the next header is looked for at the first block that is not
before the end of the contents. -/
theorem sizeField_exact {number : Nat} (small : number < 2 ^ 32) (rendering : Rendering number)
    (isField : sizeField header = rendering.bytes) :
    getFileSizeTarfs header = number ∧
      ∀ {parse memory node position next least},
        readNodeTarfs memory node (align position.address) position.header = some header →
        Continues parse memory node position next →
        IsLeast (blocksFrom (align position.address + hdrSize + number)) least →
        least ≤ 2 ^ 32 - 1 → align next.address = least := by
  have isSize : getFileSizeTarfs header = number := by
    rw [getFileSizeTarfs_eq, isField, foldl_bytes small]
  refine ⟨isSize, ?_⟩
  intro parse memory node position next least isRead continues isLeast bound
  have below := isLeast.1.2
  have leastSmall : least < wordSize := by
    unfold wordSize
    omega
  rw [continues.address isRead, isSize, Nat.mod_eq_of_lt (by omega)]
  exact align_eq_of_isLeast isLeast leastSmall

end Rounds

/-- 1000 bytes under the header of `./`. -/
def thousand : Memory := imageAt 0x100000 [⟨[], 0x30, List.replicate 1000 1⟩]

def thousandRoot : Node := mountTarfs ⟨0x100000, 4096, by decide⟩ [slash]

/-- What the first round reads. -/
def thousandHeader : Header := fun index =>
  if index < copyLength thousandRoot 0 then
    thousand ((thousandRoot.basePointer + 0 + index) % wordSize)
  else 0

def thousandField : Rendering 1000 where
  spaces := 0
  zeros := 7
  terminator := [0]
  ends := by decide
  blank := by simp
  fills := by decide

theorem sizeField_exact_thousand : getFileSizeTarfs thousandHeader = 1000 ∧
    ∃ next, Continues parseHeader thousand thousandRoot .initial next ∧
      align next.address = 1536 := by
  have isField : sizeField thousandHeader = thousandField.bytes := by decide +kernel
  have isRead : readNodeTarfs thousand thousandRoot 0 (fun _ => 0) = some thousandHeader :=
    (readNodeTarfs_eq thousand thousandRoot 0 fun _ => 0).trans (if_pos (by decide))
  have goesOn : ((findRound parseHeader thousand thousandRoot [] .initial).any
      Sum.isRight) = true := by
    decide +kernel
  have isLeast : IsLeast (blocksFrom (0 + hdrSize + 1000)) 1536 := by
    refine ⟨⟨⟨3, rfl⟩, by decide⟩, ?_⟩
    rintro block ⟨⟨count, rfl⟩, above⟩
    change 0 + 512 + 1000 ≤ 512 * count at above
    show 1536 ≤ 512 * count
    omega
  rcases (Option.any_eq_true _ _).mp goesOn with ⟨found, isFound, isRight⟩
  rcases Sum.isRight_iff.mp isRight with ⟨next, rfl⟩
  have continues : Continues parseHeader thousand thousandRoot .initial next :=
    .inr ⟨[], isFound⟩
  have exact := sizeField_exact (by omega) thousandField isField
  exact ⟨exact.1, next, continues, @exact.2 _ _ _ .initial _ _ isRead continues isLeast (by omega)⟩

end Dbos.Tarfs
