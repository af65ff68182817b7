import Dbos.Foundation.Formats

/-! # Formatted output of the C library

`vsprintf` writes into a buffer and `vfprintf` into a file. Only some directives
put a `NUL` behind what they write into the buffer. -/

namespace Dbos.Stdio

open TextBuffer Numerals Formats

/-- `%f` is left out: what it prints is a matter of floating point. -/
def floats : List UInt8 := [0x66]

/-! ## Numbers -/

/-- `sputuint(&str[position], uinteg)`: what it returns and the buffer afterwards. -/
def sputuint (uinteg : BitVec 32) (str : Buffer) (position : Nat) : Nat × Buffer :=
  let divisor := shrinkDivisor 10 uinteg.toNat 9 1000000000
  let digits := (divisorDigits 10 9 divisor uinteg.toNat).map fun digit => .ofNat (0x30 + digit)
  (digits.length, put (splice str position digits) (position + digits.length) 0)

def sputint (num : BitVec 32) (str : Buffer) (position : Nat) : Nat × Buffer :=
  if 0 ≤ num.toInt then sputuint num str position
  else
    let (written, stored) := sputuint (-num) (put str position 0x2D) (position + 1)
    (written + 1, stored)

/-- `sputhex`. There is no `NUL` behind the digits. -/
def sputhex (uinteg : BitVec 32) (str : Buffer) (position : Nat) : Nat × Buffer :=
  let digits := (shiftDigits 4 uinteg 7 true).map digitChar
  (1 + digits.length + 1,
    splice (put (put str position 0x30) (position + 1) 0x78) (position + 2) digits)

/-- `strcpy(&str[position], source)`. -/
def strcpy (str : Buffer) (position : Nat) (source : CString) : Buffer :=
  splice str position (source.characters ++ [0])

/-! ## `vsprintf` -/

/-- The buffer `str` and the position `j` of the next character in it. -/
structure Destination where
  str : Buffer
  j : Nat

namespace Destination

/-- `str[j++] = character`. -/
def store (destination : Destination) (character : UInt8) : Destination :=
  ⟨put destination.str destination.j character, destination.j + 1⟩

/-- `j += printer(&str[j], value)`. -/
def print (printer : BitVec 32 → Buffer → Nat → Nat × Buffer) (value : BitVec 32)
    (destination : Destination) : Destination :=
  let (written, stored) := printer value destination.str destination.j
  ⟨stored, destination.j + written⟩

end Destination

/-- The branches of the loop of `vsprintf`, which are those of `vsnprintf` as well. -/
def vsprintfPiece : Piece → Destination → Destination
  | .literal character, destination => destination.store character
  | .string text, destination =>
      ⟨strcpy destination.str destination.j text, destination.j + text.characters.length⟩
  | .char value, destination => destination.store (lowByte value)
  | .decimal value, destination => destination.print sputint value
  | .unsigned value, destination => destination.print sputuint value
  | .hex value, destination => destination.print sputhex value
  | .other code, destination => destination.store code

/-- `vsprintf`: what it returns and the buffer afterwards. -/
def vsprintf (str : Buffer) (characters : CString) (arguments : List Argument) :
    Option (Nat × Buffer) :=
  (format floats vsprintfPiece characters.characters arguments ⟨str, 0⟩).map fun destination =>
    (destination.j, destination.str)

/-! ## `vfprintf` -/

/-- The bytes written to a file one after the other: every `fwrite` moves the
position of the next one behind its bytes. -/
abbrev File := List UInt8

def fputc (character : UInt8) (file : File) : File := file ++ [character]

def fputs (characters : List UInt8) (file : File) : File := file ++ characters

/-- The file and the count `j`. -/
structure Written where
  file : File
  j : Nat

namespace Written

/-- `fputc(character, file); j++`. -/
def putCharacter (written : Written) (character : UInt8) : Written :=
  ⟨fputc character written.file, written.j + 1⟩

/-- A number is printed into `num_temp_str`, whose 100 bytes are zero before, and
from there to the file. -/
def print (printer : BitVec 32 → Buffer → Nat → Nat × Buffer) (value : BitVec 32)
    (written : Written) : Written :=
  let (count, numTempStr) := printer value (fun _ => 0) 0
  ⟨fputs ((stringAt numTempStr 100 0).getD []) written.file, written.j + count⟩

end Written

/-- The branches of the loop of `vfprintf`. -/
def vfprintfPiece : Piece → Written → Written
  | .literal character, written => written.putCharacter character
  | .string text, written =>
      ⟨fputs text.characters written.file, written.j + text.characters.length⟩
  | .char value, written => written.putCharacter (lowByte value)
  | .decimal value, written => written.print sputint value
  | .unsigned value, written => written.print sputuint value
  | .hex value, written => written.print sputhex value
  | .other code, written => written.putCharacter code

/-- `vfprintf`: what it returns and the file afterwards. -/
def vfprintf (file : File) (characters : CString) (arguments : List Argument) :
    Option (Nat × File) :=
  (format floats vfprintfPiece characters.characters arguments ⟨file, 0⟩).map fun written =>
    (written.j, written.file)

/-! ## What the number printers print -/

theorem sputuint_eq (uinteg : BitVec 32) (str : Buffer) (position : Nat) :
    sputuint uinteg str position =
      ((text 10 uinteg.toNat).length, splice str position (text 10 uinteg.toNat ++ [0])) := by
  simp only [sputuint, map_divisorDigits_word, put_eq_splice, splice_append]

theorem sputint_eq (num : BitVec 32) (str : Buffer) (position : Nat) :
    sputint num str position =
      ((signedText 10 num.toInt).length,
        splice str position (signedText 10 num.toInt ++ [0])) := by
  unfold sputint signedText
  split
  case isTrue nonnegative =>
    rw [if_neg (Int.not_lt.mpr nonnegative), sputuint_eq, toNat_of_nonnegative nonnegative]
  case isFalse negative =>
    rw [if_pos (Int.not_le.mp negative), sputuint_eq, toNat_neg_of_negative negative,
      List.cons_append, splice_cons, List.length_cons]

theorem sputhex_eq (uinteg : BitVec 32) (str : Buffer) (position : Nat) :
    sputhex uinteg str position =
      ((0x30 :: 0x78 :: text 16 uinteg.toNat).length,
        splice str position (0x30 :: 0x78 :: text 16 uinteg.toNat)) := by
  have digits : (numeral 16 uinteg.toNat).map digitChar = text 16 uinteg.toNat := rfl
  simp only [sputhex, shiftDigits_word, digits]
  rw [splice_cons, splice_cons, List.length_cons, List.length_cons]
  congr 1
  omega

/-! ## What `vsprintf` leaves in the buffer -/

/-- `%s`, `%d` and `%u` leave a `NUL` behind their text, the others nothing. -/
def terminator : Piece → List UInt8
  | .string _ | .decimal _ | .unsigned _ => [0]
  | _ => []

/-- A format leaves what its last piece leaves. -/
def lastTerminator (parts : List Piece) : List UInt8 :=
  (parts.getLast?.map terminator).getD []

theorem lastTerminator_concat (parts : List Piece) (piece : Piece) :
    lastTerminator (parts ++ [piece]) = terminator piece := by
  simp [lastTerminator]

theorem terminator_cases (piece : Piece) : terminator piece = [0] ∨ terminator piece = [] := by
  cases piece <;> simp [terminator]

theorem lastTerminator_cases (parts : List Piece) :
    lastTerminator parts = [0] ∨ lastTerminator parts = [] := by
  unfold lastTerminator
  cases parts.getLast? with
  | none => exact .inr rfl
  | some piece => exact terminator_cases piece

theorem length_terminated_pos (piece : Piece) : 1 ≤ (piece.text ++ terminator piece).length := by
  cases piece <;> simp [Piece.text, terminator]

theorem vsprintfPiece_eq (piece : Piece) (destination : Destination) :
    vsprintfPiece piece destination =
      ⟨splice destination.str destination.j (piece.text ++ terminator piece),
        destination.j + piece.text.length⟩ := by
  cases piece with
  | literal character => exact congrArg₂ Destination.mk (put_eq_splice _ _ _) rfl
  | string text => rfl
  | char value => exact congrArg₂ Destination.mk (put_eq_splice _ _ _) rfl
  | decimal value =>
      rw [vsprintfPiece, Destination.print, sputint_eq]
      rfl
  | unsigned value =>
      rw [vsprintfPiece, Destination.print, sputuint_eq]
      rfl
  | hex value =>
      have nothing : terminator (.hex value) = [] := rfl
      rw [vsprintfPiece, Destination.print, sputhex_eq, nothing, List.append_nil]
      rfl
  | other code => exact congrArg₂ Destination.mk (put_eq_splice _ _ _) rfl

theorem performAll_vsprintfPiece (parts : List Piece) (str : Buffer) :
    performAll vsprintfPiece parts ⟨str, 0⟩ =
      ⟨splice str 0 (output parts ++ lastTerminator parts), (output parts).length⟩ := by
  induction parts using List.reverseRecOn with
  | nil => simp [performAll, lastTerminator]
  | append_singleton parts piece induction =>
      have covers : (lastTerminator parts).length ≤ (piece.text ++ terminator piece).length := by
        rcases lastTerminator_cases parts with last | last
        · rw [last]
          exact length_terminated_pos piece
        · rw [last]
          exact Nat.zero_le _
      have overwritten := @splice_overwrite str 0 (output parts) _ _ covers
      rw [Nat.zero_add] at overwritten
      have concat : performAll vsprintfPiece (parts ++ [piece]) ⟨str, 0⟩ =
          vsprintfPiece piece (performAll vsprintfPiece parts ⟨str, 0⟩) := by
        rw [performAll, List.foldl_concat]
        rfl
      rw [concat, induction, vsprintfPiece_eq, overwritten, lastTerminator_concat,
        output_append, output_cons, output_nil, List.append_nil, List.append_assoc,
        List.length_append]

/-! ## What `vfprintf` writes to the file -/

theorem holdsString_zeroed {printed behind : List UInt8} (nothing : behind = [0] ∨ behind = [])
    (noNul : 0 ∉ printed) : HoldsString (splice (fun _ => 0) 0 (printed ++ behind)) printed := by
  rcases nothing with rfl | rfl
  · exact holdsString_splice noNul
  · rw [List.append_nil, holdsString_splice_iff]
    exact ⟨noNul, rfl⟩

theorem Written.print_eq {printer : BitVec 32 → Buffer → Nat → Nat × Buffer} {value : BitVec 32}
    {printed behind : List UInt8} (written : Written)
    (prints : printer value (fun _ => 0) 0 =
      (printed.length, splice (fun _ => 0) 0 (printed ++ behind)))
    (nothing : behind = [0] ∨ behind = []) (noNul : 0 ∉ printed) (short : printed.length < 100) :
    written.print printer value = ⟨written.file ++ printed, written.j + printed.length⟩ := by
  rw [Written.print, prints]
  simp only [(holdsString_zeroed nothing noNul).stringAt_eq short, Option.getD_some, fputs]

theorem vfprintfPiece_eq (piece : Piece) (written : Written) :
    vfprintfPiece piece written =
      ⟨written.file ++ piece.text, written.j + piece.text.length⟩ := by
  cases piece with
  | literal character => rfl
  | string text => rfl
  | char value => rfl
  | decimal value =>
      have short := length_signedText_word_le value
      have printed := written.print_eq (sputint_eq value _ 0) (.inl rfl)
        (zero_notMem_signedText (by omega) (by omega) _) (by omega)
      exact printed
  | unsigned value =>
      have short := length_text_word_le value
      have printed := written.print_eq (sputuint_eq value _ 0) (.inl rfl)
        (zero_notMem_text (by omega) (by omega) _) (by omega)
      exact printed
  | hex value =>
      have prints : sputhex value (fun _ => 0) 0 = ((Piece.hex value).text.length,
          splice (fun _ => 0) 0 ((Piece.hex value).text ++ [])) := by
        rw [List.append_nil]
        exact sputhex_eq value _ 0
      have short : (Piece.hex value).text.length < 100 := by
        have digits := length_hex_word_le value
        rw [Piece.text, List.length_cons, List.length_cons]
        omega
      have printed := written.print_eq prints (.inr rfl) (zero_notMem_hex _) short
      exact printed
  | other code => rfl

/-- The text has been written to the file, as many bytes as are counted. -/
def Written.Has (file : File) (text : List UInt8) (written : Written) : Prop :=
  written = ⟨file ++ text, text.length⟩

theorem Written.Has.vfprintfPiece {file : File} (piece : Piece) (text : List UInt8)
    (written : Written) (before : written.Has file text) :
    (vfprintfPiece piece written).Has file (text ++ piece.text) := by
  unfold Written.Has at before ⊢
  rw [before, vfprintfPiece_eq, List.append_assoc, List.length_append]

/-! ## Where the two agree -/

/-- The string that `vsprintf` leaves is what `vfprintf` writes, and both return its
length. -/
def Agree (str : Buffer) (file : File) (characters : CString) (arguments : List Argument) : Prop :=
  ∃ text stored, vfprintf file characters arguments = some (text.length, file ++ text) ∧
    vsprintf str characters arguments = some (text.length, stored) ∧ HoldsString stored text

section Agreement

variable {characters : CString} {arguments : List Argument} {parts : List Piece}
  (parsed : pieces floats characters.characters arguments = some parts)

include parsed

theorem vsprintf_eq (str : Buffer) :
    vsprintf str characters arguments = some ((output parts).length,
      splice str 0 (output parts ++ lastTerminator parts)) := by
  rw [vsprintf, format_eq parsed, performAll_vsprintfPiece, Option.map_some]

theorem vfprintf_eq (file : File) :
    vfprintf file characters arguments =
      some ((output parts).length, file ++ output parts) := by
  have start : Written.Has file [] ⟨file, 0⟩ := by
    rw [Written.Has, List.append_nil, List.length_nil]
  have all := performAll_represents (Written.Has file) Written.Has.vfprintfPiece start parts
  rw [List.nil_append, Written.Has] at all
  rw [vfprintf, format_eq parsed, all, Option.map_some]

/-- They agree when the last directive leaves a `NUL`, or one is there already. -/
theorem agree_iff (chars : ∀ value, Piece.char value ∈ parts → lowByte value ≠ 0) (str : Buffer)
    (file : File) :
    Agree str file characters arguments ↔
      lastTerminator parts = [0] ∨ str (output parts).length = 0 := by
  have noNul := zero_notMem_output parsed characters.noNul chars
  have same : Agree str file characters arguments ↔
      HoldsString (splice str 0 (output parts ++ lastTerminator parts)) (output parts) := by
    unfold Agree
    rw [vsprintf_eq parsed, vfprintf_eq parsed]
    constructor
    · rintro ⟨text, stored, written, left, holds⟩
      obtain rfl := List.append_cancel_left (Prod.mk.inj (Option.some_inj.mp written)).2
      obtain rfl := (Prod.mk.inj (Option.some_inj.mp left)).2
      exact holds
    · exact fun holds => ⟨_, _, rfl, rfl, holds⟩
  rw [same]
  rcases lastTerminator_cases parts with last | last
  · rw [last]
    exact ⟨fun _ => .inl rfl, fun _ => holdsString_splice noNul⟩
  · rw [last, List.append_nil, holdsString_splice_iff]
    simp [noNul]

end Agreement

/-- `"%d"` into a buffer of other bytes. -/
theorem agree_decimal_iff :
    Agree (fun _ => 0xFF) [] ⟨[0x25, 0x64], by decide⟩ [.word (-7)] ↔
      lastTerminator [.decimal (-7)] = [0] ∨
        (fun _ => 0xFF : Buffer) (output [.decimal (-7)]).length = 0 :=
  agree_iff rfl (by simp) _ _

/-- Behind a literal character there is what was there before. -/
theorem not_agree_literal : ¬Agree (fun _ => 0xFF) [] ⟨[0x61], by decide⟩ [] := by
  rintro ⟨text, stored, written, left, holds⟩
  have characters : text = [0x61] := (Prod.mk.inj (Option.some_inj.mp written)).2.symm
  subst characters
  have buffer := (Prod.mk.inj (Option.some_inj.mp left)).2
  subst buffer
  exact absurd (holds.2 1 (Nat.le_refl 1)) (by decide)

end Dbos.Stdio
