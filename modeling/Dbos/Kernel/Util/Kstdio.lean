import Mathlib.Data.List.TakeWhile
import Dbos.Foundation.Formats

/-! # Formatted output of the kernel

`kprintf` hands its bytes to `kputchar`, `ksprintf` stores them in a buffer. The
two have an interpreter and number printers of their own. -/

namespace Dbos.Kstdio

open TextBuffer Numerals Formats

/-- `unsigned_string` up to its `NUL`: the local array of `kputuint` and
`kputuintbufat`, filled by the same loops. The divisor is `10 ^ 9` at first. -/
def unsignedString (uinteg : BitVec 32) : List UInt8 :=
  let divisor := shrinkDivisor 10 uinteg.toNat 9 1000000000
  let stored := (divisorDigits 10 9 divisor uinteg.toNat).map fun digit => .ofNat (0x30 + digit)
  stored.takeWhile (· ≠ 0)

/-! ## Output to the console -/

/-- The bytes that were handed to `kputchar`, the last one at the end. -/
abbrev Sent := List UInt8

def kputchar (sent : Sent) (character : UInt8) : Sent := sent ++ [character]

def kputuint (uinteg : BitVec 32) (sent : Sent) : Sent :=
  (unsignedString uinteg).foldl kputchar sent

def kputint (num : BitVec 32) (sent : Sent) : Sent :=
  if 0 ≤ num.toInt then kputuint num sent
  else kputuint (-num) (kputchar sent 0x2D)

def kputhex (hex : BitVec 32) (sent : Sent) : Sent :=
  (shiftDigits 4 hex 7 true).foldl (fun sent digit => kputchar sent (digitChar digit))
    (kputchar (kputchar sent 0x30) 0x78)

/-- The branches of the loop of `kprintf`. -/
def kprintfPiece : Piece → Sent → Sent
  | .literal character, sent => kputchar sent character
  | .string text, sent => text.characters.foldl kputchar sent
  | .char value, sent => kputchar sent (lowByte value)
  | .decimal value, sent => kputint value sent
  | .unsigned value, sent => kputuint value sent
  | .hex value, sent => kputhex value sent
  | .other code, sent => kputchar sent code

def kprintf (string : CString) (arguments : List Argument) : Option Sent :=
  format [] kprintfPiece string.characters arguments []

/-! ## Output to a buffer -/

def kputcharatbuf (character : UInt8) (buffer : Buffer) (position : Nat) : Buffer :=
  put buffer position character

/-- `kputcharatbuf(c, buffer, at); at++; c++` for one character after the other. -/
def storeString : List UInt8 → Buffer → (position written : Nat) → Nat × Buffer
  | [], buffer, _, written => (written, buffer)
  | character :: rest, buffer, position, written =>
      storeString rest (kputcharatbuf character buffer position) (position + 1) (written + 1)

/-- `at++; c++; kputcharatbuf(c, buffer, at)` for one digit after the other. -/
def storeDigits : List Nat → Buffer → (position written : Nat) → Nat × Buffer
  | [], buffer, _, written => (written, buffer)
  | digit :: rest, buffer, position, written =>
      storeDigits rest (kputcharatbuf (digitChar digit) buffer (position + 1)) (position + 1)
        (written + 1)

def kputhexbufat (hex : BitVec 32) (buffer : Buffer) (position : Nat) : Nat × Buffer :=
  storeDigits (shiftDigits 4 hex 7 true)
    (put (put buffer position 0x30) (position + 1) 0x78) (position + 1) 2

def kputuintbufat (uinteg : BitVec 32) (buffer : Buffer) (position : Nat) : Nat × Buffer :=
  storeString (unsignedString uinteg) buffer position 0

def kputintbufat (num : BitVec 32) (buffer : Buffer) (position : Nat) : Nat × Buffer :=
  if 0 ≤ num.toInt then kputuintbufat num buffer position
  else
    let (written, stored) :=
      kputuintbufat (-num) (kputcharatbuf 0x2D buffer position) (position + 1)
    (1 + written, stored)

/-- The destination of `ksprintf` and the number of bytes it has stored there. -/
structure Destination where
  buffer : Buffer
  count : Nat

namespace Destination

/-- `kputcharatbuf(c, dest_save_addr, count++)`. -/
def store (destination : Destination) (character : UInt8) : Destination :=
  ⟨kputcharatbuf character destination.buffer destination.count, destination.count + 1⟩

/-- `count += printer(value, dest_save_addr, count)`. -/
def print (printer : BitVec 32 → Buffer → Nat → Nat × Buffer) (value : BitVec 32)
    (destination : Destination) : Destination :=
  let (written, stored) := printer value destination.buffer destination.count
  ⟨stored, destination.count + written⟩

end Destination

/-- The branches of the loop of `ksprintf`. -/
def ksprintfPiece : Piece → Destination → Destination
  | .literal character, destination => destination.store character
  | .string text, destination => text.characters.foldl Destination.store destination
  | .char value, destination => destination.store (lowByte value)
  | .decimal value, destination => destination.print kputintbufat value
  | .unsigned value, destination => destination.print kputuintbufat value
  | .hex value, destination => destination.print kputhexbufat value
  | .other code, destination => destination.store code

def ksprintf (dest : Buffer) (text : CString) (arguments : List Argument) : Option Buffer :=
  (format [] ksprintfPiece text.characters arguments ⟨dest, 0⟩).map fun destination =>
    put destination.buffer destination.count 0

/-! ## What the number printers print -/

theorem unsignedString_eq (uinteg : BitVec 32) : unsignedString uinteg = text 10 uinteg.toNat := by
  simp only [unsignedString, map_divisorDigits_word]
  rw [List.takeWhile_eq_self_iff]
  intro character member
  simpa using ne_of_mem_of_not_mem member (zero_notMem_text (by omega) (by omega) _)

theorem foldl_kputchar (characters : List UInt8) (sent : Sent) :
    characters.foldl kputchar sent = sent ++ characters := by
  induction characters generalizing sent with
  | nil => rw [List.foldl_nil, List.append_nil]
  | cons character characters induction =>
      rw [List.foldl_cons, induction, kputchar, List.append_assoc, List.singleton_append]

theorem kprintfPiece_eq (piece : Piece) (sent : Sent) :
    kprintfPiece piece sent = sent ++ piece.text := by
  cases piece with
  | literal character => rfl
  | string text => exact foldl_kputchar _ _
  | char value => rfl
  | decimal value =>
      rw [kprintfPiece, kputint, kputuint, kputuint, unsignedString_eq, unsignedString_eq,
        foldl_kputchar, foldl_kputchar, Piece.text, signedText]
      split
      case isTrue nonnegative =>
        rw [if_neg (Int.not_lt.mpr nonnegative), toNat_of_nonnegative nonnegative]
      case isFalse negative =>
        rw [if_pos (Int.not_le.mp negative), toNat_neg_of_negative negative, kputchar,
          List.append_assoc, List.singleton_append]
  | unsigned value => rw [kprintfPiece, kputuint, unsignedString_eq, foldl_kputchar, Piece.text]
  | hex value =>
      rw [kprintfPiece, kputhex, shiftDigits_word, ← List.foldl_map, foldl_kputchar, kputchar,
        kputchar, List.append_assoc, List.append_assoc]
      rfl
  | other code => rfl

theorem storeString_eq (characters : List UInt8) (buffer : Buffer) (position written : Nat) :
    storeString characters buffer position written =
      (written + characters.length, splice buffer position characters) := by
  induction characters generalizing buffer position written with
  | nil => rw [storeString, splice_nil, List.length_nil, Nat.add_zero]
  | cons character characters induction =>
      rw [storeString, induction, kputcharatbuf, ← splice_cons, List.length_cons]
      congr 1
      omega

theorem storeDigits_eq (digits : List Nat) (buffer : Buffer) (position written : Nat) :
    storeDigits digits buffer position written =
      (written + digits.length, splice buffer (position + 1) (digits.map digitChar)) := by
  induction digits generalizing buffer position written with
  | nil => rw [storeDigits, List.map_nil, splice_nil, List.length_nil, Nat.add_zero]
  | cons digit digits induction =>
      rw [storeDigits, induction, kputcharatbuf, List.map_cons, ← splice_cons, List.length_cons]
      congr 1
      omega

theorem kputuintbufat_eq (uinteg : BitVec 32) (buffer : Buffer) (position : Nat) :
    kputuintbufat uinteg buffer position =
      ((text 10 uinteg.toNat).length, splice buffer position (text 10 uinteg.toNat)) := by
  rw [kputuintbufat, unsignedString_eq, storeString_eq, Nat.zero_add]

theorem kputintbufat_eq (num : BitVec 32) (buffer : Buffer) (position : Nat) :
    kputintbufat num buffer position =
      ((signedText 10 num.toInt).length, splice buffer position (signedText 10 num.toInt)) := by
  unfold kputintbufat signedText
  split
  case isTrue nonnegative =>
    rw [if_neg (Int.not_lt.mpr nonnegative), kputuintbufat_eq, toNat_of_nonnegative nonnegative]
  case isFalse negative =>
    rw [if_pos (Int.not_le.mp negative), kputuintbufat_eq, toNat_neg_of_negative negative,
      splice_cons, List.length_cons, kputcharatbuf]
    exact congrArg₂ Prod.mk (Nat.add_comm 1 _) rfl

theorem kputhexbufat_eq (hex : BitVec 32) (buffer : Buffer) (position : Nat) :
    kputhexbufat hex buffer position =
      ((0x30 :: 0x78 :: text 16 hex.toNat).length,
        splice buffer position (0x30 :: 0x78 :: text 16 hex.toNat)) := by
  rw [kputhexbufat, storeDigits_eq, shiftDigits_word, splice_cons, splice_cons, List.length_cons,
    List.length_cons, text, List.length_map]
  congr 1
  omega

/-! ## What the formatters do -/

/-- The buffer has the bytes in front, as many as are counted. -/
def Destination.Stored (original : Buffer) (stored : List UInt8)
    (destination : Destination) : Prop :=
  destination = ⟨splice original 0 stored, stored.length⟩

namespace Destination.Stored

variable {original : Buffer} {stored : List UInt8} {destination : Destination}
  (before : Stored original stored destination)

include before

theorem store (character : UInt8) :
    Stored original (stored ++ [character]) (destination.store character) := by
  unfold Stored at before ⊢
  rw [before, Destination.store, kputcharatbuf, put_eq_splice, splice_append, Nat.zero_add,
    List.length_append, List.length_singleton]

theorem foldl_store (characters : List UInt8) :
    Stored original (stored ++ characters) (characters.foldl Destination.store destination) := by
  induction characters generalizing stored destination with
  | nil => rwa [List.append_nil]
  | cons character characters induction =>
      have next := induction (before.store character)
      rwa [List.append_assoc, List.singleton_append] at next

theorem print {printer : BitVec 32 → Buffer → Nat → Nat × Buffer} {value : BitVec 32}
    {printed : List UInt8} (prints : ∀ buffer position,
      printer value buffer position = (printed.length, splice buffer position printed)) :
    Stored original (stored ++ printed) (destination.print printer value) := by
  unfold Stored at before ⊢
  rw [before, Destination.print, prints, splice_append, Nat.zero_add, List.length_append]

end Destination.Stored

theorem ksprintfPiece_stored {original : Buffer} (piece : Piece) (stored : List UInt8)
    (destination : Destination) (before : destination.Stored original stored) :
    (ksprintfPiece piece destination).Stored original (stored ++ piece.text) := by
  cases piece with
  | literal character => exact before.store character
  | string text => exact before.foldl_store text.characters
  | char value => exact before.store (lowByte value)
  | decimal value => exact before.print (kputintbufat_eq value)
  | unsigned value => exact before.print (kputuintbufat_eq value)
  | hex value => exact before.print (kputhexbufat_eq value)
  | other code => exact before.store code

variable {string : CString} {arguments : List Argument} {parts : List Piece}
  (parsed : pieces [] string.characters arguments = some parts)

include parsed

theorem kprintf_eq : kprintf string arguments = some (output parts) := by
  have sends : ∀ piece sofar sent, sent = sofar →
      kprintfPiece piece sent = sofar ++ piece.text := by
    rintro piece sofar sent rfl
    exact kprintfPiece_eq piece sent
  have all : performAll kprintfPiece parts [] = [] ++ output parts :=
    performAll_represents (fun sofar sent => sent = sofar) sends rfl parts
  rw [kprintf, format_eq parsed, all, List.nil_append]

theorem ksprintf_eq (dest : Buffer) :
    ksprintf dest string arguments = some (splice dest 0 (output parts ++ [0])) := by
  have empty : Destination.Stored dest [] ⟨dest, 0⟩ := by
    rw [Destination.Stored, splice_nil, List.length_nil]
  have all := performAll_represents (Destination.Stored dest) ksprintfPiece_stored empty parts
  rw [List.nil_append, Destination.Stored] at all
  rw [ksprintf, format_eq parsed, Option.map_some, all, put_eq_splice, splice_append,
    Nat.zero_add]

omit parsed in
/-- What `ksprintf` stores in front of its `NUL` is what `kprintf` sends. -/
theorem ksprintf_stores_sent (dest : Buffer)
    (matching : Matches [] string.characters arguments) :
    ∃ sent, kprintf string arguments = some sent ∧
      ksprintf dest string arguments = some (splice dest 0 (sent ++ [0])) := by
  obtain ⟨parts, parsed⟩ := Option.isSome_iff_exists.mp matching
  exact ⟨output parts, kprintf_eq parsed, ksprintf_eq parsed dest⟩

omit parsed in
/-- `"a%s %d"` with a string and a negative number. -/
theorem ksprintf_stores_sent_example :
    ∃ sent,
      kprintf ⟨[0x61, 0x25, 0x73, 0x20, 0x25, 0x64], by decide⟩
        [.string ⟨[0x62, 0x63], by decide⟩, .word (-7)] = some sent ∧
      ksprintf (fun _ => 0xFF) ⟨[0x61, 0x25, 0x73, 0x20, 0x25, 0x64], by decide⟩
        [.string ⟨[0x62, 0x63], by decide⟩, .word (-7)] =
          some (splice (fun _ => 0xFF) 0 (sent ++ [0])) :=
  ksprintf_stores_sent _ (by decide)

end Dbos.Kstdio
