import Dbos.Libraries.Stdio
import Dbos.Libraries.Stdlib

/-! # Formatted input of the C library

`vsscanf` and the functions it reads numbers with. Strings are the characters up to
their `NUL`, so the end of a list stands for it. -/

namespace Dbos.Stdio

open TextBuffer Numerals Formats

def isspace (character : UInt8) : Bool :=
  character = 0x20 || character = 0x0A || character = 0x09

def isdigit (character : UInt8) : Bool := 0x30 ≤ character && character ≤ 0x39

def isxdigit (character : UInt8) : Bool :=
  isdigit character || (0x61 ≤ character && character ≤ 0x66) ||
    (0x41 ≤ character && character ≤ 0x46)

def toupper (character : UInt8) : UInt8 :=
  if 0x61 ≤ character ∧ character ≤ 0x7A then character - 0x20 else character

/-- `*str`, which is `0` at the end. -/
def current (str : List UInt8) : UInt8 := str.headD 0

/-! ## Numbers -/

/-- `isxdigit(*cp) && value < base`, with the value. -/
def digitBelow (base : Nat) (character : UInt8) : Option Nat :=
  if isxdigit character then
    let value :=
      if isdigit character then character.toNat - 0x30
      else (toupper character).toNat - 0x41 + 10
    if value < base then some value else none
  else none

/-- Base `0` asks the string for its base. -/
def detectBase (cp : List UInt8) : Nat × List UInt8 :=
  if current cp = 0x30 then
    if current cp.tail = 0x78 && isxdigit (current cp.tail.tail) then (16, cp.tail.tail)
    else (8, cp.tail)
  else (10, cp)

/-- `strtoul` for words of 32 bits and `strtoull` for words of 64: the number and what
`*endp` points to. A given base does not look for `0x`. -/
def strtoul (width : Nat) (cp : List UInt8) (base : Nat) : BitVec width × List UInt8 :=
  let (base, cp) := if base = 0 then detectBase cp else (base, cp)
  scan (digitBelow base) (base : BitVec width) 0 cp

/-- `strtol` and `strtoll`. -/
def strtol (width : Nat) (cp : List UInt8) (base : Nat) : BitVec width × List UInt8 :=
  if current cp = 0x2D then
    let (value, endp) := strtoul width cp.tail base
    (-value, endp)
  else strtoul width cp base

/-! ## `vsscanf` -/

/-- What is stored through an argument. -/
inductive Stored where
  | characters (bytes : List UInt8)
  | string (bytes : List UInt8)
  | number (width : Nat) (value : BitVec width)
  deriving DecidableEq

structure ScanState where
  format : List UInt8
  str : List UInt8
  num : Nat
  stored : List Stored

/-- The end of one round of the loop: `continue`, or `break` and `return`. -/
inductive Round where
  | goesOn (state : ScanState)
  | returns (state : ScanState)

/-- `h`, `l`, `L`, `Z` or `z`, where `H` stands for `hh` and `L` for `ll`. -/
def takeQualifier (format : List UInt8) : Option UInt8 × List UInt8 :=
  if current format ∈ [0x68, 0x6C, 0x4C, 0x5A, 0x7A] then
    if current format = current format.tail then
      if current format = 0x68 then (some 0x48, format.tail.tail)
      else if current format = 0x6C then (some 0x4C, format.tail.tail)
      else (some (current format), format.tail)
    else (some (current format), format.tail)
  else (none, format)

/-- `skip_atoi`, and `-1` where there is no field width. -/
def takeFieldWidth (format : List UInt8) : BitVec 32 × List UInt8 :=
  if isdigit (current format) then scan decimalDigit 10 0 format else (-1, format)

/-- `do *s++ = *str++; while (--field_width > 0 && *str)`. -/
def copyCharacters : List UInt8 → BitVec 32 → List UInt8 × List UInt8
  | [], _ => ([], [])
  | character :: str, fieldWidth =>
      if 0 < (fieldWidth - 1).toInt ∧ str ≠ [] then
        let (copied, rest) := copyCharacters str (fieldWidth - 1)
        (character :: copied, rest)
      else ([character], str)

/-- `while (*str && !isspace(*str) && field_width--) *s++ = *str++`. -/
def copyWord : List UInt8 → BitVec 32 → List UInt8 × List UInt8
  | [], _ => ([], [])
  | character :: str, fieldWidth =>
      if isspace character then ([], character :: str)
      else if fieldWidth = 0 then ([], character :: str)
      else
        let (copied, rest) := copyWord str (fieldWidth - 1)
        (character :: copied, rest)

/-- The base of a directive for numbers, and whether it takes a sign. -/
def numberDirective (code : UInt8) : Option (Nat × Bool) :=
  if code = 0x6F then some (8, false)
  else if code = 0x78 ∨ code = 0x58 then some (16, false)
  else if code = 0x69 then some (0, true)
  else if code = 0x64 then some (10, true)
  else if code = 0x75 then some (10, false)
  else none

/-- The test before a number is read: whether its first digit is one of the base. -/
def startsNumber (base : Nat) (isSign : Bool) (str : List UInt8) : Bool :=
  let digit := if isSign && current str = 0x2D then current str.tail else current str
  !(digit = 0 || (base = 16 && !isxdigit digit) || (base = 10 && !isdigit digit) ||
    (base = 8 && (!isdigit digit || 0x37 < digit)) || (base = 0 && !isdigit digit))

/-- The number in the width of its argument, and the rest of the string. The
qualifiers `Z` and `z` take no sign. -/
def readNumber (qualifier : Option UInt8) (base : Nat) (isSign : Bool) (str : List UInt8) :
    Stored × List UInt8 :=
  let long := if isSign then strtol 32 str base else strtoul 32 str base
  if qualifier = some 0x48 then (.number 8 (long.1.setWidth 8), long.2)
  else if qualifier = some 0x68 then (.number 16 (long.1.setWidth 16), long.2)
  else if qualifier = some 0x6C then (.number 32 long.1, long.2)
  else if qualifier = some 0x4C then
    let longLong := if isSign then strtol 64 str base else strtoul 64 str base
    (.number 64 longLong.1, longLong.2)
  else if qualifier = some 0x5A ∨ qualifier = some 0x7A then
    let size := strtoul 32 str base
    (.number 32 size.1, size.2)
  else (.number 32 long.1, long.2)

/-- The `switch` over the directive, which is at the head of the format. -/
def convert (buf : List UInt8) (fieldWidth : BitVec 32) (qualifier : Option UInt8)
    (state : ScanState) : Round :=
  let code := current state.format
  let state := { state with format := state.format.tail }
  if code = 0x63 then
    let (copied, str) := copyCharacters state.str (if fieldWidth = -1 then 1 else fieldWidth)
    .goesOn { state with str, num := state.num + 1, stored := state.stored ++ [.characters copied] }
  else if code = 0x73 then
    let (copied, str) := copyWord (state.str.dropWhile isspace)
      (if fieldWidth = -1 then 0x7FFFFFFF else fieldWidth)
    .goesOn { state with str, num := state.num + 1, stored := state.stored ++ [.string copied] }
  else if code = 0x6E then
    let position : BitVec 32 := .ofNat 32 (buf.length - state.str.length)
    .goesOn { state with stored := state.stored ++ [.number 32 position] }
  else if code = 0x25 then
    if current state.str = 0x25 then .goesOn { state with str := state.str.tail }
    else .returns state
  else
    match numberDirective code with
    | none => .returns state
    | some (base, isSign) =>
        let str := state.str.dropWhile isspace
        if startsNumber base isSign str then
          let (number, next) := readNumber qualifier base isSign str
          .goesOn
            { state with str := next, num := state.num + 1, stored := state.stored ++ [number] }
        else .returns state

/-- One round of the loop of `vsscanf`. -/
def scanRound (buf : List UInt8) (state : ScanState) : Round :=
  let state :=
    if isspace (current state.format) then
      { state with
        format := state.format.dropWhile isspace
        str := state.str.dropWhile isspace }
    else state
  if state.format = [] then .returns state
  else if current state.format ≠ 0x25 then
    if current state.format = current state.str then
      .goesOn { state with format := state.format.tail, str := state.str.tail }
    else .returns state
  else
    let format := state.format.tail
    if current format = 0x2A then
      .goesOn
        { state with
          format := format.dropWhile (!isspace ·)
          str := state.str.dropWhile (!isspace ·) }
    else
      let (fieldWidth, format) := takeFieldWidth format
      let (qualifier, format) := takeQualifier format
      if format = [] ∨ state.str = [] then .returns state
      else convert buf fieldWidth qualifier { state with format }

/-- `while(*format && *str)`. -/
def scanLoop (buf : List UInt8) : (fuel : Nat) → ScanState → ScanState
  | 0, state => state
  | fuel + 1, state =>
      if state.format = [] ∨ state.str = [] then state
      else
        match scanRound buf state with
        | .goesOn next => scanLoop buf fuel next
        | .returns last => last

/-- `vsscanf`: what it returns and what it stores through its arguments, in their order.
Every round takes a character of the format. -/
def vsscanf (buf format : List UInt8) : Nat × List Stored :=
  let final := scanLoop buf (format.length + 1) ⟨format, buf, 0, []⟩
  (final.num, final.stored)

/-! ## Scanning what has been printed -/

/-- The directives that print and scan a number. -/
inductive Conversion where
  | decimal
  | unsigned
  | hex
  deriving DecidableEq

namespace Conversion

def code : Conversion → UInt8
  | decimal => 0x64
  | unsigned => 0x75
  | hex => 0x78

/-- What the directive stands for where it prints. -/
def piece : Conversion → BitVec 32 → Piece
  | decimal => .decimal
  | unsigned => .unsigned
  | hex => .hex

/-- What it reads a number with where it scans. -/
def read : Conversion → List UInt8 → BitVec 32 × List UInt8
  | decimal, str => strtol 32 str 10
  | unsigned, str => strtoul 32 str 10
  | hex, str => strtoul 32 str 16

/-- The test before it reads one. -/
def starts : Conversion → List UInt8 → Bool
  | decimal, str => startsNumber 10 true str
  | unsigned, str => startsNumber 10 false str
  | hex, str => startsNumber 16 false str

/-- The format that consists of the directive. -/
def format (conversion : Conversion) : CString :=
  ⟨[percent, conversion.code], by cases conversion <;> decide⟩

end Conversion

/-- What `sprintf` writes into a zeroed buffer for the number, `sscanf` reads as one item,
which is the number. -/
def ScansBack (conversion : Conversion) (value : BitVec 32) : Prop :=
  ∃ length stored text,
    vsprintf (fun _ => 0) conversion.format [.word value] = some (length, stored) ∧
    stringAt stored Stdlib.addresses 0 = some text ∧
    vsscanf text conversion.format.characters = (1, [.number 32 value])

theorem scanRound_number (buf : List UInt8) (conversion : Conversion) {character : UInt8}
    {str : List UInt8} (noSpace : isspace character = false)
    (starts : conversion.starts (character :: str) = true) :
    scanRound buf ⟨[percent, conversion.code], character :: str, 0, []⟩ =
      .goesOn ⟨[], (conversion.read (character :: str)).2, 1,
        [.number 32 (conversion.read (character :: str)).1]⟩ := by
  have kept : (character :: str).dropWhile isspace = character :: str := by
    rw [List.dropWhile_cons, noSpace]
    rfl
  have round : scanRound buf ⟨[percent, conversion.code], character :: str, 0, []⟩ =
      if conversion.starts ((character :: str).dropWhile isspace) then
        .goesOn ⟨[], (conversion.read ((character :: str).dropWhile isspace)).2, 1,
          [.number 32 (conversion.read ((character :: str).dropWhile isspace)).1]⟩
      else .returns ⟨[], character :: str, 0, []⟩ := by
    cases conversion <;> rfl
  rw [round, kept, if_pos starts]

theorem vsscanf_number (conversion : Conversion) {character : UInt8} {str : List UInt8}
    (noSpace : isspace character = false)
    (starts : conversion.starts (character :: str) = true) :
    vsscanf (character :: str) conversion.format.characters =
      (1, [.number 32 (conversion.read (character :: str)).1]) := by
  have round := scanRound_number (character :: str) conversion noSpace starts
  simp [vsscanf, Conversion.format, scanLoop, round]

/-! ## Reading digits -/

theorem digitBelow_digitChar {base digit : Nat} (small : digit < base) (atMost : base ≤ 16) :
    digitBelow base (digitChar digit) = some digit := by
  have table : ∀ digit ∈ List.range 16, isxdigit (digitChar digit) = true ∧
      (if isdigit (digitChar digit) then (digitChar digit).toNat - 0x30
        else (toupper (digitChar digit)).toNat - 0x41 + 10) = digit := by decide
  obtain ⟨hexDigit, value⟩ := table digit (List.mem_range.mpr (by omega))
  simp only [digitBelow, hexDigit, if_true, value, if_pos small]

theorem isdigit_digitChar {digit : Nat} (small : digit < 10) :
    isdigit (digitChar digit) = true := by
  have table : ∀ digit ∈ List.range 10, isdigit (digitChar digit) = true := by decide
  exact table digit (List.mem_range.mpr small)

theorem strtoul_text (number : Nat) :
    (strtoul 32 (text 10 number) 10).1 = BitVec.ofNat 32 number := by
  have scanned := @scan_text (BitVec 32) _ (digitBelow 10) 10 (by omega)
    (fun digit small => digitBelow_digitChar small (by omega)) [] (by simp) number
  rw [List.append_nil] at scanned
  simp only [strtoul, if_neg (show ¬10 = 0 by omega), scanned]
  rfl

/-- The number ends at the `x`, since the base is known already. -/
theorem strtoul_hex (digits : List UInt8) :
    strtoul 32 (0x30 :: 0x78 :: digits) 16 = (0, 0x78 :: digits) := by
  have zero : digitBelow 16 0x30 = some 0 := by decide
  have letter : digitBelow 16 0x78 = none := by decide
  simp [strtoul, scan, zero, letter]

theorem text_eq_cons (number : Nat) :
    ∃ character rest, text 10 number = character :: rest ∧ isdigit character = true := by
  cases characters : text 10 number with
  | nil => exact absurd characters (text_ne_nil (by omega) number)
  | cons character rest =>
      refine ⟨character, rest, rfl, ?_⟩
      have member : character ∈ text 10 number := by
        rw [characters]
        exact List.mem_cons_self
      obtain ⟨digit, digitMember, rfl⟩ := List.mem_map.mp member
      exact isdigit_digitChar (lt_of_mem_numeral (by omega) digitMember)

theorem isspace_of_isdigit {character : UInt8} (digit : isdigit character = true) :
    isspace character = false := by
  have bounds : 0x30 ≤ character ∧ character ≤ 0x39 := by simpa [isdigit] using digit
  have low : 0x30 ≤ character.toNat := bounds.1
  unfold isspace
  simp only [Bool.or_eq_false_iff, decide_eq_false_iff_not]
  refine ⟨⟨?_, ?_⟩, ?_⟩ <;> rintro rfl <;> exact absurd low (by decide)

theorem ne_zero_of_isdigit {character : UInt8} (digit : isdigit character = true) :
    character ≠ 0 ∧ character ≠ 0x2D := by
  have bounds : 0x30 ≤ character ∧ character ≤ 0x39 := by simpa [isdigit] using digit
  have low : 0x30 ≤ character.toNat := bounds.1
  constructor <;> rintro rfl <;> exact absurd low (by decide)

theorem zero_notMem_number (conversion : Conversion) (value : BitVec 32) :
    0 ∉ (conversion.piece value).text := by
  cases conversion with
  | decimal => exact zero_notMem_signedText (by omega) (by omega) _
  | unsigned => exact zero_notMem_text (by omega) (by omega) _
  | hex => exact zero_notMem_hex _

theorem length_number_lt (conversion : Conversion) (value : BitVec 32) :
    (conversion.piece value).text.length < Stdlib.addresses := by
  unfold Stdlib.addresses
  cases conversion with
  | decimal =>
      have short := length_signedText_word_le value
      rw [Conversion.piece, Piece.text]
      omega
  | unsigned =>
      have short := length_text_word_le value
      rw [Conversion.piece, Piece.text]
      omega
  | hex =>
      have short := length_hex_word_le value
      rw [Conversion.piece, Piece.text, List.length_cons, List.length_cons]
      omega

theorem stringAt_vsprintf (conversion : Conversion) (value : BitVec 32) :
    ∃ length stored, vsprintf (fun _ => 0) conversion.format [.word value] =
        some (length, stored) ∧
      stringAt stored Stdlib.addresses 0 = some (conversion.piece value).text := by
  have parsed : pieces floats conversion.format.characters [.word value] =
      some [conversion.piece value] := by
    cases conversion <;> rfl
  have holds : HoldsString (splice (fun _ => 0) 0 ((conversion.piece value).text ++
      lastTerminator [conversion.piece value])) (conversion.piece value).text :=
    holdsString_zeroed (lastTerminator_cases _) (zero_notMem_number conversion value)
  have written := vsprintf_eq parsed (fun _ => 0)
  rw [output_cons, output_nil, List.append_nil] at written
  exact ⟨_, _, written, holds.stringAt_eq (length_number_lt conversion value)⟩

/-! ## The way back -/

theorem startsNumber_digit {character : UInt8} (digit : isdigit character = true)
    (isSign : Bool) (rest : List UInt8) : startsNumber 10 isSign (character :: rest) = true := by
  obtain ⟨notNul, notSign⟩ := ne_zero_of_isdigit digit
  simp [startsNumber, current, notNul, notSign, digit]

theorem vsscanf_unsigned (value : BitVec 32) :
    vsscanf (text 10 value.toNat) Conversion.unsigned.format.characters =
      (1, [.number 32 value]) := by
  have number := strtoul_text value.toNat
  obtain ⟨character, rest, characters, digit⟩ := text_eq_cons value.toNat
  rw [characters] at number ⊢
  rw [vsscanf_number .unsigned (isspace_of_isdigit digit) (startsNumber_digit digit false rest),
    Conversion.read, number, BitVec.ofNat_toNat, BitVec.setWidth_eq]

theorem vsscanf_decimal (value : BitVec 32) :
    vsscanf (signedText 10 value.toInt) Conversion.decimal.format.characters =
      (1, [.number 32 value]) := by
  have number := strtoul_text value.toInt.natAbs
  obtain ⟨character, rest, characters, digit⟩ := text_eq_cons value.toInt.natAbs
  unfold signedText
  split
  case isTrue negative =>
    have starts : Conversion.decimal.starts (0x2D :: text 10 value.toInt.natAbs) = true := by
      rw [characters]
      exact startsNumber_digit digit false rest
    have read : (Conversion.decimal.read (0x2D :: text 10 value.toInt.natAbs)).1 =
        -(strtoul 32 (text 10 value.toInt.natAbs) 10).1 := rfl
    rw [vsscanf_number .decimal (by decide) starts, read, number,
      ← toNat_neg_of_negative (Int.not_le.mpr negative), BitVec.ofNat_toNat, BitVec.setWidth_eq,
      BitVec.neg_neg]
  case isFalse notNegative =>
    have magnitude := toNat_of_nonnegative (Int.not_lt.mp notNegative)
    rw [characters] at number ⊢
    have read : (Conversion.decimal.read (character :: rest)).1 =
        (strtoul 32 (character :: rest) 10).1 := by
      rw [Conversion.read, strtol, if_neg (show ¬current (character :: rest) = 0x2D from
        (ne_zero_of_isdigit digit).2)]
    rw [vsscanf_number .decimal (isspace_of_isdigit digit) (startsNumber_digit digit true rest),
      read, number, ← magnitude, BitVec.ofNat_toNat, BitVec.setWidth_eq]

/-- Whatever has been printed, `%x` reads a zero. -/
theorem vsscanf_hex (digits : List UInt8) :
    vsscanf (0x30 :: 0x78 :: digits) Conversion.hex.format.characters =
      (1, [.number 32 0]) := by
  have starts : Conversion.hex.starts (0x30 :: 0x78 :: digits) = true := rfl
  rw [vsscanf_number .hex (by decide) starts, Conversion.read, strtoul_hex]

theorem vsscanf_text (conversion : Conversion) (value : BitVec 32) :
    vsscanf (conversion.piece value).text conversion.format.characters =
      (1, [.number 32 (if conversion = .hex then 0 else value)]) := by
  cases conversion with
  | decimal => exact vsscanf_decimal value
  | unsigned => exact vsscanf_unsigned value
  | hex => exact vsscanf_hex _

theorem scansBack_iff_value (conversion : Conversion) (value : BitVec 32) :
    ScansBack conversion value ↔ (if conversion = .hex then 0 else value) = value := by
  obtain ⟨length, stored, written, string⟩ := stringAt_vsprintf conversion value
  constructor
  · rintro ⟨_, _, text, again, atStart, scanned⟩
    rw [written, Option.some_inj] at again
    cases again
    rw [string, Option.some_inj] at atStart
    rw [← atStart, vsscanf_text] at scanned
    simpa using scanned
  · intro same
    refine ⟨length, stored, _, written, string, ?_⟩
    rw [vsscanf_text, same]

/-- `%d` and `%u` undo each other's printing, `%x` only that of zero. -/
theorem scansBack_iff (conversion : Conversion) (value : BitVec 32) :
    ScansBack conversion value ↔ conversion ≠ .hex ∨ value = 0 := by
  rw [scansBack_iff_value]
  split
  case isTrue isHex =>
    exact ⟨fun same => .inr same.symm,
      fun either => (either.resolve_left (not_not.mpr isHex)).symm⟩
  case isFalse notHex => exact ⟨fun _ => .inl notHex, fun _ => rfl⟩

/-- `26` is printed as `0x1A`, of which only the `0` is read. -/
theorem not_scansBack_hex : ¬ScansBack .hex 26 := by
  rw [scansBack_iff_value]
  decide

end Dbos.Stdio
