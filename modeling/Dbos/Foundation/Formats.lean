import Dbos.Foundation.Numerals
import Dbos.Foundation.TextBuffer

/-! # Format strings

A format string and its arguments are pieces: literal characters and directives
that have taken their arguments. An interpreter is given by what it does with one
piece, so it does with a format what it does with the pieces one after the other. -/

namespace Dbos.Formats

open TextBuffer Numerals

inductive Argument where
  | string (text : CString)
  | word (value : BitVec 32)

inductive Piece where
  | literal (character : UInt8)
  | string (text : CString)
  | char (value : BitVec 32)
  | decimal (value : BitVec 32)
  | unsigned (value : BitVec 32)
  | hex (value : BitVec 32)
  /-- `%` and a character that is the code of no directive. -/
  | other (code : UInt8)

def percent : UInt8 := 0x25

/-- The last byte of an argument for `%c`. -/
def lowByte (value : BitVec 32) : UInt8 := .ofNat value.toNat

namespace Piece

def text : Piece → List UInt8
  | literal character => [character]
  | string text => text.characters
  | char value => [lowByte value]
  | decimal value => signedText 10 value.toInt
  | unsigned value => Numerals.text 10 value.toNat
  | hex value => 0x30 :: 0x78 :: Numerals.text 16 value.toNat
  | other code => [code]

/-- The character of the format at which the piece begins. -/
def first : Piece → UInt8
  | literal character => character
  | _ => percent

end Piece

/-- The text of the pieces one after the other. -/
def output (pieces : List Piece) : List UInt8 := pieces.flatMap Piece.text

@[simp] theorem output_nil : output [] = [] := rfl

@[simp] theorem output_cons (piece : Piece) (pieces : List Piece) :
    output (piece :: pieces) = piece.text ++ output pieces := rfl

theorem output_append (front back : List Piece) :
    output (front ++ back) = output front ++ output back := List.flatMap_append

def takeWord (piece : BitVec 32 → Piece) : List Argument → Option (Piece × List Argument)
  | .word value :: arguments => some (piece value, arguments)
  | _ => none

def takeString : List Argument → Option (Piece × List Argument)
  | .string text :: arguments => some (.string text, arguments)
  | _ => none

/-- The piece of a directive, and the arguments behind it. There is none where the
argument does not fit, and for the codes that are left out. -/
def directive (leftOut : List UInt8) (code : UInt8) (arguments : List Argument) :
    Option (Piece × List Argument) :=
  if code ∈ leftOut then none
  else if code = 0x73 then takeString arguments
  else if code = 0x63 then takeWord .char arguments
  else if code = 0x64 then takeWord .decimal arguments
  else if code = 0x75 then takeWord .unsigned arguments
  else if code = 0x78 then takeWord .hex arguments
  else some (.other code, arguments)

/-- The pieces of a format. There are none for a format that ends in a lone `%`. -/
def pieces (leftOut : List UInt8) : List UInt8 → List Argument → Option (List Piece)
  | [], _ => some []
  | [character], _ => if character = percent then none else some [.literal character]
  | character :: code :: format, arguments =>
      if character = percent then
        match directive leftOut code arguments with
        | none => none
        | some (piece, arguments) => (pieces leftOut format arguments).map (piece :: ·)
      else (pieces leftOut (code :: format) arguments).map (.literal character :: ·)

/-- The arguments are those the format asks for, and it does not end in a lone `%`. -/
def Matches (leftOut : List UInt8) (format : List UInt8) (arguments : List Argument) : Prop :=
  (pieces leftOut format arguments).isSome = true

instance {leftOut format : List UInt8} {arguments : List Argument} :
    Decidable (Matches leftOut format arguments) :=
  inferInstanceAs (Decidable (_ = _))

section Interpreter

variable {State : Type} (leftOut : List UInt8)

/-- The loop of an interpreter over the characters of the format. At each piece it
looks whether it goes on. -/
def formatWhile (goesOn : UInt8 → State → Bool) (perform : Piece → State → State) :
    List UInt8 → List Argument → State → Option State
  | [], _, state => some state
  | [character], _, state =>
      if goesOn character state then
        if character = percent then none else some (perform (.literal character) state)
      else some state
  | character :: code :: format, arguments, state =>
      if goesOn character state then
        if character = percent then
          match directive leftOut code arguments with
          | none => none
          | some (piece, arguments) =>
              formatWhile goesOn perform format arguments (perform piece state)
        else
          formatWhile goesOn perform (code :: format) arguments
            (perform (.literal character) state)
      else some state

/-- `while(format[i])`. -/
def format (perform : Piece → State → State) :
    List UInt8 → List Argument → State → Option State :=
  formatWhile leftOut (fun _ _ => true) perform

/-- The pieces one after the other, while the interpreter goes on. -/
def performWhile (goesOn : UInt8 → State → Bool) (perform : Piece → State → State) :
    List Piece → State → State
  | [], state => state
  | piece :: pieces, state =>
      if goesOn piece.first state then
        performWhile goesOn perform pieces (perform piece state)
      else state

def performAll (perform : Piece → State → State) (pieces : List Piece) (state : State) : State :=
  pieces.foldl (fun state piece => perform piece state) state

variable {leftOut}

theorem takeWord_some {kind : BitVec 32 → Piece} {arguments rest : List Argument} {piece : Piece}
    (taken : takeWord kind arguments = some (piece, rest)) : ∃ value, piece = kind value := by
  unfold takeWord at taken
  split at taken
  · cases taken
    exact ⟨_, rfl⟩
  · cases taken

theorem takeString_some {arguments rest : List Argument} {piece : Piece}
    (taken : takeString arguments = some (piece, rest)) : ∃ text, piece = .string text := by
  unfold takeString at taken
  split at taken
  · cases taken
    exact ⟨_, rfl⟩
  · cases taken

theorem directive_cases {code : UInt8} {arguments rest : List Argument} {piece : Piece}
    (taken : directive leftOut code arguments = some (piece, rest)) :
    (∃ text, piece = .string text) ∨
      (∃ value, piece = .char value ∨ piece = .decimal value ∨ piece = .unsigned value ∨
        piece = .hex value) ∨
      piece = .other code := by
  unfold directive at taken
  split at taken
  case isTrue => cases taken
  split at taken
  case isTrue => exact .inl (takeString_some taken)
  split at taken
  case isTrue => exact .inr (.inl ((takeWord_some taken).imp fun _ => .inl))
  split at taken
  case isTrue => exact .inr (.inl ((takeWord_some taken).imp fun _ same => .inr (.inl same)))
  split at taken
  case isTrue =>
    exact .inr (.inl ((takeWord_some taken).imp fun _ same => .inr (.inr (.inl same))))
  split at taken
  case isTrue =>
    exact .inr (.inl ((takeWord_some taken).imp fun _ same => .inr (.inr (.inr same))))
  cases taken
  exact .inr (.inr rfl)

theorem first_directive {code : UInt8} {arguments rest : List Argument} {piece : Piece}
    (taken : directive leftOut code arguments = some (piece, rest)) : piece.first = percent := by
  rcases directive_cases taken with ⟨text, rfl⟩ | ⟨value, rfl | rfl | rfl | rfl⟩ | rfl <;> rfl

theorem formatWhile_eq {goesOn : UInt8 → State → Bool} {perform : Piece → State → State}
    {characters : List UInt8} {arguments : List Argument} {parts : List Piece}
    (parsed : pieces leftOut characters arguments = some parts) (state : State) :
    formatWhile leftOut goesOn perform characters arguments state =
      some (performWhile goesOn perform parts state) := by
  induction characters, arguments using pieces.induct leftOut generalizing parts state with
  | case1 =>
      cases parsed
      rfl
  | case2 arguments =>
      rw [pieces, if_pos rfl] at parsed
      cases parsed
  | case3 character arguments literal =>
      rw [pieces, if_neg literal] at parsed
      cases parsed
      simp only [formatWhile, performWhile, Piece.first, if_neg literal]
      exact (apply_ite some (goesOn character state = true) _ _).symm
  | case4 code format arguments missing =>
      rw [pieces, if_pos rfl, missing] at parsed
      cases parsed
  | case5 code format arguments piece rest taken induction =>
      rw [pieces, if_pos rfl, taken] at parsed
      obtain ⟨later, laterParsed, rfl⟩ := Option.map_eq_some_iff.mp parsed
      simp only [formatWhile, performWhile, first_directive taken, if_true, taken,
        induction laterParsed]
      cases goesOn percent state <;> rfl
  | case6 character code format arguments literal induction =>
      rw [pieces, if_neg literal] at parsed
      obtain ⟨later, laterParsed, rfl⟩ := Option.map_eq_some_iff.mp parsed
      simp only [formatWhile, performWhile, Piece.first, if_neg literal, induction laterParsed]
      exact (apply_ite some (goesOn character state = true) _ _).symm

theorem performWhile_true (perform : Piece → State → State) (parts : List Piece) (state : State) :
    performWhile (fun _ _ => true) perform parts state = performAll perform parts state := by
  induction parts generalizing state with
  | nil => rfl
  | cons piece parts induction => exact induction _

theorem format_eq {perform : Piece → State → State} {characters : List UInt8}
    {arguments : List Argument} {parts : List Piece}
    (parsed : pieces leftOut characters arguments = some parts) (state : State) :
    format leftOut perform characters arguments state = some (performAll perform parts state) := by
  rw [format, formatWhile_eq parsed, performWhile_true]

theorem performAll_represents {perform : Piece → State → State}
    (represents : List UInt8 → State → Prop)
    (onePiece : ∀ piece sofar state, represents sofar state →
      represents (sofar ++ piece.text) (perform piece state))
    {sofar : List UInt8} {state : State} (start : represents sofar state) (parts : List Piece) :
    represents (sofar ++ output parts) (performAll perform parts state) := by
  induction parts generalizing sofar state with
  | nil => simpa [performAll] using start
  | cons piece parts induction =>
      have next := induction (onePiece piece sofar state start)
      rwa [List.append_assoc] at next

/-- The interpreter goes on at each piece in front and stops at the first one behind. -/
structure StopsAfter (goesOn : UInt8 → State → Bool) (perform : Piece → State → State)
    (state : State) (before after : List Piece) : Prop where
  goes : ∀ front piece back, before = front ++ piece :: back →
    goesOn piece.first (performAll perform front state) = true
  stops : ∀ next ∈ after.head?, goesOn next.first (performAll perform before state) = false

theorem performWhile_of_stopsAfter {goesOn : UInt8 → State → Bool}
    {perform : Piece → State → State} {state : State} {before after : List Piece}
    (stopsAfter : StopsAfter goesOn perform state before after) :
    performWhile goesOn perform (before ++ after) state = performAll perform before state := by
  induction before generalizing state with
  | nil =>
      cases after with
      | nil => rfl
      | cons next after =>
          have stops := stopsAfter.stops next rfl
          rw [performAll, List.foldl_nil] at stops
          rw [List.nil_append, performWhile, stops]
          rfl
  | cons piece before induction =>
      have goes : goesOn piece.first state = true := stopsAfter.goes [] piece before rfl
      have later : StopsAfter goesOn perform (perform piece state) before after := by
        constructor
        · intro front other back same
          exact stopsAfter.goes (piece :: front) other back (congrArg (piece :: ·) same)
        · exact stopsAfter.stops
      rw [List.cons_append, performWhile, if_pos goes, induction later]
      rfl

theorem exists_stopsAfter (goesOn : UInt8 → State → Bool) (perform : Piece → State → State)
    (state : State) (parts : List Piece) :
    ∃ before after, parts = before ++ after ∧ StopsAfter goesOn perform state before after := by
  induction parts generalizing state with
  | nil =>
      refine ⟨[], [], rfl, fun front piece back same => ?_, fun next member => ?_⟩
      · simp at same
      · cases member
  | cons piece parts induction =>
      cases goes : goesOn piece.first state with
      | false =>
          refine ⟨[], piece :: parts, rfl, fun front other back same => ?_,
            fun next member => ?_⟩
          · simp at same
          · cases member
            exact goes
      | true =>
          obtain ⟨before, after, rfl, stopsAfter⟩ := induction (perform piece state)
          refine ⟨piece :: before, after, rfl, fun front other back same => ?_, stopsAfter.stops⟩
          cases front with
          | nil =>
              obtain ⟨rfl, -⟩ := List.cons.inj same
              exact goes
          | cons first front =>
              obtain ⟨rfl, rest⟩ := List.cons.inj same
              exact stopsAfter.goes front other back rest

end Interpreter

/-! ## Texts without `NUL` -/

theorem zero_notMem_hex (number : Nat) : (0 : UInt8) ∉ 0x30 :: 0x78 :: Numerals.text 16 number := by
  have digits := zero_notMem_text (show 1 < 16 by omega) (by omega) number
  simpa using digits

theorem char_of_zero_mem_directive {leftOut : List UInt8} {code : UInt8}
    {arguments rest : List Argument} {piece : Piece}
    (taken : directive leftOut code arguments = some (piece, rest)) (codeNoNul : 0 ≠ code)
    (prints : 0 ∈ piece.text) : ∃ value, piece = .char value ∧ lowByte value = 0 := by
  rcases directive_cases taken with ⟨text, rfl⟩ | ⟨value, rfl | rfl | rfl | rfl⟩ | rfl
  · exact absurd prints text.noNul
  · exact ⟨value, rfl, (List.mem_singleton.mp prints).symm⟩
  · exact absurd prints (zero_notMem_signedText (by omega) (by omega) _)
  · exact absurd prints (zero_notMem_text (by omega) (by omega) _)
  · exact absurd prints (zero_notMem_hex _)
  · exact absurd (List.mem_singleton.mp prints) codeNoNul

theorem char_of_zero_mem {leftOut characters : List UInt8} {arguments : List Argument}
    {parts : List Piece} (parsed : pieces leftOut characters arguments = some parts)
    (noNul : 0 ∉ characters) {piece : Piece} (member : piece ∈ parts) (prints : 0 ∈ piece.text) :
    ∃ value, piece = .char value ∧ lowByte value = 0 := by
  induction characters, arguments using pieces.induct leftOut generalizing parts with
  | case1 =>
      cases parsed
      exact absurd member List.not_mem_nil
  | case2 arguments =>
      rw [pieces, if_pos rfl] at parsed
      cases parsed
  | case3 character arguments literal =>
      rw [pieces, if_neg literal] at parsed
      cases parsed
      obtain rfl := List.mem_singleton.mp member
      exact absurd prints noNul
  | case4 code format arguments missing =>
      rw [pieces, if_pos rfl, missing] at parsed
      cases parsed
  | case5 code format arguments taken rest found induction =>
      rw [pieces, if_pos rfl, found] at parsed
      obtain ⟨later, laterParsed, rfl⟩ := Option.map_eq_some_iff.mp parsed
      rw [List.mem_cons, List.mem_cons, not_or, not_or] at noNul
      rcases List.mem_cons.mp member with rfl | laterMember
      · exact char_of_zero_mem_directive found noNul.2.1 prints
      · exact induction laterParsed noNul.2.2 laterMember
  | case6 character code format arguments literal induction =>
      rw [pieces, if_neg literal] at parsed
      obtain ⟨later, laterParsed, rfl⟩ := Option.map_eq_some_iff.mp parsed
      rw [List.mem_cons, not_or] at noNul
      rcases List.mem_cons.mp member with rfl | laterMember
      · exact absurd (List.mem_singleton.mp prints) noNul.1
      · exact induction laterParsed noNul.2 laterMember

theorem zero_notMem_output {leftOut characters : List UInt8} {arguments : List Argument}
    {parts : List Piece} (parsed : pieces leftOut characters arguments = some parts)
    (noNul : 0 ∉ characters) (chars : ∀ value, Piece.char value ∈ parts → lowByte value ≠ 0) :
    0 ∉ output parts := by
  intro prints
  obtain ⟨piece, member, inText⟩ := List.mem_flatMap.mp prints
  obtain ⟨value, rfl, zero⟩ := char_of_zero_mem parsed noNul member inText
  exact chars value member zero

end Dbos.Formats
