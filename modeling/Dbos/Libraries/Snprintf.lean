import Dbos.Libraries.Stdio

/-! # `vsnprintf`

Its loop runs under the condition `format[i] & j < size`. The comparison binds
tighter, so it is the last bit of the character that counts, and the bound is
looked at between the pieces only. -/

namespace Dbos.Stdio

open TextBuffer Numerals Formats

/-- `format[i] & j < size`. -/
def goesOn (size : Nat) (character : UInt8) (destination : Destination) : Bool :=
  character.toNat &&& (if destination.j < size then 1 else 0) != 0

/-- `vsnprintf`: what it returns and the buffer afterwards. -/
def vsnprintf (str : Buffer) (size : Nat) (characters : CString) (arguments : List Argument) :
    Option (Nat × Buffer) :=
  (formatWhile floats (goesOn size) vsprintfPiece characters.characters arguments ⟨str, 0⟩).map
    fun destination => (destination.j, destination.str)

/-- The characters that a call of `vsprintf` has produced. -/
def produced (result : Nat × Buffer) : List UInt8 := (List.range result.1).map result.2

/-- Whatever the buffer is, `vsnprintf` writes the first `size - 1` characters of what
`vsprintf` produces and a `NUL`, and nothing else; with no room it writes nothing. -/
def Bounded (size : Nat) (characters : CString) (arguments : List Argument) : Prop :=
  ∀ str, ∃ full written, vsprintf str characters arguments = some full ∧
    vsnprintf str size characters arguments = some written ∧
    written.2 = if size = 0 then str else splice str 0 ((produced full).take (size - 1) ++ [0])

/-- The loop does not stop at a character whose last bit is set. -/
def OddPiece (piece : Piece) : Prop := piece.first.toNat % 2 = 1

instance (piece : Piece) : Decidable (OddPiece piece) := inferInstanceAs (Decidable (_ = _))

/-- The last piece that is performed puts the `NUL`, at the place where it has to be:
either it is `%s`, `%d` or `%u` and its text ends in time, or it is `%c` and prints a
`NUL` itself, as the last byte there is room for. -/
inductive EndsInTime (size : Nat) (parts : List Piece) : Prop where
  | terminated (before : List Piece) (last : Piece) (after : List Piece)
      (split : parts = before ++ last :: after)
      (odd : ∀ piece ∈ before ++ [last], OddPiece piece)
      (terminates : terminator last = [0])
      (inTime : (output (before ++ [last])).length < size)
      (stops : after = [] ∨ (output (before ++ [last])).length + 1 = size ∧
        ∀ next ∈ after.head?, ¬OddPiece next)
  | character (before : List Piece) (value : BitVec 32) (after : List Piece)
      (split : parts = before ++ .char value :: after)
      (odd : ∀ piece ∈ before, OddPiece piece)
      (nul : lowByte value = 0)
      (full : (output before).length + 1 = size)

theorem goesOn_iff {size : Nat} {piece : Piece} {destination : Destination} :
    goesOn size piece.first destination = true ↔ OddPiece piece ∧ destination.j < size := by
  unfold goesOn OddPiece
  split
  case isTrue room =>
    rw [bne_iff_ne, Nat.and_one_is_mod]
    omega
  case isFalse full => simp [full]

theorem goesOn_eq_false {size : Nat} {piece : Piece} {destination : Destination} :
    goesOn size piece.first destination = false ↔ OddPiece piece → size ≤ destination.j := by
  rw [← Bool.not_eq_true, goesOn_iff]
  constructor
  · exact fun stops odd => Nat.le_of_not_lt fun room => stops ⟨odd, room⟩
  · exact fun stops goes => Nat.not_lt.mpr (stops goes.1) goes.2

theorem length_output_concat (before : List Piece) (last : Piece) :
    (output (before ++ [last])).length = (output before).length + last.text.length := by
  rw [output_append, List.length_append, output_cons, output_nil, List.append_nil]

theorem text_ne_nil_of_not_odd {piece : Piece} (even : ¬OddPiece piece) : piece.text ≠ [] := by
  have percentOdd : percent.toNat % 2 = 1 := rfl
  cases piece with
  | literal character => exact List.cons_ne_nil _ _
  | string | char | decimal | unsigned | hex | other => exact absurd percentOdd even

section

variable {characters : CString} {arguments : List Argument} {parts : List Piece}
  (parsed : pieces floats characters.characters arguments = some parts)

include parsed

theorem produced_vsprintf (str : Buffer) :
    ∃ full, vsprintf str characters arguments = some full ∧ produced full = output parts := by
  refine ⟨_, vsprintf_eq parsed str, ?_⟩
  apply List.ext_getElem
  · simp [produced]
  · intro index _ inside
    have room : index < (output parts ++ lastTerminator parts).length := by
      rw [List.length_append]
      omega
    have byte := @splice_inside str 0 index _ room
    rw [Nat.zero_add] at byte
    simp only [produced, List.getElem_map, List.getElem_range]
    rw [byte, List.getElem_append_left inside]

theorem vsnprintf_eq {size : Nat} {before after : List Piece} (split : parts = before ++ after)
    {str : Buffer} (stopsAfter : StopsAfter (goesOn size) vsprintfPiece ⟨str, 0⟩ before after) :
    vsnprintf str size characters arguments = some ((output before).length,
      splice str 0 (output before ++ lastTerminator before)) := by
  rw [vsnprintf, formatWhile_eq parsed, split, performWhile_of_stopsAfter stopsAfter,
    performAll_vsprintfPiece, Option.map_some]

end

theorem stopsAfter_iff {size : Nat} {str : Buffer} {before after : List Piece} :
    StopsAfter (goesOn size) vsprintfPiece ⟨str, 0⟩ before after ↔
      (∀ front piece back, before = front ++ piece :: back →
        OddPiece piece ∧ (output front).length < size) ∧
      ∀ next ∈ after.head?, OddPiece next → size ≤ (output before).length := by
  constructor
  · rintro ⟨goes, stops⟩
    constructor
    · intro front piece back split
      have goesHere := goes front piece back split
      rwa [goesOn_iff, performAll_vsprintfPiece] at goesHere
    · intro next member
      have stopsHere := stops next member
      rwa [goesOn_eq_false, performAll_vsprintfPiece] at stopsHere
  · rintro ⟨goes, stops⟩
    constructor
    · intro front piece back split
      rw [goesOn_iff, performAll_vsprintfPiece]
      exact goes front piece back split
    · intro next member
      rw [goesOn_eq_false, performAll_vsprintfPiece]
      exact stops next member

/-- Where the loop stops, and what has to be in the buffer then. -/
structure StopsBounded (size : Nat) (parts before after : List Piece) : Prop where
  split : parts = before ++ after
  goes : ∀ front piece back, before = front ++ piece :: back →
    OddPiece piece ∧ (output front).length < size
  stops : ∀ next ∈ after.head?, OddPiece next → size ≤ (output before).length
  written : output before ++ lastTerminator before = (output parts).take (size - 1) ++ [0]

section

variable {characters : CString} {arguments : List Argument} {parts : List Piece}
  (parsed : pieces floats characters.characters arguments = some parts)

include parsed

theorem bounded_iff_stopsBounded {size : Nat} (room : size ≠ 0) :
    Bounded size characters arguments ↔ ∃ before after, StopsBounded size parts before after := by
  constructor
  · intro bounded
    obtain ⟨before, after, split, stopsAfter⟩ :=
      exists_stopsAfter (goesOn size) vsprintfPiece ⟨fun _ => 0, 0⟩ parts
    have stopped := stopsAfter_iff.mp stopsAfter
    refine ⟨before, after, split, stopped.1, stopped.2, eq_of_splice_eq fun str => ?_⟩
    obtain ⟨full, written, left, right, same⟩ := bounded str
    obtain ⟨_, produces, text⟩ := produced_vsprintf parsed str
    rw [left, Option.some_inj] at produces
    rw [vsnprintf_eq parsed split (stopsAfter_iff.mpr stopped), Option.some_inj] at right
    rw [if_neg room, produces, text, ← right] at same
    exact same
  · rintro ⟨before, after, split, goes, stops, lists⟩ str
    obtain ⟨full, produces, text⟩ := produced_vsprintf parsed str
    refine ⟨full, _, produces, vsnprintf_eq parsed split (stopsAfter_iff.mpr ⟨goes, stops⟩), ?_⟩
    rw [if_neg room, text, lists]

theorem bounded_zero : Bounded 0 characters arguments := by
  intro str
  obtain ⟨full, produces, -⟩ := produced_vsprintf parsed str
  have stopsAfter : StopsAfter (goesOn 0) vsprintfPiece ⟨str, 0⟩ [] parts := by
    rw [stopsAfter_iff]
    exact ⟨fun front piece back split => by simp at split, fun _ _ _ => Nat.zero_le _⟩
  refine ⟨full, _, produces, vsnprintf_eq parsed rfl stopsAfter, ?_⟩
  simp [lastTerminator]

omit parsed in
theorem endsInTime_of_stopsBounded {size : Nat} {before after : List Piece} (room : size ≠ 0)
    (chars : ∀ piece ∈ parts, 0 ∈ piece.text → ∃ value, piece = .char value ∧ lowByte value = 0)
    (stopsBounded : StopsBounded size parts before after) : EndsInTime size parts := by
  obtain ⟨split, goes, stops, written⟩ := stopsBounded
  rcases List.eq_nil_or_concat' before with rfl | ⟨front, last, rfl⟩
  · simp [lastTerminator] at written
  rw [lastTerminator_concat] at written
  have splitLast : parts = front ++ last :: after := by
    rw [split, List.append_assoc, List.singleton_append]
  have odd : ∀ piece ∈ front ++ [last], OddPiece piece := by
    intro piece member
    obtain ⟨earlier, later, parts⟩ := List.append_of_mem member
    exact (goes earlier piece later parts).1
  have whole : (output parts).length =
      (output (front ++ [last])).length + (output after).length := by
    rw [split, output_append, List.length_append]
  rcases terminator_cases last with terminates | nothing
  · -- the text in front of the `NUL` is as long as the bound allows
    rw [terminates] at written
    have length := congrArg List.length (List.append_cancel_right written)
    rw [List.length_take] at length
    refine .terminated front last after splitLast odd terminates (by omega) ?_
    cases after with
    | nil => exact .inl rfl
    | cons next after =>
        have even : ¬OddPiece next := fun oddNext => by
          have reached := stops next rfl oddNext
          omega
        have longer := List.length_pos_iff.mpr (text_ne_nil_of_not_odd even)
        rw [output_cons, List.length_append] at whole
        refine .inr ⟨by omega, fun other member => ?_⟩
        cases member
        exact even
  · -- the last byte of the text is the `NUL`
    rw [nothing, List.append_nil] at written
    have length := congrArg List.length written
    rw [List.length_append, List.length_take, List.length_singleton] at length
    have positive := length_terminated_pos last
    rw [nothing, List.append_nil] at positive
    have prints : 0 ∈ last.text := by
      have lasts := congrArg List.getLast? written
      rw [output_append, output_cons, output_nil, List.append_nil, List.getLast?_concat,
        List.getLast?_append_of_ne_nil _ (List.length_pos_iff.mp positive)] at lasts
      exact List.mem_of_getLast? lasts
    have member : last ∈ parts := by
      rw [splitLast]
      exact List.mem_append_right _ List.mem_cons_self
    obtain ⟨value, rfl, nul⟩ := chars last member prints
    refine .character front value after splitLast
      (fun piece member => odd piece (List.mem_append_left _ member)) nul ?_
    rw [length_output_concat, Piece.text, List.length_singleton] at length whole
    omega

omit parsed in
theorem length_output_front_le {before front back : List Piece} {last piece : Piece}
    (same : before ++ [last] = front ++ piece :: back) :
    (output front).length ≤ (output before).length := by
  have lengths := congrArg List.length same
  rw [List.length_append, List.length_append, List.length_singleton, List.length_cons] at lengths
  have isPrefix : front <+: before := by
    apply List.prefix_of_prefix_length_le (List.prefix_append front (piece :: back))
    · rw [← same]
      exact List.prefix_append before [last]
    · omega
  obtain ⟨rest, rfl⟩ := isPrefix
  rw [output_append, List.length_append]
  exact Nat.le_add_right _ _

omit parsed in
theorem stopsBounded_of_endsInTime {size : Nat} (endsInTime : EndsInTime size parts) :
    ∃ before after, StopsBounded size parts before after := by
  cases endsInTime with
  | terminated before last after split odd terminates inTime stops =>
      have whole : output parts = output (before ++ [last]) ++ output after := by
        rw [← output_append, split, List.append_assoc, List.singleton_append]
      refine ⟨before ++ [last], after, by rw [split, List.append_assoc, List.singleton_append],
        fun front piece back same => ⟨odd piece ?_, ?_⟩, fun next member oddNext => ?_, ?_⟩
      · rw [same]
        exact List.mem_append_right _ List.mem_cons_self
      · have shorter := length_output_front_le same
        rw [length_output_concat] at inTime
        omega
      · rcases stops with rfl | ⟨-, even⟩
        · cases member
        · exact absurd oddNext (even next member)
      · rw [lastTerminator_concat, terminates, whole]
        rcases stops with rfl | ⟨full, -⟩
        · rw [output_nil, List.append_nil, List.take_of_length_le (by omega)]
        · rw [List.take_left' (by omega)]
  | character before value after split odd nul full =>
      have charOdd : OddPiece (.char value) := show percent.toNat % 2 = 1 from rfl
      have text : output (before ++ [.char value]) = output before ++ [0] := by
        rw [output_append, output_cons, output_nil, List.append_nil, Piece.text, nul]
      have whole : output parts = output before ++ output (.char value :: after) := by
        rw [← output_append, split]
      refine ⟨before ++ [.char value], after,
        by rw [split, List.append_assoc, List.singleton_append],
        fun front piece back same => ⟨?_, ?_⟩, fun next member oddNext => ?_, ?_⟩
      · have member : piece ∈ before ++ [.char value] := by
          rw [same]
          exact List.mem_append_right _ List.mem_cons_self
        rcases List.mem_append.mp member with inFront | isLast
        · exact odd piece inFront
        · rw [List.mem_singleton.mp isLast]
          exact charOdd
      · have shorter := length_output_front_le same
        omega
      · rw [text, List.length_append, List.length_singleton]
        omega
      · have none : terminator (.char value) = [] := rfl
        rw [lastTerminator_concat, none, List.append_nil, text, whole, List.take_left' (by omega)]

/-- `vsnprintf` is a bounded `vsprintf` only without room, and where a piece puts the
`NUL` in time. -/
theorem bounded_iff (size : Nat) :
    Bounded size characters arguments ↔ size = 0 ∨ EndsInTime size parts := by
  rcases Nat.eq_zero_or_pos size with rfl | positive
  · exact ⟨fun _ => .inl rfl, fun _ => bounded_zero parsed⟩
  have room := Nat.pos_iff_ne_zero.mp positive
  have chars : ∀ piece ∈ parts, 0 ∈ piece.text →
      ∃ value, piece = .char value ∧ lowByte value = 0 := fun piece member =>
    char_of_zero_mem parsed characters.noNul member
  rw [bounded_iff_stopsBounded parsed room]
  constructor
  · rintro ⟨before, after, stopsBounded⟩
    exact .inr (endsInTime_of_stopsBounded room chars stopsBounded)
  · rintro (zero | endsInTime)
    · exact absurd zero room
    · exact stopsBounded_of_endsInTime endsInTime

end

/-- `"a%d"` with `7` in four bytes, where the text ends in time. -/
theorem bounded_decimal_iff :
    Bounded 4 ⟨[0x61, 0x25, 0x64], by decide⟩ [.word 7] ↔
      4 = 0 ∨ EndsInTime 4 [.literal 0x61, .decimal 7] :=
  bounded_iff rfl 4

/-- A string of three characters is copied into a buffer of two bytes. -/
theorem not_bounded_string :
    ¬Bounded 2 ⟨[0x25, 0x73], by decide⟩ [.string ⟨[0x61, 0x62, 0x63], by decide⟩] := by
  intro bounded
  obtain ⟨full, written, left, right, same⟩ := bounded fun _ => 0xFF
  have beyond : written.2 2 = 0x63 := by
    rw [← Option.some_inj.mp right]
    rfl
  rw [same, if_neg (by decide), ← Option.some_inj.mp left] at beyond
  exact absurd beyond (by decide)

end Dbos.Stdio
