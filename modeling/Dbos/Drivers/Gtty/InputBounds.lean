import Dbos.Drivers.Gtty.LineInput

/-! # The bounds of the input buffer

A program chooses how many characters it asks for, and a tab takes four places. As long as
nobody asks for a negative number of characters or for more than the buffer holds, and no
tab is typed with fewer than four places left, every key stays inside the buffer, and a read
copies no more than was asked for. -/

namespace Dbos.Terminal

open Dbos.Execution

/-- Where `gtty_keyboard_listener` stores a character, if it stores it. -/
def Input.storedAt (input : Input) (c : UInt8) : Option Nat :=
  if (input.index : Int) < input.size ∧ c ≠ backspace ∧ ¬endsLine c then some input.index else none

/-- What an activity stores and copies stays within the bounds, and so does the index that
it leaves. -/
def WithinBounds (gtty : Gtty) (activity : Activity) : Prop :=
  ((act gtty activity).input.index : Int) ≤ (act gtty activity).input.size ∧
    match activity with
    | .event (.key .regular c) => ∀ place ∈ gtty.input.storedAt c, place < gttyInputBufferLen
    | .read size => ∀ bytes ∈ (gttyDevRead gtty size).1, bytes.length ≤ size.toNat
    | _ => True

/-- A request is for as many characters as the buffer holds at most, and a tab finds four
places or none. -/
def Fits (gtty : Gtty) : Activity → Prop
  | .event (.control (.inputReady size)) =>
      gtty.input.size = 0 → 0 ≤ size.toInt ∧ size.toInt ≤ gttyInputBufferLen
  | .event (.key .regular c) =>
      c = tab → gtty.input.size ≤ gtty.input.index ∨ gtty.input.index + 4 ≤ gtty.input.size
  | _ => True

instance (gtty : Gtty) : ∀ activity, Decidable (Fits gtty activity)
  | .event (.control (.inputReady _)) => inferInstanceAs (Decidable (_ → _))
  | .event (.key .regular _) => inferInstanceAs (Decidable (_ → _))
  | .event (.key .special _) | .event (.write _) | .read _ => .isTrue trivial
  | .event (.control (.setMode _)) | .event (.control .clear) => .isTrue trivial
  | .event (.control .echoEnable) | .event (.control .echoDisable) => .isTrue trivial

/-- The index has not passed the size of the request, nor has that passed the end of the
buffer. -/
structure Input.InBounds (input : Input) : Prop where
  index : (input.index : Int) ≤ input.size
  size : input.size ≤ gttyInputBufferLen

namespace Input.InBounds

variable {input : Input}

theorem rubOut (inBounds : input.InBounds) : input.rubOut.InBounds := by
  have index := inBounds.index
  refine ⟨?_, ?_⟩
  · rw [size_rubOut]
    unfold Input.rubOut
    split
    · simp only
      omega
    · exact index
  · rw [size_rubOut]
    exact inBounds.size

theorem listen (inBounds : input.InBounds) {c : UInt8}
    (fits : c = tab → input.size ≤ input.index ∨ input.index + 4 ≤ input.size) :
    (input.listen c).InBounds := by
  -- The flag has no part in this.
  have stores : ∀ other : Input, other.index = input.index → other.size = input.size →
      (if (other.index : Int) < other.size ∧ c ≠ backspace ∧ ¬endsLine c then other.store c
        else other).InBounds := by
    intro other sameIndex sameSize
    have index := inBounds.index
    have size := inBounds.size
    split
    case isTrue found =>
      have room := found.1
      refine ⟨?_, by rw [← sameSize] at size; exact size⟩
      unfold Input.store
      by_cases isTab : c = tab
      · have places := fits isTab
        simp only [isTab, ne_eq, not_true_eq_false, if_false]
        omega
      · simp only [ne_eq, isTab, not_false_eq_true, if_true]
        omega
    case isFalse =>
      rw [← sameIndex, ← sameSize] at index
      rw [← sameSize] at size
      exact ⟨index, size⟩
  have flagged : ∀ other : Input, other.InBounds →
      (if other.size ≤ other.index then { other with flag := true } else other).InBounds := by
    intro other bounds
    split
    · exact ⟨bounds.index, bounds.size⟩
    · exact bounds
  unfold Input.listen
  simp only
  split
  · exact flagged _ (stores { input with flag := true } rfl rfl)
  · exact flagged _ (stores input rfl rfl)

theorem foldl_put (stepBack : Screen → Screen) (move : Screen → UInt8 → Screen)
    (wrap : Screen → Screen) (bytes : List UInt8) {gtty : Gtty} (inBounds : gtty.input.InBounds) :
    (bytes.foldl (put stepBack move wrap) gtty).input.InBounds := by
  induction bytes generalizing gtty with
  | nil => exact inBounds
  | cons c bytes induction =>
      apply induction
      rw [input_put]
      split
      · exact inBounds.rubOut
      · exact inBounds

theorem write (bytes : List UInt8) {gtty : Gtty} (inBounds : gtty.input.InBounds) :
    (gttyDevWrite gtty bytes).input.InBounds := by
  unfold gttyDevWrite gttyWriteVesa gttyWriteVga
  split
  · split
    · exact inBounds
    · exact foldl_put _ _ _ bytes inBounds
  · split
    · exact inBounds
    · exact foldl_put _ _ _ bytes inBounds

end Input.InBounds

theorem inBounds_act {gtty : Gtty} (inBounds : gtty.input.InBounds) {activity : Activity}
    (fits : Fits gtty activity) : (act gtty activity).input.InBounds := by
  match activity with
  | .event (.key .regular c) =>
      have listened := inBounds.listen fits
      simp only [act, Terminal.step, input_gttyKeyboardListener]
      split
      · exact listened.rubOut
      · exact listened
  | .event (.key .special _) => exact inBounds
  | .event (.write bytes) => exact inBounds.write bytes
  | .event (.control command) =>
      cases command with
      | setMode mode =>
          simp only [act, Terminal.step, gttyDevControl]
          split <;> exact inBounds
      | clear =>
          simp only [act, Terminal.step, gttyDevControl]
          split <;> exact inBounds
      | echoEnable => exact inBounds
      | echoDisable => exact inBounds
      | inputReady size =>
          simp only [act, Terminal.step, gttyDevControl]
          split
          case isTrue free =>
            have bounds := fits free
            have index := inBounds.index
            refine ⟨?_, bounds.2⟩
            simp only
            omega
          case isFalse => exact inBounds
  | .read size =>
      simp only [act, gttyDevRead]
      split
      · exact ⟨Int.le_refl _, Int.natCast_nonneg _⟩
      · exact inBounds

theorem withinBounds_of_fits {gtty : Gtty} (inBounds : gtty.input.InBounds) {activity : Activity}
    (fits : Fits gtty activity) : WithinBounds gtty activity := by
  refine ⟨(inBounds_act inBounds fits).index, ?_⟩
  have index := inBounds.index
  have size := inBounds.size
  match activity with
  | .event (.key .regular c) =>
      intro place stored
      simp only [Input.storedAt, Option.mem_def, Option.ite_none_right_eq_some,
        Option.some.injEq] at stored
      have room := stored.1.1
      omega
  | .read asked =>
      intro bytes copied
      simp only [gttyDevRead] at copied
      split at copied
      case isTrue ready =>
        cases copied
        have isSize := ready.2
        rw [Input.length_contents]
        rw [BitVec.toInt_eq_toNat_cond] at isSize
        split at isSize <;> omega
      case isFalse => cases copied
  | .event (.key .special _) | .event (.write _) | .event (.control _) => trivial

/-- In every run of the terminal, whatever keys, requests, reads and output it consists of:
if all requests and tabs fit, then every activity stays within the bounds. -/
theorem withinBounds_of_run {boot : Gtty} (initialised : Initialised boot)
    {activities : List Activity}
    (fits : Admissible (fun gtty activity => some (act gtty activity)) Fits boot activities) :
    Admissible (fun gtty activity => some (act gtty activity)) WithinBounds boot activities := by
  have start : boot.input.InBounds := by
    refine ⟨?_, ?_⟩
    · rw [initialised.index, initialised.size]
      exact Int.le_refl _
    · rw [initialised.size]
      exact Int.natCast_nonneg _
  apply fits.of_invariant (fun gtty => gtty.input.InBounds)
  · intro gtty activity inBounds activityFits
    exact withinBounds_of_fits inBounds activityFits
  · intro gtty activity next inBounds activityFits stepped
    cases stepped
    exact inBounds_act inBounds activityFits
  · exact start

/-- A line is requested, typed with a tab that still fits, and read. -/
theorem withinBounds_of_run_line :
    Admissible (fun gtty activity => some (act gtty activity)) WithinBounds textTerminal
      [.event (.control (.inputReady 5)), .event (.key .regular 97), .event (.key .regular tab),
        .read 5] :=
  withinBounds_of_run ⟨rfl, rfl, rfl⟩ (by decide)

/-- With one character requested, a tab moves the index to 4, and four bytes are read. With
1025 requested, the last character of the line is stored behind the buffer. -/
theorem not_withinBounds :
    ¬Admissible (fun gtty activity => some (act gtty activity)) WithinBounds textTerminal
        [.event (.control (.inputReady 1)), .event (.key .regular tab)] ∧
      ¬WithinBounds (act (act textTerminal (.event (.control (.inputReady 1))))
        (.event (.key .regular tab))) (.read 1) ∧
      ¬WithinBounds (((List.replicate 256 tab).foldl (fun gtty c => act gtty (.event (.key .regular c)))
        (act textTerminal (.event (.control (.inputReady 1025)))))) (.event (.key .regular 97)) := by
  refine ⟨?_, ?_, ?_⟩
  · rintro ⟨-, second⟩
    exact absurd (second _ rfl).1.1 (by decide)
  · rintro ⟨-, copied⟩
    exact absurd (copied _ rfl) (by decide)
  · rintro ⟨-, stored⟩
    have place := stored 1024 (by decide +kernel)
    exact absurd place (by decide)

end Dbos.Terminal
