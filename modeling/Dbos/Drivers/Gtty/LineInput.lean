import Dbos.Drivers.Gtty.Gtty
import Dbos.Foundation.Execution

/-! # Reading a line from the terminal

Between a request for `n` characters and the read that fetches them, the input
buffer should hold what was typed: every backspace takes back a character, and
the line is complete with a line end or with the `n`-th character. The buffer
does so as long as no tab or NUL is stored, nothing is typed into a line that is
complete, and a backspace reaches the screen exactly when a key asks for it. -/

namespace Dbos.Terminal

open Dbos.Execution

/-! ## What a line of input is -/

/-- The characters that are left of a line, and whether it is complete. -/
structure Line where
  typed : List UInt8
  complete : Bool
deriving DecidableEq, Repr

namespace Line

def empty : Line := ⟨[], false⟩

/-- What a key does to a line of at most `limit` characters. -/
def press (limit : Nat) (line : Line) (c : UInt8) : Line :=
  if line.complete then line
  else if endsLine c then { line with complete := true }
  else if c = backspace then { line with typed := line.typed.dropLast }
  else ⟨line.typed ++ [c], limit ≤ line.typed.length + 1⟩

def advance (limit : Nat) (line : Line) : Event → Line
  | .key .regular c => line.press limit c
  | .key .special _ | .write _ | .control _ => line

/-- What a read should deliver: nothing before the line is complete. -/
def delivered (line : Line) : Option (List UInt8) :=
  if line.complete then some line.typed else none

end Line

/-- The line that a sequence of events types. -/
def typedLine (limit : Nat) (events : List Event) : Line :=
  events.foldl (Line.advance limit) .empty

/-- The terminal after a request for `limit` characters and some events. -/
def afterRequest (gtty : Gtty) (limit : Nat) (events : List Event) : Gtty :=
  events.foldl step (gttyDevControl gtty (.inputReady (BitVec.ofNat 32 limit)))

/-- The line discipline: the read delivers what was typed, and no NUL with it. -/
def DeliversLine (gtty : Gtty) (limit : Nat) (events : List Event) : Prop :=
  (gttyDevRead (afterRequest gtty limit events) (BitVec.ofNat 32 limit)).1 =
      (typedLine limit events).delivered ∧
    ∀ bytes ∈ (typedLine limit events).delivered, 0 ∉ bytes

/-! ## When an event goes wrong -/

/-- Whether a backspace key takes a character out of the buffer. -/
def echoes (gtty : Gtty) : Bool :=
  gtty.gttyEcho && gtty.ready && gtty.screen.displayMode = .txt

/-- A key does what it should. In a line that is complete, it must find the buffer
full or be one that is not stored, and must not rub out anything. Before that it is
neither NUL nor tab, and as a backspace it is echoed or finds nothing to remove. -/
def KeyIsServed (gtty : Gtty) (c : UInt8) : Prop :=
  if gtty.input.flag then
    if c = backspace then echoes gtty = false ∨ gtty.input.index = 0
    else endsLine c ∨ gtty.input.size ≤ gtty.input.index
  else c ≠ 0 ∧ c ≠ tab ∧ (c = backspace → echoes gtty ∨ gtty.input.index = 0)

instance (gtty : Gtty) (c : UInt8) : Decidable (KeyIsServed gtty c) := by
  unfold KeyIsServed
  infer_instance

/-- An event leaves the buffer with what was typed: a key is served, and what is
written as text has no backspace in it while there is input to remove. -/
def Undisturbed (gtty : Gtty) : Event → Prop
  | .key .regular c => KeyIsServed gtty c
  | .write bytes =>
      backspace ∈ bytes → gtty.screen.displayMode = .px ∨ gtty.input.index = 0
  | .key .special _ | .control _ => True

instance (gtty : Gtty) (event : Event) : Decidable (Undisturbed gtty event) :=
  match event with
  | .key .regular c => inferInstanceAs (Decidable (KeyIsServed gtty c))
  | .write _ => inferInstanceAs (Decidable (_ → _))
  | .key .special _ | .control _ => .isTrue trivial

/-! ## The buffer -/

namespace Input

@[simp] theorem length_contents (input : Input) : input.contents.length = input.index := by
  simp [contents]

theorem contents_store (input : Input) {c : UInt8} (notTab : c ≠ tab) :
    (input.store c).contents = input.contents ++ [c] := by
  have earlier : (List.range input.index).map (Function.update input.buffer input.index c) =
      (List.range input.index).map input.buffer := by
    apply List.map_congr_left
    intro place member
    exact Function.update_of_ne (Nat.ne_of_lt (List.mem_range.mp member)) c input.buffer
  simp only [contents, store, if_pos notTab, List.range_succ, List.map_append, earlier,
    List.map_cons, List.map_nil, Function.update_self]

theorem rubOut_of_empty {input : Input} (empty : input.index = 0) : input.rubOut = input := by
  rw [rubOut, if_neg]
  omega

theorem contents_rubOut (input : Input) : input.rubOut.contents = input.contents.dropLast := by
  cases last : input.index with
  | zero =>
      rw [rubOut_of_empty last]
      simp [contents, last]
  | succ index =>
      have earlier : (List.range index).map (Function.update input.buffer index 0) =
          (List.range index).map input.buffer := by
        apply List.map_congr_left
        intro place member
        exact Function.update_of_ne (Nat.ne_of_lt (List.mem_range.mp member)) 0 input.buffer
      simp only [contents, rubOut, last, Nat.le_add_left, if_true, Nat.add_sub_cancel, earlier,
        List.range_succ, List.map_append, List.map_cons, List.map_nil, List.dropLast_concat]

@[simp] theorem size_rubOut (input : Input) : input.rubOut.size = input.size := by
  unfold rubOut
  split <;> rfl

@[simp] theorem flag_rubOut (input : Input) : input.rubOut.flag = input.flag := by
  unfold rubOut
  split <;> rfl

end Input

/-! ## What writing does to the input -/

section Write

variable (stepBack : Screen → Screen) (move : Screen → UInt8 → Screen) (wrap : Screen → Screen)

theorem input_put (gtty : Gtty) (c : UInt8) :
    (put stepBack move wrap gtty c).input =
      if c = backspace then gtty.input.rubOut else gtty.input := by
  unfold put
  split
  · split
    case isTrue => rfl
    case isFalse nothing =>
      have empty : gtty.input.index = 0 := by omega
      exact (Input.rubOut_of_empty empty).symm
  · rfl

theorem input_foldl_put (bytes : List UInt8) {gtty : Gtty}
    (harmless : backspace ∈ bytes → gtty.input.index = 0) :
    (bytes.foldl (put stepBack move wrap) gtty).input = gtty.input := by
  induction bytes generalizing gtty with
  | nil => rfl
  | cons c bytes induction =>
      have first : (put stepBack move wrap gtty c).input = gtty.input := by
        rw [input_put]
        split
        case isTrue isBackspace =>
          exact Input.rubOut_of_empty (harmless (by simp [isBackspace]))
        case isFalse => rfl
      rw [List.foldl_cons, induction, first]
      intro later
      rw [first]
      exact harmless (List.mem_cons_of_mem c later)

end Write

theorem input_gttyDevWrite {gtty : Gtty} {bytes : List UInt8}
    (harmless : backspace ∈ bytes → gtty.screen.displayMode = .px ∨ gtty.input.index = 0) :
    (gttyDevWrite gtty bytes).input = gtty.input := by
  unfold gttyDevWrite gttyWriteVesa gttyWriteVga
  cases mode : gtty.screen.displayMode with
  | px => split <;> rfl
  | txt =>
      have empty : backspace ∈ bytes → gtty.input.index = 0 := by
        intro member
        exact (harmless member).resolve_left (by simp [mode])
      split <;> exact input_foldl_put _ _ _ bytes empty

theorem input_kputchar (gtty : Gtty) (c : UInt8) :
    (kputchar gtty c).input =
      if c = backspace ∧ gtty.ready ∧ gtty.screen.displayMode = .txt then gtty.input.rubOut
      else gtty.input := by
  unfold kputchar
  split
  case isTrue ready =>
    by_cases rubs : c = backspace ∧ gtty.screen.displayMode = .txt
    · rw [if_pos ⟨rubs.1, ready, rubs.2⟩]
      unfold gttyDevWrite gttyWriteVesa gttyWriteVga
      rw [rubs.2, rubs.1]
      split
      · exact (input_put Vesa.stepBack Vesa.move Vesa.wrap gtty backspace).trans (if_pos rfl)
      · exact (input_put Vga.stepBack Vga.move Vga.wrap gtty backspace).trans (if_pos rfl)
    · rw [if_neg fun all => rubs ⟨all.1, all.2.2⟩]
      apply input_gttyDevWrite
      intro member
      left
      cases mode : gtty.screen.displayMode with
      | px => rfl
      | txt => exact absurd ⟨(List.mem_singleton.mp member).symm, mode⟩ rubs
  case isFalse notReady =>
    rw [if_neg fun all => notReady all.2.1]

theorem input_gttyKeyboardListener (gtty : Gtty) (c : UInt8) :
    (gttyKeyboardListener gtty .regular c).input =
      if c = backspace ∧ echoes gtty then (gtty.input.listen c).rubOut
      else gtty.input.listen c := by
  have noEnd : c = backspace → endsLine c = false := by
    intro isBackspace
    rw [isBackspace]
    decide
  unfold gttyKeyboardListener
  simp only
  split
  case isTrue echoed =>
    rw [input_kputchar]
    simp only [echoes, echoed.1, Bool.true_and, Bool.and_eq_true, decide_eq_true_eq]
  case isFalse notEchoed =>
    rw [if_neg]
    intro both
    have echo : gtty.gttyEcho = true := by
      have all := both.2
      simp only [echoes, Bool.and_eq_true] at all
      exact all.1.1
    exact notEchoed ⟨echo, by simp [noEnd both.1]⟩

/-! ## The buffer follows the line -/

/-- The input buffer holds the line. -/
structure Holds (limit : Nat) (gtty : Gtty) (line : Line) : Prop where
  size : gtty.input.size = limit
  flag : gtty.input.flag = line.complete
  contents : gtty.input.contents = line.typed
  noNul : 0 ∉ line.typed
  room : line.complete = false → line.typed.length < limit

namespace Holds

variable {limit : Nat} {gtty : Gtty} {line : Line} (holds : Holds limit gtty line)
include holds

theorem index : gtty.input.index = line.typed.length := by
  rw [← holds.contents, Input.length_contents]

/-- Nothing but the input matters. -/
theorem of_input {next : Gtty} (same : next.input = gtty.input) : Holds limit next line where
  size := by rw [same, holds.size]
  flag := by rw [same, holds.flag]
  contents := by rw [same, holds.contents]
  noNul := holds.noNul
  room := holds.room

theorem listen_complete {c : UInt8} (complete : line.complete = true)
    (unstored : c = backspace ∨ endsLine c ∨ gtty.input.size ≤ gtty.input.index) :
    gtty.input.listen c = gtty.input := by
  have flagged : gtty.input = { gtty.input with flag := true } := by
    rw [← complete, ← holds.flag]
  have first : (if endsLine c then { gtty.input with flag := true } else gtty.input) =
      gtty.input := by
    split
    · exact flagged.symm
    · rfl
  have skipped : ¬((gtty.input.index : Int) < gtty.input.size ∧ c ≠ backspace ∧
      ¬endsLine c = true) := by
    intro stored
    rcases unstored with isBackspace | ends | full
    · exact stored.2.1 isBackspace
    · exact stored.2.2 ends
    · omega
  unfold Input.listen
  simp only [first, if_neg skipped]
  split
  · exact flagged.symm
  · rfl

theorem key_complete {c : UInt8} (complete : line.complete = true)
    (served : KeyIsServed gtty c) :
    Holds limit (gttyKeyboardListener gtty .regular c) (line.press limit c) := by
  have kept : line.press limit c = line := by rw [Line.press, if_pos complete]
  rw [kept]
  apply holds.of_input
  rw [KeyIsServed, holds.flag, if_pos complete] at served
  rw [input_gttyKeyboardListener]
  by_cases isBackspace : c = backspace
  · rw [if_pos isBackspace] at served
    rw [holds.listen_complete complete (.inl isBackspace)]
    split
    case isTrue rubs =>
      rcases served with silent | empty
      · rw [rubs.2] at silent
        cases silent
      · exact Input.rubOut_of_empty empty
    case isFalse => rfl
  · rw [if_neg isBackspace] at served
    rw [if_neg fun both => isBackspace both.1]
    exact holds.listen_complete complete (.inr served)

section Incomplete

variable (incomplete : line.complete = false)
include incomplete

theorem not_full : ¬gtty.input.size ≤ gtty.input.index := by
  have room := holds.room incomplete
  rw [holds.size, holds.index]
  omega

omit incomplete in
theorem key_end {c : UInt8} (ends : endsLine c = true) :
    Holds limit (gttyKeyboardListener gtty .regular c) { line with complete := true } := by
  have different : ¬(c = backspace ∧ echoes gtty = true) := by
    intro both
    rw [both.1] at ends
    revert ends
    decide
  have entered : (gttyKeyboardListener gtty .regular c).input =
      { gtty.input with flag := true } := by
    rw [input_gttyKeyboardListener, if_neg different, Input.listen]
    simp only [ends, if_true, not_true, and_false, if_false, ite_self]
  constructor
  · rw [entered, ← holds.size]
  · rw [entered]
  · rw [← holds.contents, entered]
    rfl
  · exact holds.noNul
  · intro absurdity
    cases absurdity

theorem key_backspace (served : echoes gtty = true ∨ gtty.input.index = 0) :
    Holds limit (gttyKeyboardListener gtty .regular backspace)
      { line with typed := line.typed.dropLast } := by
  have unchanged : gtty.input.listen backspace = gtty.input := by
    have noEnd : endsLine backspace = false := by decide
    rw [Input.listen]
    simp only [noEnd, ne_eq, not_true, false_and, and_false, if_false, Bool.false_eq_true,
      if_neg (holds.not_full incomplete)]
  have entered : (gttyKeyboardListener gtty .regular backspace).input = gtty.input.rubOut := by
    rw [input_gttyKeyboardListener, unchanged]
    split
    case isTrue => rfl
    case isFalse silent =>
      have empty := served.resolve_left fun echo => silent ⟨rfl, echo⟩
      exact (Input.rubOut_of_empty empty).symm
  constructor
  · rw [entered, Input.size_rubOut, holds.size]
  · rw [entered, Input.flag_rubOut, holds.flag]
  · rw [entered, Input.contents_rubOut, holds.contents]
  · exact fun member => holds.noNul (line.typed.dropLast_subset member)
  · intro _
    have room := holds.room incomplete
    rw [List.length_dropLast]
    omega

theorem key_plain {c : UInt8} (noEnd : endsLine c = false) (notBackspace : c ≠ backspace)
    (notNul : c ≠ 0) (notTab : c ≠ tab) :
    Holds limit (gttyKeyboardListener gtty .regular c)
      ⟨line.typed ++ [c], limit ≤ line.typed.length + 1⟩ := by
  have notFull := holds.not_full incomplete
  have stored : (gtty.input.index : Int) < gtty.input.size ∧ c ≠ backspace ∧
      ¬endsLine c = true := ⟨by omega, notBackspace, by simp [noEnd]⟩
  have index : (gtty.input.store c).index = line.typed.length + 1 := by
    rw [Input.store, if_pos notTab, holds.index]
  have entered : (gttyKeyboardListener gtty .regular c).input =
      { gtty.input.store c with flag := decide (limit ≤ line.typed.length + 1) } := by
    rw [input_gttyKeyboardListener, if_neg fun both => notBackspace both.1, Input.listen]
    simp only [noEnd, Bool.false_eq_true, if_false]
    rw [noEnd] at stored
    simp only [Bool.false_eq_true] at stored
    rw [if_pos stored]
    have size : (gtty.input.store c).size = limit := holds.size
    have flag : (gtty.input.store c).flag = false := holds.flag.trans incomplete
    rw [size, index]
    split
    case isTrue full =>
      have reached : limit ≤ line.typed.length + 1 := by omega
      rw [decide_eq_true reached]
    case isFalse notFull =>
      have below : ¬limit ≤ line.typed.length + 1 := by omega
      rw [decide_eq_false below, ← flag, ← index, ← size]
  constructor
  · rw [entered, ← holds.size]
    rfl
  · rw [entered]
  · rw [entered]
    exact (gtty.input.contents_store notTab).trans (by rw [holds.contents])
  · simp only [List.mem_append, List.mem_singleton, not_or]
    exact ⟨holds.noNul, notNul.symm⟩
  · intro below
    simpa using below

theorem key_incomplete {c : UInt8} (served : KeyIsServed gtty c) :
    Holds limit (gttyKeyboardListener gtty .regular c) (line.press limit c) := by
  rw [KeyIsServed, holds.flag, incomplete, if_neg (by decide)] at served
  rw [Line.press, incomplete, if_neg (by decide)]
  split
  case isTrue ends => exact holds.key_end ends
  case isFalse noEnd =>
    split
    case isTrue isBackspace =>
      subst isBackspace
      have rubbed := holds.key_backspace incomplete (served.2.2 rfl)
      rwa [incomplete] at rubbed
    case isFalse notBackspace =>
      exact holds.key_plain incomplete (by simpa using noEnd) notBackspace served.1 served.2.1

end Incomplete

theorem step (positive : 1 ≤ limit) {event : Event} (undisturbed : Undisturbed gtty event) :
    Holds limit (Terminal.step gtty event) (line.advance limit event) := by
  match event with
  | .key .regular c =>
      cases complete : line.complete with
      | true => exact holds.key_complete complete undisturbed
      | false => exact holds.key_incomplete complete undisturbed
  | .key .special _ => exact holds
  | .write bytes => exact holds.of_input (input_gttyDevWrite undisturbed)
  | .control command =>
      apply holds.of_input
      have requested : gtty.input.size ≠ 0 := by
        rw [holds.size]
        omega
      cases command with
      | setMode mode =>
          simp only [Terminal.step, gttyDevControl]
          split <;> rfl
      | clear =>
          simp only [Terminal.step, gttyDevControl]
          split <;> rfl
      | echoEnable => rfl
      | echoDisable => rfl
      | inputReady size => simp only [Terminal.step, gttyDevControl, if_neg requested]

end Holds

/-! ## Whole lines -/

/-- Without a pending request there is no input, whatever has happened before. -/
def Quiet (gtty : Gtty) : Prop := gtty.input.size ≤ 0 → gtty.input.index = 0

theorem quiet_listen {input : Input} (quiet : input.size ≤ 0 → input.index = 0) (c : UInt8)
    (unrequested : (input.listen c).size ≤ 0) : (input.listen c).index = 0 := by
  have size : (input.listen c).size = input.size := by
    unfold Input.listen
    simp only
    split <;> split <;> split <;> rfl
  rw [size] at unrequested
  have empty := quiet unrequested
  -- With no room nothing is stored, with or without the flag.
  have unstored : ∀ other : Input, other.size = input.size → other.index = input.index →
      ¬((other.index : Int) < other.size ∧ c ≠ backspace ∧ ¬endsLine c = true) := by
    intro other sameSize sameIndex stored
    omega
  unfold Input.listen
  simp only
  split
  · rw [if_neg (unstored _ rfl rfl)]
    split <;> exact empty
  · rw [if_neg (unstored _ rfl rfl)]
    split <;> exact empty

theorem quiet_of_rubbedOut {input : Input} (quiet : input.size ≤ 0 → input.index = 0)
    (unrequested : input.rubOut.size ≤ 0) : input.rubOut.index = 0 := by
  rw [Input.size_rubOut] at unrequested
  rw [Input.rubOut_of_empty (quiet unrequested)]
  exact quiet unrequested

theorem quiet_write {gtty : Gtty} (quiet : Quiet gtty) (bytes : List UInt8) :
    Quiet (gttyDevWrite gtty bytes) := by
  have puts : ∀ (stepBack : Screen → Screen) (move : Screen → UInt8 → Screen)
      (wrap : Screen → Screen), Quiet (bytes.foldl (put stepBack move wrap) gtty) := by
    intro stepBack move wrap
    induction bytes generalizing gtty with
    | nil => exact quiet
    | cons c bytes induction =>
        apply induction
        unfold Quiet
        rw [input_put]
        split
        · exact quiet_of_rubbedOut quiet
        · exact quiet
  unfold gttyDevWrite gttyWriteVesa gttyWriteVga
  split
  · split
    · exact quiet
    · exact puts Vesa.stepBack Vesa.move Vesa.wrap
  · split
    · exact quiet
    · exact puts Vga.stepBack Vga.move Vga.wrap

theorem quiet_act {gtty : Gtty} (quiet : Quiet gtty) (activity : Activity) :
    Quiet (act gtty activity) := by
  match activity with
  | .event (.key .regular c) =>
      have listened := quiet_listen quiet c
      simp only [Quiet, act, Terminal.step, input_gttyKeyboardListener]
      split
      · exact quiet_of_rubbedOut listened
      · exact listened
  | .event (.key .special _) => exact quiet
  | .event (.write bytes) => exact quiet_write quiet bytes
  | .event (.control command) =>
      cases command with
      | setMode mode =>
          simp only [act, Terminal.step, gttyDevControl]
          split <;> exact quiet
      | clear =>
          simp only [act, Terminal.step, gttyDevControl]
          split <;> exact quiet
      | echoEnable => exact quiet
      | echoDisable => exact quiet
      | inputReady size =>
          simp only [act, Terminal.step, gttyDevControl]
          split
          case isTrue free => exact fun _ => quiet (Int.le_of_eq free)
          case isFalse => exact quiet
  | .read size =>
      simp only [act, gttyDevRead]
      split
      · exact fun _ => rfl
      · exact quiet

theorem quiet_of_initialised {boot : Gtty} (initialised : Initialised boot)
    (activities : List Activity) : Quiet (activities.foldl act boot) := by
  have start : Quiet boot := fun _ => initialised.index
  clear initialised
  induction activities generalizing boot with
  | nil => exact start
  | cons activity activities induction => exact induction (quiet_act start activity)

/-- Every event of the list is undisturbed where it happens. -/
def UndisturbedRun (gtty : Gtty) (events : List Event) : Prop :=
  Admissible (fun gtty event => some (step gtty event)) Undisturbed gtty events

instance (gtty : Gtty) (events : List Event) : Decidable (UndisturbedRun gtty events) :=
  inferInstanceAs (Decidable (Admissible _ _ _ _))

theorem Holds.run {limit : Nat} (positive : 1 ≤ limit) {events : List Event} {gtty : Gtty}
    {line : Line} (holds : Holds limit gtty line) (undisturbed : UndisturbedRun gtty events) :
    Holds limit (events.foldl Terminal.step gtty) (events.foldl (Line.advance limit) line) := by
  induction events generalizing gtty line with
  | nil => exact holds
  | cons event events induction =>
      apply induction (holds.step positive undisturbed.1)
      exact undisturbed.2 _ rfl

theorem toInt_ofNat_limit {limit : Nat} (small : limit ≤ gttyInputBufferLen) :
    (BitVec.ofNat 32 limit).toInt = limit := by
  have bound : limit ≤ 1024 := small
  have value : (BitVec.ofNat 32 limit).toNat = limit := by
    rw [BitVec.toNat_ofNat, Nat.mod_eq_of_lt]
    omega
  rw [BitVec.toInt_eq_toNat_of_lt, value]
  rw [value]
  omega

theorem holds_request {gtty : Gtty} (quiet : Quiet gtty) (free : gtty.input.size = 0)
    {limit : Nat} (positive : 1 ≤ limit) (small : limit ≤ gttyInputBufferLen) :
    Holds limit (gttyDevControl gtty (.inputReady (BitVec.ofNat 32 limit))) .empty := by
  have empty : gtty.input.contents = [] := by
    rw [Input.contents, quiet (Int.le_of_eq free)]
    rfl
  have requested : gttyDevControl gtty (.inputReady (BitVec.ofNat 32 limit)) =
      { gtty with input := { gtty.input with size := limit, flag := false } } := by
    rw [gttyDevControl, if_pos free, toInt_ofNat_limit small]
  rw [requested]
  exact ⟨rfl, rfl, empty, List.not_mem_nil, fun _ => positive⟩

theorem Holds.delivers {limit : Nat} (small : limit ≤ gttyInputBufferLen) {gtty : Gtty}
    {line : Line} (holds : Holds limit gtty line) :
    (gttyDevRead gtty (BitVec.ofNat 32 limit)).1 = line.delivered := by
  rw [gttyDevRead, toInt_ofNat_limit small, holds.size, holds.flag, Line.delivered]
  cases line.complete with
  | true => simp [holds.contents]
  | false => simp

/-- In every run without a disturbance the read delivers the line that was typed:
from any terminal with no request pending, for any number of characters and any
keys and output between the request and the read. -/
theorem deliversLine_of_undisturbed {boot : Gtty} (initialised : Initialised boot)
    (activities : List Activity) (free : (activities.foldl act boot).input.size = 0)
    {limit : Nat} (positive : 1 ≤ limit) (small : limit ≤ 1024) (events : List Event)
    (undisturbed : UndisturbedRun
      (gttyDevControl (activities.foldl act boot) (.inputReady (BitVec.ofNat 32 limit))) events) :
    DeliversLine (activities.foldl act boot) limit events := by
  have quiet := quiet_of_initialised initialised activities
  have holds := (holds_request quiet free positive small).run positive undisturbed
  constructor
  · exact holds.delivers small
  · intro bytes delivered
    have typed : bytes = (typedLine limit events).typed := by
      rw [Line.delivered] at delivered
      split at delivered
      · exact (Option.mem_some.mp delivered).symm
      · cases delivered
    rw [typed]
    exact holds.noNul

/-- A text terminal as `initialise_gtty` leaves it. -/
def textTerminal : Gtty where
  input := ⟨fun _ => 0, 0, 0, false⟩
  screen := ⟨.vga, .txt, 80, 25, 0, 0⟩
  gttyEcho := false
  ready := true

/-- With echo on, a backspace takes back what was mistyped. -/
theorem deliversLine_of_undisturbed_mistyped :
    DeliversLine textTerminal 8 [.control .echoEnable, .key .regular 97, .key .regular 98,
      .key .regular backspace, .write [62], .key .regular newline] :=
  deliversLine_of_undisturbed ⟨rfl, rfl, rfl⟩ [] rfl (by decide) (by decide) _ (by decide)

/-- A tab is read with three NULs behind it, a backspace without echo removes nothing,
and one that a program writes removes what was typed. -/
theorem not_deliversLine :
    ¬DeliversLine textTerminal 8 [.key .regular tab, .key .regular newline] ∧
      ¬DeliversLine textTerminal 8
        [.key .regular 97, .key .regular backspace, .key .regular newline] ∧
      ¬DeliversLine textTerminal 8
        [.key .regular 97, .write [backspace], .key .regular newline] := by
  constructor
  · intro delivers
    exact absurd delivers.1 (by decide)
  · constructor
    · intro delivers
      exact absurd delivers.1 (by decide)
    · intro delivers
      exact absurd delivers.1 (by decide)

end Dbos.Terminal
