import Mathlib.Tactic.Ring
import Dbos.Drivers.Gtty.LineInput

/-! # The text cursor

Where the cursor goes when text is written, and where characters are drawn. On a VGA display
everything stays on the screen. On a VESA display a backspace at the left margin leaves the
text area, and a byte above 127 is the index of no glyph. -/

namespace Dbos.Terminal

open Dbos.Execution

/-- What happens to a terminal that shows text. The input buffer may be anything at any time. -/
inductive TextEvent where
  | byte (c : UInt8)
  | input (input : Input)
  | clear

/-- A display of this type and size that shows text. -/
def IsTextScreen (type : DisplayType) (width height : Int) (screen : Screen) : Prop :=
  screen.displayType = type ∧ screen.displayMode = .txt ∧ screen.bufferWidth = width ∧
    screen.bufferHeight = height

/-! ## VGA -/

namespace Vga

def gttyXyToLocation (screen : Screen) : Nat :=
  ((screen.mainX + screen.mainY * screen.bufferWidth) % 2 ^ 32).toNat

/-- Where the four spaces of a tab are written. -/
def tabScreens (screen : Screen) : List Screen :=
  [screen, space screen, space (space screen), space (space (space screen))]

/-- The cells that `gtty_write_vga` writes for a byte. -/
def cells (gtty : Gtty) (c : UInt8) : List Nat :=
  if c = backspace then
    if 1 ≤ gtty.input.index then [gttyXyToLocation (stepBack gtty.screen)] else []
  else if c = newline then []
  else if c = tab then (tabScreens gtty.screen).map gttyXyToLocation
  else if c = carriageReturn then []
  else [gttyXyToLocation gtty.screen]

def textStep (gtty : Gtty) : TextEvent → Gtty
  | .byte c => gttyWriteVga gtty [c]
  | .input input => { gtty with input }
  | .clear => gttyDevControl gtty .clear

/-- The cursor is on a screen of this size. -/
structure OnScreen (width height : Int) (screen : Screen) : Prop where
  text : IsTextScreen .vga width height screen
  x : 0 ≤ screen.mainX ∧ screen.mainX < width
  y : 0 ≤ screen.mainY ∧ screen.mainY < height

section OnScreen

variable {width height : Int} {screen : Screen}

theorem OnScreen.location_lt (onScreen : OnScreen width height screen) :
    (gttyXyToLocation screen : Int) < width * height := by
  have x := onScreen.x
  have y := onScreen.y
  have isWidth := onScreen.text.2.2.1
  have rows : screen.mainY * width ≤ (height - 1) * width := by
    apply Int.mul_le_mul_of_nonneg_right
    · omega
    · omega
  have expanded : (height - 1) * width = width * height - width := by ring
  have notNegative : 0 ≤ screen.mainY * width := Int.mul_nonneg y.1 (by omega)
  unfold gttyXyToLocation
  rw [isWidth]
  generalize screen.mainY * width = start at rows notNegative ⊢
  omega

theorem OnScreen.stepBack (onScreen : OnScreen width height screen) :
    OnScreen width height (stepBack screen) := by
  have x := onScreen.x
  have y := onScreen.y
  have isWidth := onScreen.text.2.2.1
  unfold Vga.stepBack
  split
  · refine ⟨onScreen.text, ?_, y⟩
    simp only
    omega
  · split
    · refine ⟨onScreen.text, ?_, ?_⟩
      · simp only
        omega
      · simp only
        omega
    · exact onScreen

theorem OnScreen.moveTo (onScreen : OnScreen width height screen) (newX newY : Int)
    (x : 0 ≤ newX ∧ newX ≤ width) (y : 0 ≤ newY ∧ newY ≤ height)
    (one : newX < width ∨ newY < height) :
    OnScreen width height (wrap { screen with mainX := newX, mainY := newY }) := by
  have oldX := onScreen.x
  have oldY := onScreen.y
  rcases onScreen.text with ⟨isVga, isText, rfl, rfl⟩
  unfold wrap
  simp only
  by_cases right : screen.bufferWidth - 1 < newX
  · simp only [right, if_true]
    split
    · exact ⟨⟨isVga, isText, rfl, rfl⟩, by simp only; omega, by simp only; omega⟩
    · exact ⟨⟨isVga, isText, rfl, rfl⟩, by simp only; omega, by simp only; omega⟩
  · simp only [right, if_false]
    split
    · exact ⟨⟨isVga, isText, rfl, rfl⟩, by simp only; omega, by simp only; omega⟩
    · exact ⟨⟨isVga, isText, rfl, rfl⟩, by simp only; omega, by simp only; omega⟩

theorem OnScreen.wrap (onScreen : OnScreen width height screen) :
    OnScreen width height (wrap screen) := by
  have x := onScreen.x
  have y := onScreen.y
  exact onScreen.moveTo screen.mainX screen.mainY (by omega) (by omega) (by omega)

theorem OnScreen.space (onScreen : OnScreen width height screen) :
    OnScreen width height (space screen) := by
  have x := onScreen.x
  have y := onScreen.y
  exact onScreen.moveTo (screen.mainX + 1) screen.mainY (by omega) (by omega) (by omega)

theorem OnScreen.tabScreens (onScreen : OnScreen width height screen) :
    ∀ shown ∈ tabScreens screen, OnScreen width height shown := by
  intro shown member
  simp only [Vga.tabScreens, List.mem_cons, List.not_mem_nil, or_false] at member
  rcases member with rfl | rfl | rfl | rfl
  · exact onScreen
  · exact onScreen.space
  · exact onScreen.space.space
  · exact onScreen.space.space.space

theorem OnScreen.move (onScreen : OnScreen width height screen) (c : UInt8) :
    OnScreen width height (Vga.wrap (move screen c)) := by
  have x := onScreen.x
  have y := onScreen.y
  unfold Vga.move
  split
  · exact onScreen.moveTo 0 (screen.mainY + 1) (by omega) (by omega) (by omega)
  · split
    · exact onScreen.space.space.space.space.wrap
    · split
      · exact onScreen.moveTo 0 screen.mainY (by omega) (by omega) (by omega)
      · exact onScreen.moveTo (screen.mainX + 1) screen.mainY (by omega) (by omega) (by omega)

end OnScreen

theorem OnScreen.textStep {width height : Int} {gtty : Gtty}
    (onScreen : OnScreen width height gtty.screen) (event : TextEvent) :
    OnScreen width height (textStep gtty event).screen := by
  cases event with
  | byte c =>
      have isText : gtty.screen.displayMode = .txt := onScreen.text.2.1
      simp only [Vga.textStep, gttyWriteVga, isText, List.foldl_cons, List.foldl_nil]
      unfold put
      split
      · split
        · exact onScreen.stepBack.wrap
        · exact onScreen.wrap
      · exact onScreen.move c
  | input input => exact onScreen
  | clear =>
      have x := onScreen.x
      have y := onScreen.y
      have isVga : gtty.screen.displayType = .vga := onScreen.text.1
      simp only [Vga.textStep, gttyDevControl, isVga]
      exact ⟨isVga ▸ onScreen.text, by simp only; omega, by simp only; omega⟩

theorem OnScreen.cells_lt {width height : Int} {gtty : Gtty}
    (onScreen : OnScreen width height gtty.screen) (c : UInt8) :
    ∀ cell ∈ cells gtty c, (cell : Int) < width * height := by
  intro cell member
  unfold cells at member
  split at member
  · split at member
    · rw [List.mem_singleton] at member
      rw [member]
      exact onScreen.stepBack.location_lt
    · cases member
  · split at member
    · cases member
    · split at member
      · rcases List.mem_map.mp member with ⟨shown, isShown, rfl⟩
        exact (onScreen.tabScreens shown isShown).location_lt
      · split at member
        · cases member
        · rw [List.mem_singleton] at member
          rw [member]
          exact onScreen.location_lt

/-- On a VGA display of any size, after any text with any clearing in between and whatever
the input buffer is: the next byte leaves the cursor on the screen, and the cells that are
written for it are cells of the screen. -/
theorem cursor_onScreen {width height : Int} {gtty : Gtty}
    (onScreen : OnScreen width height gtty.screen) (events : List TextEvent) (c : UInt8) :
    OnScreen width height (textStep (events.foldl textStep gtty) (.byte c)).screen ∧
      ∀ cell ∈ cells (events.foldl textStep gtty) c, (cell : Int) < width * height := by
  have before : OnScreen width height (events.foldl textStep gtty).screen := by
    induction events generalizing gtty with
    | nil => exact onScreen
    | cons event events induction => exact induction (onScreen.textStep event)
  exact ⟨before.textStep (.byte c), before.cells_lt c⟩

/-- Two columns before the end of the last row. -/
def nearTheEnd : Gtty := { textTerminal with screen := ⟨.vga, .txt, 80, 25, 78, 24⟩ }

/-- A tab that does not fit in the line scrolls the screen. -/
theorem cursor_onScreen_tab :
    OnScreen 80 25 (textStep nearTheEnd (.byte tab)).screen ∧
      ∀ cell ∈ cells nearTheEnd tab, (cell : Int) < 80 * 25 := by
  have onScreen : OnScreen 80 25 nearTheEnd.screen :=
    ⟨⟨rfl, rfl, rfl, rfl⟩, by decide, by decide⟩
  exact cursor_onScreen onScreen [] tab

end Vga

/-! ## VESA -/

namespace Vesa

/-- The resolutions that `initialise_vesa` accepts. -/
def resolutions : List (Int × Int) :=
  [(1920, 1080), (1280, 1024), (1024, 768), (800, 600), (640, 480), (320, 200)]

/-- The number of entries of `font16`. -/
def fontLength : Int := 128

/-- A call of `gtty_vesa_draw_char`: the corner of the glyph, and its index in `font16`. -/
structure Glyph where
  x : Int
  y : Int
  index : Int
deriving DecidableEq, Repr

/-- A `char` is signed. -/
def gttyVesaDrawChar (screen : Screen) (c : UInt8) : Glyph :=
  ⟨screen.mainX, screen.mainY, c.toBitVec.toInt⟩

/-- `' '`. -/
def blank : UInt8 := 32

/-- Where the four spaces of a tab are drawn. -/
def tabScreens (screen : Screen) : List Screen :=
  [screen, space screen, space (space screen), space (space (space screen))]

/-- The characters that `gtty_write_vesa` draws for a byte. The cursor is not one of them. -/
def glyphs (gtty : Gtty) (c : UInt8) : List Glyph :=
  if c = backspace then
    if 1 ≤ gtty.input.index then [gttyVesaDrawChar (stepBack gtty.screen) blank] else []
  else if c = newline then []
  else if c = tab then (tabScreens gtty.screen).map fun screen => gttyVesaDrawChar screen blank
  else if c = carriageReturn then []
  else [gttyVesaDrawChar gtty.screen c]

def textStep (gtty : Gtty) : TextEvent → Gtty
  | .byte c => gttyWriteVesa gtty [c]
  | .input input => { gtty with input }
  | .clear => gttyDevControl gtty .clear

/-- The places where a character fits in the text area. -/
def InTextArea (width height x y : Int) : Prop :=
  marginX ≤ x ∧ x ≤ width - marginX - lineWidth ∧
    marginYTop ≤ y ∧ y ≤ height - (marginYBottom + lineHeight)

/-- A byte leaves the cursor in the text area, and what is drawn for it is a glyph of the
font in the text area. -/
def Contained (width height : Int) (gtty : Gtty) : TextEvent → Prop
  | .byte c =>
      InTextArea width height (textStep gtty (.byte c)).screen.mainX
          (textStep gtty (.byte c)).screen.mainY ∧
        ∀ glyph ∈ glyphs gtty c, InTextArea width height glyph.x glyph.y ∧
          0 ≤ glyph.index ∧ glyph.index < fontLength
  | .input _ | .clear => True

/-- The byte is an ASCII character, and a backspace is not written at the left margin while
there is input to remove. -/
def Harmless (gtty : Gtty) : TextEvent → Prop
  | .byte c => c < 128 ∧ (c = backspace → gtty.input.index = 0 ∨ gtty.screen.mainX ≠ marginX)
  | .input _ | .clear => True

instance (gtty : Gtty) (event : TextEvent) : Decidable (Harmless gtty event) :=
  match event with
  | .byte _ => inferInstanceAs (Decidable (_ ∧ (_ → _)))
  | .input _ | .clear => .isTrue trivial

/-- The cursor is in the text area, at a multiple of the width of a character. -/
structure InText (width height : Int) (screen : Screen) : Prop where
  text : IsTextScreen .vesa width height screen
  size : width % 8 = 0 ∧ 24 ≤ width ∧ 68 ≤ height
  x : 8 ≤ screen.mainX ∧ screen.mainX ≤ width - 16 ∧ screen.mainX % 8 = 0
  y : 44 ≤ screen.mainY ∧ screen.mainY ≤ height - 24

section InText

variable {width height : Int} {screen : Screen}

theorem InText.inTextArea (inText : InText width height screen) :
    InTextArea width height screen.mainX screen.mainY := by
  have x := inText.x
  have y := inText.y
  unfold InTextArea marginX lineWidth marginYTop marginYBottom lineHeight
  omega

/-- The two checks at the end of each round bring the cursor back if it has left by one
character to the right or downwards. -/
theorem InText.moveTo (inText : InText width height screen) (newX newY : Int)
    (x : 8 ≤ newX ∧ newX ≤ width - 8 ∧ newX % 8 = 0) (y : 44 ≤ newY) :
    InText width height (wrap { screen with mainX := newX, mainY := newY }) := by
  have size := inText.size
  rcases inText.text with ⟨isVesa, isText, rfl, rfl⟩
  unfold wrap marginX marginYBottom lineHeight
  simp only
  by_cases right : screen.bufferWidth - 8 - 1 < newX
  · simp only [right, if_true]
    split
    · exact ⟨⟨isVesa, isText, rfl, rfl⟩, size, by simp only; omega, by simp only; omega⟩
    · exact ⟨⟨isVesa, isText, rfl, rfl⟩, size, by simp only; omega, by simp only; omega⟩
  · simp only [right, if_false]
    split
    · exact ⟨⟨isVesa, isText, rfl, rfl⟩, size, by simp only; omega, by simp only; omega⟩
    · exact ⟨⟨isVesa, isText, rfl, rfl⟩, size, by simp only; omega, by simp only; omega⟩

theorem InText.wrap (inText : InText width height screen) :
    InText width height (wrap screen) := by
  have x := inText.x
  have y := inText.y
  exact inText.moveTo screen.mainX screen.mainY (by omega) (by omega)

theorem InText.space (inText : InText width height screen) :
    InText width height (space screen) := by
  have x := inText.x
  have y := inText.y
  exact inText.moveTo (screen.mainX + 8) screen.mainY (by omega) (by omega)

theorem InText.tabScreens (inText : InText width height screen) :
    ∀ shown ∈ tabScreens screen, InText width height shown := by
  intro shown member
  simp only [Vesa.tabScreens, List.mem_cons, List.not_mem_nil, or_false] at member
  rcases member with rfl | rfl | rfl | rfl
  · exact inText
  · exact inText.space
  · exact inText.space.space
  · exact inText.space.space.space

theorem InText.move (inText : InText width height screen) (c : UInt8) :
    InText width height (Vesa.wrap (move screen c)) := by
  have size := inText.size
  have x := inText.x
  have y := inText.y
  unfold Vesa.move
  split
  · exact inText.moveTo 8 (screen.mainY + 16) (by omega) (by omega)
  · split
    · exact inText.space.space.space.space.wrap
    · split
      · exact inText.moveTo 8 screen.mainY (by omega) (by omega)
      · exact inText.moveTo (screen.mainX + 8) screen.mainY (by omega) (by omega)

theorem InText.stepBack (inText : InText width height screen) (behind : screen.mainX ≠ marginX) :
    InText width height (stepBack screen) := by
  have x := inText.x
  unfold marginX at behind
  unfold Vesa.stepBack lineWidth
  rw [if_pos (by omega)]
  exact ⟨inText.text, inText.size, by simp only; omega, inText.y⟩

theorem stepBack_margin (isMargin : screen.mainX = marginX) :
    (stepBack screen).mainX = 0 := by
  unfold stepBack
  rw [isMargin, if_pos (by decide)]
  rfl

end InText

section Events

variable {width height : Int} {gtty : Gtty}

theorem InText.textStep (inText : InText width height gtty.screen) {event : TextEvent}
    (harmless : Harmless gtty event) : InText width height (textStep gtty event).screen := by
  cases event with
  | byte c =>
      have isText : gtty.screen.displayMode = .txt := inText.text.2.1
      simp only [Vesa.textStep, gttyWriteVesa, isText, List.foldl_cons, List.foldl_nil]
      unfold put
      split
      case isTrue isBackspace =>
        split
        case isTrue filled =>
          have behind : gtty.screen.mainX ≠ marginX := by
            apply (harmless.2 isBackspace).resolve_left
            omega
          exact (inText.stepBack behind).wrap
        case isFalse => exact inText.wrap
      case isFalse => exact inText.move c
  | input input => exact inText
  | clear =>
      have size := inText.size
      have isVesa : gtty.screen.displayType = .vesa := inText.text.1
      simp only [Vesa.textStep, gttyDevControl, isVesa, marginX, marginYTop]
      exact ⟨isVesa ▸ inText.text, size, by simp only; omega, by simp only; omega⟩

theorem toInt_bounds (c : UInt8) : 0 ≤ c.toBitVec.toInt ∧ c.toBitVec.toInt < fontLength ↔ c < 128 := by
  have bound := c.toNat_lt
  have value : c.toBitVec.toNat = c.toNat := rfl
  rw [UInt8.lt_iff_toNat_lt, BitVec.toInt_eq_toNat_cond, value]
  unfold fontLength
  have limit : (128 : UInt8).toNat = 128 := rfl
  rw [limit]
  split <;> omega

theorem drawn_iff {screen : Screen} (inText : InText width height screen) (c : UInt8) :
    (InTextArea width height (gttyVesaDrawChar screen c).x (gttyVesaDrawChar screen c).y ∧
      0 ≤ (gttyVesaDrawChar screen c).index ∧ (gttyVesaDrawChar screen c).index < fontLength) ↔
        c < 128 := by
  have area := inText.inTextArea
  constructor
  · intro drawn
    exact (toInt_bounds c).mp drawn.2
  · intro ascii
    exact ⟨area, (toInt_bounds c).mpr ascii⟩

theorem contained_iff (inText : InText width height gtty.screen) (event : TextEvent) :
    Harmless gtty event ↔ Contained width height gtty event := by
  cases event with
  | input input => exact Iff.rfl
  | clear => exact Iff.rfl
  | byte c =>
      constructor
      · intro harmless
        refine ⟨(inText.textStep harmless).inTextArea, ?_⟩
        intro glyph member
        unfold glyphs at member
        split at member
        case isTrue isBackspace =>
          split at member
          case isTrue filled =>
            have behind : gtty.screen.mainX ≠ marginX := by
              apply (harmless.2 isBackspace).resolve_left
              omega
            rw [List.mem_singleton] at member
            rw [member]
            exact (drawn_iff (inText.stepBack behind) blank).mpr (by decide)
          case isFalse => cases member
        case isFalse =>
          split at member
          · cases member
          · split at member
            · rcases List.mem_map.mp member with ⟨shown, isShown, rfl⟩
              exact (drawn_iff (inText.tabScreens shown isShown) blank).mpr (by decide)
            · split at member
              · cases member
              · rw [List.mem_singleton] at member
                rw [member]
                exact (drawn_iff inText c).mpr harmless.1
      · rintro ⟨-, drawn⟩
        constructor
        · by_contra notAscii
          -- Such a byte is an ordinary character, which is drawn.
          have isDrawn : gttyVesaDrawChar gtty.screen c ∈ glyphs gtty c := by
            have other : ∀ control : UInt8, control < 128 → c ≠ control := by
              rintro control small rfl
              exact notAscii small
            unfold glyphs
            rw [if_neg (other backspace (by decide)), if_neg (other newline (by decide)),
              if_neg (other tab (by decide)), if_neg (other carriageReturn (by decide))]
            exact List.mem_singleton_self _
          exact notAscii ((drawn_iff inText c).mp (drawn _ isDrawn))
        · intro isBackspace
          by_contra both
          rw [not_or, not_not] at both
          have isDrawn : gttyVesaDrawChar (stepBack gtty.screen) blank ∈ glyphs gtty c := by
            unfold glyphs
            rw [if_pos isBackspace, if_pos (by omega)]
            exact List.mem_singleton_self _
          have area := (drawn _ isDrawn).1.1
          simp only [gttyVesaDrawChar, stepBack_margin both.2, marginX] at area
          omega

end Events

theorem size_of_resolution {width height : Int} (supported : (width, height) ∈ resolutions) :
    width % 8 = 0 ∧ 24 ≤ width ∧ 68 ≤ height := by
  simp only [resolutions, List.mem_cons, Prod.mk.injEq, List.not_mem_nil, or_false] at supported
  omega

/-- At every supported resolution and for every text, with any clearing in between and
whatever the input buffer is: everything stays in the text area if and only if all bytes are
ASCII and no backspace is written at the left margin while there is input to remove. -/
theorem contained_iff_harmless {width height : Int} (supported : (width, height) ∈ resolutions)
    {gtty : Gtty} (text : IsTextScreen .vesa width height gtty.screen)
    (x : gtty.screen.mainX = marginX) (y : gtty.screen.mainY = marginYTop)
    (events : List TextEvent) :
    Admissible (fun gtty event => some (textStep gtty event)) (Contained width height) gtty events ↔
      Admissible (fun gtty event => some (textStep gtty event)) Harmless gtty events := by
  have size := size_of_resolution supported
  have inText : InText width height gtty.screen := by
    unfold marginX at x
    unfold marginYTop at y
    exact ⟨text, size, by omega, by omega⟩
  symm
  apply admissible_iff (fun gtty => InText width height gtty.screen)
  · intro gtty event inText
    exact contained_iff inText event
  · intro gtty event next inText harmless stepped
    cases stepped
    exact inText.textStep harmless
  · exact inText

/-- The smallest display, as `initialise_gtty` leaves it. -/
def smallDisplay : Gtty := { textTerminal with screen := ⟨.vesa, .txt, 320, 200, 8, 44⟩ }

def oneCharacter : Input := { textTerminal.input with index := 1 }

/-- A character is typed and taken back. -/
theorem contained_iff_harmless_typed :
    Admissible (fun gtty event => some (textStep gtty event)) (Contained 320 200) smallDisplay
        [.byte 65, .input oneCharacter, .byte backspace, .byte newline] ↔
      Admissible (fun gtty event => some (textStep gtty event)) Harmless smallDisplay
        [.byte 65, .input oneCharacter, .byte backspace, .byte newline] := by
  have text : IsTextScreen .vesa 320 200 smallDisplay.screen := ⟨rfl, rfl, rfl, rfl⟩
  exact contained_iff_harmless (by decide) text rfl rfl _

/-- With input in the buffer, a backspace at the left margin leaves the text area, the next
one draws over the top bar, and the byte 128 has no glyph. -/
theorem not_contained :
    ¬Admissible (fun gtty event => some (textStep gtty event)) (Contained 320 200) smallDisplay
        [.input oneCharacter, .byte backspace] ∧
      (⟨312, 28, 32⟩ : Glyph) ∈ glyphs
        ([.input oneCharacter, .byte backspace, .input oneCharacter].foldl textStep smallDisplay)
        backspace ∧
      ¬Admissible (fun gtty event => some (textStep gtty event)) (Contained 320 200) smallDisplay
        [.byte 128] := by
  refine ⟨?_, by decide, ?_⟩
  · rintro ⟨-, second⟩
    have area := (second _ rfl).1.1.1
    exact absurd area (by decide)
  · rintro ⟨⟨-, drawn⟩, -⟩
    have index := (drawn ⟨8, 44, -128⟩ (by decide)).2.1
    exact absurd index (by decide)

end Vesa

end Dbos.Terminal
