import Mathlib.Data.List.Basic
import Mathlib.Data.List.GetD
import Mathlib.Data.List.Induction

/-! # The keyboard

`parse_scancode` keeps flags for the keys that are held and for caps lock, and translates
the other keys by one of two maps. The codes for the right shift key are exchanged: the code
for its press is ignored, and the flag that the other one sets is not read. -/

namespace Dbos.Keyboard

/-! ## Constants -/

def kbdEsc : UInt8 := 0x01
def kbdF1 : UInt8 := 0x3B
def kbdF2 : UInt8 := 0x3C
def kbdF3 : UInt8 := 0x3D
def kbdF4 : UInt8 := 0x3E
def kbdF5 : UInt8 := 0x3F
def kbdF6 : UInt8 := 0x40
def kbdF7 : UInt8 := 0x41
def kbdF8 : UInt8 := 0x42
def kbdF9 : UInt8 := 0x43
def kbdF10 : UInt8 := 0x44
def kbdF11 : UInt8 := 0x57
def kbdF12 : UInt8 := 0x58
def kbdUp : UInt8 := 0x48
def kbdDown : UInt8 := 0x50
def kbdLeft : UInt8 := 0x4B
def kbdRight : UInt8 := 0x4D
def kbdCapslck : UInt8 := 0x3A
def kbdShiftL : UInt8 := 0x2A
def kbdCtrlL : UInt8 := 0x1D
def kbdAltL : UInt8 := 0x38
def kbdShiftR : UInt8 := 0xB6
def kbdShiftLrR : UInt8 := 0xAA
def kbdShiftRR : UInt8 := 0x36

def kbdMap : List UInt8 := [
  0, 0, 0x31, 0x32, 0x33, 0x34, 0x35, 0x36, 0x37, 0x38,
  0x39, 0x30, 0x2D, 0x3D, 0x08, 0x09, 0x71, 0x77, 0x65, 0x72,
  0x74, 0x79, 0x75, 0x69, 0x6F, 0x70, 0x5B, 0x5D, 0x0A, 0,
  0x61, 0x73, 0x64, 0x66, 0x67, 0x68, 0x6A, 0x6B, 0x6C, 0x3B,
  0x27, 0x60, 0, 0x23, 0x7A, 0x78, 0x63, 0x76, 0x62, 0x6E,
  0x6D, 0x2C, 0x2E, 0x2F, 0, 0, 0, 0x20, 0, 0,
  0, 0, 0, 0, 0, 0, 0, 0, 0, 0,
  0, 0, 0, 0, 0, 0, 0, 0, 0, 0,
  0, 0, 0, 0, 0, 0, 0, 0, 0x5C, 0,
  0, 0, 0, 0, 0, 0, 0, 0, 0, 0]

def kbdMapUp : List UInt8 := [
  0, 0, 0x21, 0x22, 0, 0x24, 0x25, 0x5E, 0x26, 0x2A,
  0x28, 0x29, 0x5F, 0x2B, 0x08, 0x09, 0x51, 0x57, 0x45, 0x52,
  0x54, 0x59, 0x55, 0x49, 0x4F, 0x50, 0x7B, 0x7D, 0x0A, 0,
  0x41, 0x53, 0x44, 0x46, 0x47, 0x48, 0x4A, 0x4B, 0x4C, 0x3A,
  0x40, 0, 0, 0x7E, 0x5A, 0x58, 0x43, 0x56, 0x42, 0x4E,
  0x4D, 0x3C, 0x3E, 0x3F, 0, 0, 0, 0x20, 0, 0,
  0, 0, 0, 0, 0, 0, 0, 0, 0, 0,
  0, 0, 0, 0, 0, 0, 0, 0, 0, 0,
  0, 0, 0, 0, 0, 0, 0, 0, 0x7C, 0,
  0, 0, 0, 0, 0, 0, 0, 0, 0, 0]

/-- The cases that do no more than serve the listeners. -/
def specialCodes : List UInt8 :=
  [kbdEsc, kbdF1, kbdF2, kbdF3, kbdF4, kbdF5, kbdF6, kbdF7, kbdF8, kbdF9, kbdF10, kbdF11, kbdF12,
    kbdUp, kbdDown, kbdLeft, kbdRight]

/-! ## The function -/

structure Flags where
  kbdLshift : Bool
  kbdRshift : Bool
  kbdLctrl : Bool
  kbdLalt : Bool
  kbdCaps : Bool

/-- The flags at first. -/
def Flags.initial : Flags := ⟨false, false, false, false, false⟩

/-- The type of what the listeners are served with. -/
inductive ValType where
  | regular
  | special
deriving DecidableEq

def translate (flags : Flags) (scanCode : UInt8) : UInt8 :=
  if flags.kbdLshift ∨ (flags.kbdCaps ∧ ¬flags.kbdLshift) then kbdMapUp.getD scanCode.toNat 0
  else kbdMap.getD scanCode.toNat 0

/-- `parse_scancode`: the flags after it, and what the listeners are served with. -/
def parseScancode (flags : Flags) (scanCode : UInt8) : Flags × Option (ValType × UInt8) :=
  if scanCode ∈ specialCodes then (flags, some (.special, scanCode))
  else if scanCode = kbdCapslck then
    ({ flags with kbdCaps := !flags.kbdCaps }, some (.special, scanCode))
  else if scanCode = kbdShiftL then
    ({ flags with kbdLshift := true }, some (.special, scanCode))
  else if scanCode = kbdCtrlL then
    ({ flags with kbdLctrl := true }, some (.special, scanCode))
  else if scanCode = kbdAltL then
    ({ flags with kbdLalt := true }, some (.special, scanCode))
  else if scanCode = kbdShiftR then
    ({ flags with kbdRshift := true }, some (.special, scanCode))
  else if scanCode = kbdShiftLrR then
    ({ flags with kbdLshift := false, kbdRshift := false }, some (.special, scanCode))
  else if scanCode = kbdShiftRR then (flags, none)
  else if 1 ≤ scanCode ∧ scanCode < 100 then
    (flags, some (.regular, translate flags scanCode))
  else (flags, none)

def flagsAfter (codes : List UInt8) : Flags :=
  codes.foldl (fun flags code => (parseScancode flags code).1) Flags.initial

/-! ## What has been pressed -/

/-- The last code of the key was that of its press. -/
def Held (make release : UInt8) (codes : List UInt8) : Prop :=
  (codes.filter fun code => code = make ∨ code = release).getLast? = some make

instance (make release : UInt8) (codes : List UInt8) : Decidable (Held make release codes) :=
  inferInstanceAs (Decidable (_ = _))

def LeftShift (codes : List UInt8) : Prop := Held 0x2A 0xAA codes

def RightShift (codes : List UInt8) : Prop := Held 0x36 0xB6 codes

/-- Caps lock has been pressed an odd number of times. -/
def CapsLock (codes : List UInt8) : Prop := codes.count 0x3A % 2 = 1

instance (codes : List UInt8) : Decidable (LeftShift codes) :=
  inferInstanceAs (Decidable (Held _ _ _))

instance (codes : List UInt8) : Decidable (RightShift codes) :=
  inferInstanceAs (Decidable (Held _ _ _))

instance (codes : List UInt8) : Decidable (CapsLock codes) := inferInstanceAs (Decidable (_ = _))

/-- The press of a key that has a character, and no other meaning. -/
def Printable (code : UInt8) : Prop :=
  (kbdMap.getD code.toNat 0 ≠ 0 ∨ kbdMapUp.getD code.toNat 0 ≠ 0) ∧ code ∉ specialCodes

instance (code : UInt8) : Decidable (Printable code) := inferInstanceAs (Decidable (_ ∧ _))

theorem held_concat (make release : UInt8) (codes : List UInt8) (code : UInt8) :
    Held make release (codes ++ [code]) ↔
      code = make ∨ code ≠ release ∧ Held make release codes := by
  unfold Held
  rw [List.filter_append]
  by_cases isMake : code = make
  · simp [isMake]
  · by_cases isRelease : code = release
    · subst isRelease
      simp [isMake]
    · simp [isMake, isRelease]

theorem capsLock_concat (codes : List UInt8) (code : UInt8) :
    CapsLock (codes ++ [code]) ↔ (CapsLock codes ↔ code ≠ 0x3A) := by
  unfold CapsLock
  rw [List.count_append, List.count_singleton]
  by_cases isCaps : code = 0x3A
  · simp [isCaps]
    omega
  · simp [isCaps]

/-! ## What the flags say -/

theorem parseScancode_other {flags : Flags} {code : UInt8} (notLeft : code ≠ 0x2A)
    (notRelease : code ≠ 0xAA) (notCaps : code ≠ 0x3A) :
    (parseScancode flags code).1.kbdLshift = flags.kbdLshift ∧
      (parseScancode flags code).1.kbdCaps = flags.kbdCaps := by
  unfold parseScancode
  rw [if_neg (show code ≠ kbdCapslck from notCaps), if_neg (show code ≠ kbdShiftL from notLeft),
    if_neg (show code ≠ kbdShiftLrR from notRelease)]
  split_ifs
  all_goals exact ⟨rfl, rfl⟩

theorem parseScancode_flags (flags : Flags) (code : UInt8) :
    ((parseScancode flags code).1.kbdLshift = true ↔
        code = 0x2A ∨ code ≠ 0xAA ∧ flags.kbdLshift = true) ∧
      ((parseScancode flags code).1.kbdCaps = true ↔ (flags.kbdCaps = true ↔ code ≠ 0x3A)) := by
  by_cases isLeft : code = 0x2A
  · subst isLeft
    have step : parseScancode flags 0x2A =
        ({ flags with kbdLshift := true }, some (.special, 0x2A)) := rfl
    simp [step]
  · by_cases isRelease : code = 0xAA
    · subst isRelease
      have step : parseScancode flags 0xAA =
          ({ flags with kbdLshift := false, kbdRshift := false }, some (.special, 0xAA)) := rfl
      simp [step]
    · by_cases isCaps : code = 0x3A
      · subst isCaps
        have step : parseScancode flags 0x3A =
            ({ flags with kbdCaps := !flags.kbdCaps }, some (.special, 0x3A)) := rfl
        simp [step]
      · rcases @parseScancode_other flags code isLeft isRelease isCaps with ⟨sameLeft, sameCaps⟩
        simp [sameLeft, sameCaps, isLeft, isRelease, isCaps]

theorem flagsAfter_concat (codes : List UInt8) (code : UInt8) :
    flagsAfter (codes ++ [code]) = (parseScancode (flagsAfter codes) code).1 := by
  unfold flagsAfter
  rw [List.foldl_append]
  rfl

theorem flagsAfter_spec (codes : List UInt8) :
    ((flagsAfter codes).kbdLshift = true ↔ LeftShift codes) ∧
      ((flagsAfter codes).kbdCaps = true ↔ CapsLock codes) := by
  induction codes using List.reverseRecOn with
  | nil => decide
  | append_singleton codes code induction =>
      have step := parseScancode_flags (flagsAfter codes) code
      rw [flagsAfter_concat, step.1, step.2, induction.1, induction.2]
      exact ⟨(held_concat _ _ codes code).symm, (capsLock_concat codes code).symm⟩

/-! ## What the listeners get -/

/-- The character with shift or caps lock, and the one without. -/
def character (upper : Prop) [Decidable upper] (code : UInt8) : UInt8 :=
  if upper then kbdMapUp.getD code.toNat 0 else kbdMap.getD code.toNat 0

/-- Each key with a character is translated by what is held and locked when it is pressed. -/
def Translated (codes : List UInt8) : Prop :=
  ∀ before code after, codes = before ++ code :: after → Printable code →
    (parseScancode (flagsAfter before) code).2 = some (.regular,
      character (CapsLock before ∨ LeftShift before ∨ RightShift before) code)

/-- No key is pressed with the right shift key alone, unless its two characters are the same. -/
def RightShiftUnused (codes : List UInt8) : Prop :=
  ∀ before code after, codes = before ++ code :: after → Printable code → RightShift before →
    LeftShift before ∨ CapsLock before ∨ kbdMapUp.getD code.toNat 0 = kbdMap.getD code.toNat 0

theorem not_printable : ∀ code ∈ [0, kbdCapslck, kbdShiftL, kbdCtrlL, kbdAltL, kbdShiftR,
    kbdShiftLrR, kbdShiftRR], ¬Printable code := by
  decide +kernel

theorem Printable.range {code : UInt8} (printable : Printable code) : 1 ≤ code ∧ code < 100 := by
  have notZero : code ≠ 0 := by
    rintro rfl
    exact not_printable 0 (by decide) printable
  have less : code.toNat < 100 := by
    by_contra beyond
    rcases printable.1 with lower | upper
    · exact lower (List.getD_eq_default _ _ (show 100 ≤ code.toNat by omega))
    · exact upper (List.getD_eq_default _ _ (show 100 ≤ code.toNat by omega))
  have positive : code.toNat ≠ 0 := fun isZero => notZero (UInt8.toNat_inj.mp isZero)
  rw [UInt8.le_iff_toNat_le, UInt8.lt_iff_toNat_lt]
  exact ⟨Nat.one_le_iff_ne_zero.mpr positive, less⟩

theorem parseScancode_printable {flags : Flags} {code : UInt8} (printable : Printable code) :
    (parseScancode flags code).2 = some (.regular, translate flags code) := by
  have different {other : UInt8} (isOther : other ∈ [0, kbdCapslck, kbdShiftL, kbdCtrlL, kbdAltL,
      kbdShiftR, kbdShiftLrR, kbdShiftRR]) : code ≠ other := by
    rintro rfl
    exact not_printable code isOther printable
  unfold parseScancode
  rw [if_neg printable.2, if_neg (different (by decide)), if_neg (different (by decide)),
    if_neg (different (by decide)), if_neg (different (by decide)), if_neg (different (by decide)),
    if_neg (different (by decide)), if_neg (different (by decide)), if_pos printable.range]

theorem translate_flagsAfter (codes : List UInt8) (code : UInt8) :
    translate (flagsAfter codes) code = character (CapsLock codes ∨ LeftShift codes) code := by
  have flags := flagsAfter_spec codes
  unfold translate character
  congr 1
  rw [flags.1, flags.2]
  apply propext
  tauto

/-- The translation is right if and only if the right shift key is never needed. -/
theorem translated_iff (codes : List UInt8) : Translated codes ↔ RightShiftUnused codes := by
  have atPress (before : List UInt8) (code : UInt8) (printable : Printable code) :
      (parseScancode (flagsAfter before) code).2 = some (.regular,
          character (CapsLock before ∨ LeftShift before ∨ RightShift before) code) ↔
        (RightShift before → LeftShift before ∨ CapsLock before ∨
          kbdMapUp.getD code.toNat 0 = kbdMap.getD code.toNat 0) := by
    rw [parseScancode_printable printable, translate_flagsAfter, Option.some_inj, Prod.mk.injEq]
    unfold character
    by_cases caps : CapsLock before
    · simp [caps]
    · by_cases left : LeftShift before
      · simp [left]
      · by_cases right : RightShift before
        · simp [caps, left, right, eq_comm]
        · simp [caps, left, right]
  constructor
  · intro translated before code after isCodes printable
    exact (atPress before code printable).mp (translated before code after isCodes printable)
  · intro unused before code after isCodes printable
    exact (atPress before code printable).mpr (unused before code after isCodes printable)

/-- The right shift key is pressed, and then `A`. -/
theorem not_translated_rightShift : ¬Translated [0x36, 0x1E] := by
  intro translated
  have pressed := translated [0x36] 0x1E [] rfl (by decide)
  revert pressed
  decide

end Dbos.Keyboard
