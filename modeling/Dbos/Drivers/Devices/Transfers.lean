import Mathlib.Algebra.Group.Nat.Defs
import Mathlib.Logic.Function.Basic
import Dbos.Foundation.Loop

/-! # Transfers between devices and buffers

The functions that read and write the cells of the framebuffer, of the text screen and
of the ramdisk. All of them clip the transfer to the device, and all of them compute its
end in 32 bits. -/

namespace Dbos.Devices

open Dbos.Loop

/-- The number of values of a `uint32_t`. -/
def wordSize : Nat := 2 ^ 32

def minusOne : Nat := wordSize - 1

/-- The cells of a device, the buffer of the caller, and the numbers of the cells that
have been read or written. -/
structure Contents (Cell Item : Type) where
  cells : Nat → Cell
  buffer : Nat → Item
  touched : List Nat

variable {Cell Item : Type}

/-- `buffer[index] = cells[start + index]`. -/
def readCell (convert : Cell → Item) (start : Nat) (contents : Contents Cell Item)
    (index : Nat) : Contents Cell Item :=
  { contents with
    buffer := Function.update contents.buffer index (convert (contents.cells (start + index)))
    touched := contents.touched ++ [start + index] }

/-- `cells[start + index] = buffer[index]`. -/
def writeCell (convert : Item → Cell) (start : Nat) (contents : Contents Cell Item)
    (index : Nat) : Contents Cell Item :=
  { contents with
    cells := Function.update contents.cells (start + index) (convert (contents.buffer index))
    touched := contents.touched ++ [start + index] }

/-- The number of cells that is left of `size`. -/
def clip (length startAt size : Nat) : Nat :=
  if (startAt + size) % wordSize > length then (length + wordSize - startAt) % wordSize else size

/-- The body of `vesa_dev_read` and `vesa_dev_write`, which end with a call of `memcpy_32`. -/
def vesaTransfer (videoMemLength startAt size : Nat)
    (body : Contents Cell Item → Nat → Contents Cell Item) (contents : Contents Cell Item) :
    Nat × Contents Cell Item :=
  if startAt > (videoMemLength + wordSize - 1) % wordSize then (minusOne, contents)
  else
    let length := clip videoMemLength startAt size
    (length, loop length body contents)

/-- The body of `vga_dev_read` and `vga_dev_write`, whose loops run while `start` is below
`start_at` plus the length. -/
def vgaTransfer (videoMemLength startAt size : Nat)
    (body : Contents Cell Item → Nat → Contents Cell Item) (contents : Contents Cell Item) :
    Nat × Contents Cell Item :=
  if startAt > (videoMemLength + wordSize - 1) % wordSize then (minusOne, contents)
  else
    let length := clip videoMemLength startAt size
    (length, loop ((startAt + length) % wordSize - startAt) body contents)

/-- The globals of `vesa.c`. -/
structure Vesa where
  lfbWidth : Nat
  lfbHeight : Nat

def Vesa.videoMemLength (vesa : Vesa) : Nat := vesa.lfbWidth * vesa.lfbHeight % wordSize

def vesaDevRead (vesa : Vesa) (startAt size : Nat) (contents : Contents UInt32 UInt32) :
    Nat × Contents UInt32 UInt32 :=
  vesaTransfer vesa.videoMemLength startAt size (readCell id startAt) contents

def vesaDevWrite (vesa : Vesa) (startAt size : Nat) (contents : Contents UInt32 UInt32) :
    Nat × Contents UInt32 UInt32 :=
  vesaTransfer vesa.videoMemLength startAt size (writeCell id startAt) contents

/-- `ROWS * COLS`. -/
def textLength : Nat := 25 * 80

theorem textLength_lt : textLength < wordSize := by decide

def vgaDevRead (startAt size : Nat) (contents : Contents UInt16 UInt8) :
    Nat × Contents UInt16 UInt8 :=
  vgaTransfer textLength startAt size (readCell UInt16.toUInt8 startAt) contents

def vgaDevWrite (colourSetting : UInt8) (startAt size : Nat) (contents : Contents UInt16 UInt8) :
    Nat × Contents UInt16 UInt8 :=
  vgaTransfer textLength startAt size
    (writeCell (fun byte => byte.toUInt16 ||| colourSetting.toUInt16 <<< 8) startAt) contents

/-- The globals of `initrd.c`, once the module has been found. -/
structure Initrd where
  memoryStart : Nat
  memoryEnd : Nat
  startPresent : memoryStart ≠ 0
  endPresent : memoryEnd ≠ 0

/-- `initrd_memory_length`. -/
def Initrd.memoryLength (initrd : Initrd) : Nat :=
  (initrd.memoryEnd + wordSize - initrd.memoryStart) % wordSize

theorem Initrd.memoryLength_lt (initrd : Initrd) : initrd.memoryLength < wordSize := by
  unfold Initrd.memoryLength
  exact Nat.mod_lt _ (by decide)

def initrdDevRead (initrd : Initrd) (startAt size : Nat) (contents : Contents UInt8 UInt8) :
    Nat × Contents UInt8 UInt8 :=
  if initrd.memoryStart = 0 ∨ initrd.memoryEnd = 0 then (minusOne, contents)
  else if startAt > initrd.memoryLength then (minusOne, contents)
  else
    let size := clip initrd.memoryLength startAt size
    (size, loop size (readCell id startAt) contents)

/-! ## The cells of the device -/

/-- What a function returns, and the cells it has touched. -/
def observed (result : Nat × Contents Cell Item) : Nat × List Nat := (result.1, result.2.touched)

/-- The five functions with what they work on. -/
inductive Transfer where
  | vesaRead (vesa : Vesa) (lfb buffer : Nat → UInt32)
  | vesaWrite (vesa : Vesa) (lfb buffer : Nat → UInt32)
  | vgaRead (videoMemory : Nat → UInt16) (buffer : Nat → UInt8)
  | vgaWrite (colourSetting : UInt8) (videoMemory : Nat → UInt16) (buffer : Nat → UInt8)
  | initrdRead (initrd : Initrd) (memory buffer : Nat → UInt8)

namespace Transfer

def length : Transfer → Nat
  | vesaRead vesa _ _ => vesa.videoMemLength
  | vesaWrite vesa _ _ => vesa.videoMemLength
  | vgaRead _ _ => textLength
  | vgaWrite _ _ _ => textLength
  | initrdRead initrd _ _ => initrd.memoryLength

def outcome (transfer : Transfer) (startAt size : Nat) : Nat × List Nat :=
  match transfer with
  | vesaRead vesa lfb buffer =>
      observed (vesaDevRead vesa startAt size ⟨lfb, buffer, []⟩)
  | vesaWrite vesa lfb buffer =>
      observed (vesaDevWrite vesa startAt size ⟨lfb, buffer, []⟩)
  | vgaRead videoMemory buffer =>
      observed (vgaDevRead startAt size ⟨videoMemory, buffer, []⟩)
  | vgaWrite colourSetting videoMemory buffer =>
      observed (vgaDevWrite colourSetting startAt size ⟨videoMemory, buffer, []⟩)
  | initrdRead initrd memory buffer =>
      observed (initrdDevRead initrd startAt size ⟨memory, buffer, []⟩)

/-- Where the function refuses to begin. The ramdisk lets a transfer begin at its end. -/
def Refuses (transfer : Transfer) (startAt : Nat) : Prop :=
  match transfer with
  | initrdRead initrd _ _ => initrd.memoryLength < startAt
  | other => other.length ≤ startAt

end Transfer

/-- The cells from the start up to the end or to the end of the device are touched one after
the other, and their number is returned. Past the end nothing is touched; that is told by
-1, or right at the end by a count of 0. -/
def Confined (length startAt size : Nat) (outcome : Nat × List Nat) : Prop :=
  if startAt < length then
    outcome = (min (startAt + size) length - startAt,
      List.range' startAt (min (startAt + size) length - startAt))
  else outcome = (minusOne, []) ∨ startAt = length ∧ outcome = (0, [])

section Loops

variable {startAt : Nat} {body : Contents Cell Item → Nat → Contents Cell Item}

/-- One round touches one cell. -/
def TouchesNext (startAt : Nat) (body : Contents Cell Item → Nat → Contents Cell Item) : Prop :=
  ∀ contents index, (body contents index).touched = contents.touched ++ [startAt + index]

theorem touchesNext_readCell (convert : Cell → Item) (startAt : Nat) :
    TouchesNext startAt (readCell convert startAt) := fun _ _ => rfl

theorem touchesNext_writeCell (convert : Item → Cell) (startAt : Nat) :
    TouchesNext startAt (writeCell convert startAt) := fun _ _ => rfl

theorem touched_loop (next : TouchesNext startAt body) (cells : Nat → Cell) (buffer : Nat → Item)
    (count : Nat) : (loop count body ⟨cells, buffer, []⟩).touched = List.range' startAt count := by
  induction count with
  | zero => simp
  | succ count induction =>
      rw [loop_succ, next, induction, List.range'_concat, Nat.one_mul]

end Loops

section Clipping

variable {length startAt size : Nat}

theorem clip_of_lt (bound : length < wordSize) (inside : startAt ≤ length)
    (noWrap : startAt + size < wordSize) :
    clip length startAt size = min (startAt + size) length - startAt := by
  unfold clip
  unfold wordSize at *
  split <;> omega

theorem clip_of_wrap (inside : startAt ≤ length) (bound : length < wordSize)
    (sizeBound : size < wordSize) (wrap : wordSize ≤ startAt + size) :
    clip length startAt size = size := by
  unfold clip
  unfold wordSize at *
  rw [if_neg (by omega)]

theorem not_confined_of_wrap {touched : List Nat} (inside : startAt ≤ length)
    (bound : length < wordSize) (wrap : wordSize ≤ startAt + size)
    (untouched : startAt = length → touched ≠ []) :
    ¬Confined length startAt size (size, touched) := by
  unfold Confined
  split
  case isTrue less =>
    intro confined
    have returned : size = min (startAt + size) length - startAt := congrArg Prod.fst confined
    omega
  case isFalse =>
    rintro (refused | ⟨-, nothing⟩)
    · exact untouched (by omega) (congrArg Prod.snd refused)
    · have isZero : size = 0 := congrArg Prod.fst nothing
      unfold wordSize at *
      omega

theorem confined_clip_iff (inside : startAt ≤ length) (bound : length < wordSize)
    (sizeBound : size < wordSize) :
    Confined length startAt size
        (clip length startAt size, List.range' startAt (clip length startAt size)) ↔
      startAt + size < wordSize := by
  by_cases noWrap : startAt + size < wordSize
  · rw [clip_of_lt bound inside noWrap, iff_true_right noWrap]
    unfold Confined
    split
    case isTrue => rfl
    case isFalse notLess =>
      have atEnd : min (startAt + size) length - startAt = 0 := by omega
      rw [atEnd]
      exact .inr ⟨by omega, rfl⟩
  · rw [clip_of_wrap inside bound sizeBound (by omega), iff_false_right noWrap]
    apply not_confined_of_wrap inside bound (by omega)
    intro _ nothing
    have isZero := congrArg List.length nothing
    rw [List.length_range', List.length_nil] at isZero
    omega

theorem confined_of_refused (behind : length ≤ startAt) :
    Confined length startAt size (minusOne, []) := by
  unfold Confined
  rw [if_neg (by omega)]
  exact .inl rfl

end Clipping

section Functions

variable {videoMemLength startAt size : Nat}
  {body : Contents Cell Item → Nat → Contents Cell Item}

theorem begins_iff (present : 0 < videoMemLength) (bound : videoMemLength < wordSize) :
    startAt > (videoMemLength + wordSize - 1) % wordSize ↔ videoMemLength ≤ startAt := by
  unfold wordSize at *
  omega

theorem vesaTransfer_confined_iff (next : TouchesNext startAt body) (cells : Nat → Cell)
    (buffer : Nat → Item) (present : 0 < videoMemLength) (bound : videoMemLength < wordSize)
    (sizeBound : size < wordSize) :
    Confined videoMemLength startAt size
        (observed (vesaTransfer videoMemLength startAt size body ⟨cells, buffer, []⟩)) ↔
      videoMemLength ≤ startAt ∨ startAt + size < wordSize := by
  unfold vesaTransfer
  simp only [begins_iff present bound]
  by_cases behind : videoMemLength ≤ startAt
  · simp [behind, observed, confined_of_refused]
  · simp only [if_neg behind, or_iff_right behind, observed, touched_loop next]
    exact confined_clip_iff (by omega) bound sizeBound

theorem vgaTransfer_confined_iff (next : TouchesNext startAt body) (cells : Nat → Cell)
    (buffer : Nat → Item) (present : 0 < videoMemLength) (bound : videoMemLength < wordSize)
    (sizeBound : size < wordSize) :
    Confined videoMemLength startAt size
        (observed (vgaTransfer videoMemLength startAt size body ⟨cells, buffer, []⟩)) ↔
      videoMemLength ≤ startAt ∨ startAt + size < wordSize := by
  unfold vgaTransfer
  simp only [begins_iff present bound]
  by_cases behind : videoMemLength ≤ startAt
  · simp [behind, observed, confined_of_refused]
  · simp only [if_neg behind, or_iff_right behind, observed, touched_loop next]
    by_cases noWrap : startAt + size < wordSize
    · have rounds : (startAt + clip videoMemLength startAt size) % wordSize - startAt =
          min (startAt + size) videoMemLength - startAt := by
        rw [clip_of_lt bound (by omega) noWrap, Nat.mod_eq_of_lt (by omega)]
        omega
      rw [rounds, clip_of_lt bound (by omega) noWrap]
      simp [Confined, Nat.not_le.mp behind, noWrap]
    · rw [clip_of_wrap (by omega) bound sizeBound (by omega)]
      simp only [noWrap, iff_false]
      exact not_confined_of_wrap (by omega) bound (by omega) (by omega)

theorem initrdDevRead_of_le {initrd : Initrd} (memory buffer : Nat → UInt8)
    (inside : startAt ≤ initrd.memoryLength) :
    observed (initrdDevRead initrd startAt size ⟨memory, buffer, []⟩) =
      (clip initrd.memoryLength startAt size,
        List.range' startAt (clip initrd.memoryLength startAt size)) := by
  have isPresent : ¬(initrd.memoryStart = 0 ∨ initrd.memoryEnd = 0) := by
    simp [initrd.startPresent, initrd.endPresent]
  rw [initrdDevRead, if_neg isPresent, if_neg (Nat.not_lt.mpr inside)]
  rw [← touched_loop (touchesNext_readCell id startAt) memory buffer]
  rfl

theorem initrdDevRead_confined_iff (initrd : Initrd) (memory buffer : Nat → UInt8)
    (sizeBound : size < wordSize) :
    Confined initrd.memoryLength startAt size
        (observed (initrdDevRead initrd startAt size ⟨memory, buffer, []⟩)) ↔
      initrd.memoryLength < startAt ∨ startAt + size < wordSize := by
  by_cases behind : initrd.memoryLength < startAt
  · rw [iff_true_right (.inl behind)]
    have isPresent : ¬(initrd.memoryStart = 0 ∨ initrd.memoryEnd = 0) := by
      simp [initrd.startPresent, initrd.endPresent]
    rw [initrdDevRead, if_neg isPresent, if_pos behind]
    exact confined_of_refused (Nat.le_of_lt behind)
  · rw [initrdDevRead_of_le memory buffer (Nat.not_lt.mp behind), or_iff_right behind]
    exact confined_clip_iff (Nat.not_lt.mp behind) initrd.memoryLength_lt sizeBound

end Functions

/-- A transfer stays in the device if it is refused, or if its end fits in 32 bits. -/
theorem confined_iff (transfer : Transfer) (present : 0 < transfer.length) (startAt size : Nat)
    (sizeBound : size < wordSize) :
    Confined transfer.length startAt size (transfer.outcome startAt size) ↔
      transfer.Refuses startAt ∨ startAt + size < wordSize := by
  cases transfer with
  | vesaRead vesa lfb buffer =>
      exact vesaTransfer_confined_iff (touchesNext_readCell _ startAt) lfb buffer present
        (Nat.mod_lt _ (by decide)) sizeBound
  | vesaWrite vesa lfb buffer =>
      exact vesaTransfer_confined_iff (touchesNext_writeCell _ startAt) lfb buffer present
        (Nat.mod_lt _ (by decide)) sizeBound
  | vgaRead videoMemory buffer =>
      exact vgaTransfer_confined_iff (touchesNext_readCell _ startAt) videoMemory buffer present
        textLength_lt sizeBound
  | vgaWrite colourSetting videoMemory buffer =>
      exact vgaTransfer_confined_iff (touchesNext_writeCell _ startAt) videoMemory buffer present
        textLength_lt sizeBound
  | initrdRead initrd memory buffer =>
      exact initrdDevRead_confined_iff initrd memory buffer sizeBound

def wideScreen : Transfer := .vesaWrite ⟨1024, 768⟩ (fun _ => 0) (fun _ => 0xFF)

theorem confined_iff_wideScreen :
    Confined wideScreen.length 786431 2 (wideScreen.outcome 786431 2) ↔
      wideScreen.Refuses 786431 ∨ 786431 + 2 < wordSize :=
  confined_iff wideScreen (by decide) 786431 2 (by decide)

/-- From the second pixel on, 2^32 - 1 pixels are written. -/
theorem not_confined_wideScreen :
    ¬Confined wideScreen.length 1 (wordSize - 1) (wideScreen.outcome 1 (wordSize - 1)) := by
  intro confined
  have inside := (vesaTransfer_confined_iff (touchesNext_writeCell id 1) (fun _ => (0 : UInt32))
    (fun _ => (0xFF : UInt32)) (by decide) (by decide) (by decide)).mp confined
  exact absurd inside (by decide)

end Dbos.Devices
