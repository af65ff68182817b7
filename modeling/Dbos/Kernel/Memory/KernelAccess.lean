import Dbos.Foundation.ByteMemory
import Dbos.Kernel.Memory.UserAccess
import Dbos.Kernel.Memory.Window

/-! # Loads and stores of the kernel

The bytes that the kernel reads and writes through the page tables in use, and the byte loops
of `kstdio.c` and `string.c` over them. -/

namespace Dbos.Paging.KernelAccess

open Window
open ByteMemory (space)

/-! ## The accesses -/

def byteAt (memory : Memory) (frame place : Nat) : UInt8 :=
  byteOf (memory frame (place / 4)) (place % 4)

def setByte (memory : Memory) (frame place : Nat) (value : UInt8) : Memory :=
  setWord memory frame (place / 4) (withByte (memory frame (place / 4)) (place % 4) value)

def physByte (memory : Memory) (address : Nat) : UInt8 :=
  byteAt memory (address / 4096) (address % 4096)

/-- A load, or `none` for a page fault. -/
def load (memory : Memory) (cr3 address : Nat) : Option UInt8 :=
  (walk memory cr3 (address % space / 4096)).map fun frame => byteAt memory frame (address % 4096)

def store (memory : Memory) (cr3 address : Nat) (value : UInt8) : Option Memory :=
  (walk memory cr3 (address % space / 4096)).map fun frame =>
    setByte memory frame (address % 4096) value

def loadWord (memory : Memory) (cr3 address : Nat) : Option Nat := do
  let byte0 ← load memory cr3 address
  let byte1 ← load memory cr3 (address + 1)
  let byte2 ← load memory cr3 (address + 2)
  let byte3 ← load memory cr3 (address + 3)
  return byte0.toNat + 0x100 * byte1.toNat + 0x10000 * byte2.toNat + 0x1000000 * byte3.toNat

def storeWord (memory : Memory) (cr3 address word : Nat) : Option Memory := do
  let memory ← store memory cr3 address (.ofNat word)
  let memory ← store memory cr3 (address + 1) (.ofNat (word / 0x100))
  let memory ← store memory cr3 (address + 2) (.ofNat (word / 0x10000))
  store memory cr3 (address + 3) (.ofNat (word / 0x1000000))

/-- `memset_8`. -/
def memset8 (cr3 dest : Nat) (val : UInt8) : Nat → Memory → Option Memory
  | 0, memory => some memory
  | len + 1, memory => do
      let memory ← memset8 cr3 dest val len memory
      store memory cr3 (dest + len) val

/-- `memcpy_8`. -/
def memcpy8 (cr3 dest src : Nat) : Nat → Memory → Option Memory
  | 0, memory => some memory
  | len + 1, memory => do
      let memory ← memcpy8 cr3 dest src len memory
      let byte ← load memory cr3 (src + len)
      store memory cr3 (dest + len) byte

/-- The loop of `strlen`, which is at index `i`. -/
def strlenFrom (memory : Memory) (cr3 string : Nat) : Nat → Nat → Option Nat
  | 0, _ => none
  | fuel + 1, i => do
      let byte ← load memory cr3 (string + i)
      if byte ≠ 0 then strlenFrom memory cr3 string fuel (i + 1) else return i

/-- `strlen`. A string that covers the address space has no end. -/
def strlen (memory : Memory) (cr3 string : Nat) : Option Nat :=
  strlenFrom memory cr3 string space 0

/-! ## Bytes of frames -/

section Bytes

variable {memory : Memory} {frame other place otherPlace : Nat} {value : UInt8}

theorem setByte_frame_of_ne (different : other ≠ frame) :
    setByte memory frame place value other = memory other := by
  unfold setByte
  exact setWord_frame_of_ne _ _ _ different

theorem byteAt_congr {next : Memory} (same : next frame = memory frame) (place : Nat) :
    byteAt next frame place = byteAt memory frame place := by
  unfold byteAt
  rw [same]

theorem byteAt_setByte :
    byteAt (setByte memory frame place value) other otherPlace =
      if other = frame ∧ otherPlace = place then value else byteAt memory other otherPlace := by
  by_cases sameFrame : other = frame
  · subst sameFrame
    unfold byteAt setByte
    by_cases sameWord : otherPlace / 4 = place / 4
    · have iff : otherPlace % 4 = place % 4 ↔ otherPlace = place := by omega
      rw [sameWord, setWord_self, byteOf_withByte _ _ (Nat.mod_lt _ (by decide))
        (Nat.mod_lt _ (by decide))]
      simp only [iff, true_and]
    · have differs : otherPlace ≠ place := fun same => sameWord (by rw [same])
      rw [setWord_of_ne _ _ (.inr sameWord), if_neg fun both => differs both.2]
  · rw [byteAt_congr (setByte_frame_of_ne sameFrame), if_neg fun both => sameFrame both.1]

end Bytes

/-! ## Stores that keep the translation -/

/-- The frame holds no page structure of the kernel half. -/
structure Plain (memory : Memory) (cr3 frame : Nat) : Prop where
  notDirectory : frame ≠ cr3
  notTable : ∀ index, 768 ≤ index → index < 1024 → presentBit (memory cr3 index) = true →
    pageAddr (memory cr3 index) ≠ frame

/-- The pages from `first` to `last` in the kernel half are mapped to frames of their own. -/
structure Backed (memory : Memory) (cr3 first last : Nat) : Prop where
  kernelHalf : 0xC0000000 ≤ first
  bounded : last < space
  mapped : ∀ address, first ≤ address → address < last →
    ∃ frame, walk memory cr3 (address / 4096) = some frame ∧ Plain memory cr3 frame
  alone : ∀ address, first ≤ address → address < last → ∀ other, first ≤ other → other < last →
    walk memory cr3 (address / 4096) = walk memory cr3 (other / 4096) →
    address / 4096 = other / 4096

def Backs (memory : Memory) (cr3 first last frame : Nat) : Prop :=
  ∃ address, first ≤ address ∧ address < last ∧ walk memory cr3 (address / 4096) = some frame

/-- Nothing but the range has changed, which shows the bytes of a flat memory. -/
structure View (memory : Memory) (cr3 first last : Nat) (next : Memory) (flat : ByteMemory.Memory) :
    Prop where
  elsewhere : ∀ frame, ¬Backs memory cr3 first last frame → next frame = memory frame
  shows : ∀ address, first ≤ address → address < last →
    load next cr3 address = some (ByteMemory.load flat address)

theorem walk_congr {memory next : Memory} {cr3 page : Nat} (directory : next cr3 = memory cr3)
    (table : presentBit (memory cr3 (page / 1024)) = true →
      next (pageAddr (memory cr3 (page / 1024))) = memory (pageAddr (memory cr3 (page / 1024)))) :
    walk next cr3 page = walk memory cr3 page := by
  unfold walk
  rw [directory]
  simp only
  split
  case isTrue present => rw [table present]
  case isFalse => rfl

section View

variable {memory next : Memory} {cr3 first last address : Nat} {flat : ByteMemory.Memory}

theorem Backed.plain (backed : Backed memory cr3 first last) {frame : Nat}
    (backs : Backs memory cr3 first last frame) : Plain memory cr3 frame := by
  rcases backs with ⟨address, low, high, found⟩
  rcases backed.mapped address low high with ⟨other, isOther, plain⟩
  rw [found, Option.some_inj] at isOther
  exact isOther ▸ plain

theorem Backed.page (backed : Backed memory cr3 first last) (low : first ≤ address)
    (high : address < last) :
    address % space = address ∧ 786432 ≤ address / 4096 ∧ address / 4096 < frameCount := by
  have kernelHalf := backed.kernelHalf
  have bounded := backed.bounded
  unfold space at *
  unfold frameCount
  omega

theorem View.walk_eq (view : View memory cr3 first last next flat)
    (backed : Backed memory cr3 first last) {page : Nat} (kernelHalf : 786432 ≤ page)
    (bounded : page < frameCount) : walk next cr3 page = walk memory cr3 page := by
  unfold frameCount at bounded
  apply walk_congr
  · exact view.elsewhere cr3 fun backs => (backed.plain backs).notDirectory rfl
  · intro present
    refine view.elsewhere _ fun backs => ?_
    exact (backed.plain backs).notTable _ (by omega) (by omega) present rfl

theorem View.congr (view : View memory cr3 first last next flat) {other : ByteMemory.Memory}
    (same : ByteMemory.SameOn first last other flat) : View memory cr3 first last next other := by
  refine ⟨view.elsewhere, fun address low high => ?_⟩
  rw [view.shows address low high, same address low high]

theorem View.store (view : View memory cr3 first last next flat)
    (backed : Backed memory cr3 first last) (low : first ≤ address) (high : address < last)
    (value : UInt8) :
    ∃ after, store next cr3 address value = some after ∧
      View memory cr3 first last after (ByteMemory.store flat address value) := by
  rcases backed.mapped address low high with ⟨frame, found, plain⟩
  rcases backed.page low high with ⟨small, kernelHalf, bounded⟩
  have foundNext : walk next cr3 (address / 4096) = some frame :=
    (view.walk_eq backed kernelHalf bounded).trans found
  refine ⟨setByte next frame (address % 4096) value, ?_, ?_⟩
  · unfold KernelAccess.store
    rw [small, foundNext, Option.map_some]
  have elsewhere : ∀ other, ¬Backs memory cr3 first last other →
      setByte next frame (address % 4096) value other = memory other := by
    intro other notBacks
    have different : other ≠ frame := fun same => notBacks ⟨address, low, high, same ▸ found⟩
    rw [setByte_frame_of_ne different, view.elsewhere other notBacks]
  refine ⟨elsewhere, fun other otherLow otherHigh => ?_⟩
  rcases backed.mapped other otherLow otherHigh with ⟨otherFrame, otherFound, -⟩
  rcases backed.page otherLow otherHigh with ⟨otherSmall, otherHalf, otherBounded⟩
  have same := view.shows other otherLow otherHigh
  unfold load at same ⊢
  have walked : walk (setByte next frame (address % 4096) value) cr3 (other / 4096) =
      some otherFrame := by
    rw [← otherFound]
    unfold frameCount at otherBounded
    apply walk_congr
    · exact elsewhere cr3 fun backs => (backed.plain backs).notDirectory rfl
    · intro present
      refine elsewhere _ fun backs => ?_
      exact (backed.plain backs).notTable _ (by omega) (by omega) present rfl
  rw [otherSmall, view.walk_eq backed otherHalf otherBounded, otherFound, Option.map_some,
    Option.some_inj] at same
  rw [otherSmall, walked, Option.map_some, Option.some_inj, byteAt_setByte, same]
  have iff : otherFrame = frame ∧ other % 4096 = address % 4096 ↔ other = address := by
    constructor
    · rintro ⟨rfl, place⟩
      have page := backed.alone address low high other otherLow otherHigh (found.trans otherFound.symm)
      omega
    · rintro rfl
      exact ⟨Option.some_inj.mp (otherFound.symm.trans found), rfl⟩
  have bound : address < space := small ▸ Nat.mod_lt _ (by decide)
  have otherBound : other < space := otherSmall ▸ Nat.mod_lt _ (by decide)
  by_cases here : other = address
  · rw [if_pos (iff.mpr here), here, ByteMemory.load_store_self]
  · rw [if_neg (mt iff.mp here), ByteMemory.load_store_of_ne bound otherBound here]

theorem View.loadWord (view : View memory cr3 first last next flat) (low : first ≤ address)
    (high : address + 4 ≤ last) :
    loadWord next cr3 address = some (ByteMemory.loadWord flat address) := by
  unfold KernelAccess.loadWord ByteMemory.loadWord
  rw [view.shows address low (by omega), view.shows (address + 1) (by omega) (by omega),
    view.shows (address + 2) (by omega) (by omega), view.shows (address + 3) (by omega) (by omega)]
  rfl

theorem View.storeWord (view : View memory cr3 first last next flat)
    (backed : Backed memory cr3 first last) (low : first ≤ address) (high : address + 4 ≤ last)
    (word : Nat) :
    ∃ after, storeWord next cr3 address word = some after ∧
      View memory cr3 first last after (ByteMemory.storeWord flat address word) := by
  rcases view.store backed low (by omega) (.ofNat word) with ⟨next0, stored0, view0⟩
  rcases view0.store backed (show first ≤ address + 1 by omega) (by omega) (.ofNat (word / 0x100))
    with ⟨next1, stored1, view1⟩
  rcases view1.store backed (show first ≤ address + 2 by omega) (by omega) (.ofNat (word / 0x10000))
    with ⟨next2, stored2, view2⟩
  rcases view2.store backed (show first ≤ address + 3 by omega) (by omega)
    (.ofNat (word / 0x1000000)) with ⟨next3, stored3, view3⟩
  refine ⟨next3, ?_, view3⟩
  unfold KernelAccess.storeWord
  simp only [stored0, stored1, stored2, stored3, Option.bind_eq_bind, Option.bind_some]

theorem View.memset8 (view : View memory cr3 first last next flat)
    (backed : Backed memory cr3 first last) {dest : Nat} (low : first ≤ dest) (val : UInt8)
    {len : Nat} (high : dest + len ≤ last) :
    ∃ after, memset8 cr3 dest val len next = some after ∧
      View memory cr3 first last after (ByteMemory.fill flat dest val len) := by
  have bounded := backed.bounded
  induction len with
  | zero =>
      refine ⟨next, rfl, view.congr fun address _ below => ?_⟩
      unfold ByteMemory.load
      exact if_neg (Nat.not_lt_zero _)
  | succ len induction =>
      rcases induction (by omega) with ⟨middle, isMiddle, middleView⟩
      rcases middleView.store backed (show first ≤ dest + len by omega) (by omega) val with
        ⟨after, stored, afterView⟩
      refine ⟨after, ?_, afterView.congr fun address _ below => ?_⟩
      · unfold KernelAccess.memset8
        simp only [isMiddle, Option.bind_eq_bind, Option.bind_some, stored]
      · by_cases isLast : address = dest + len
        · rw [isLast, ByteMemory.load_store_self]
          exact ByteMemory.load_fill_inside (by omega) (by omega) (by omega)
        · rw [ByteMemory.load_store_of_ne (by omega) (by omega) isLast]
          unfold ByteMemory.fill ByteMemory.load space at *
          have iff : (address % 2 ^ 32 + 2 ^ 32 - dest % 2 ^ 32) % 2 ^ 32 < len + 1 ↔
              (address % 2 ^ 32 + 2 ^ 32 - dest % 2 ^ 32) % 2 ^ 32 < len := by omega
          simp only [iff]

/-- The flat memory with these bytes from an address on. -/
def overwrite (flat : ByteMemory.Memory) (dest len : Nat) (bytes : Nat → UInt8) :
    ByteMemory.Memory := fun address =>
  if dest ≤ address ∧ address < dest + len then bytes (address - dest) else flat address

theorem load_overwrite {flat : ByteMemory.Memory} {dest len address : Nat} {bytes : Nat → UInt8}
    (bound : address < space) : ByteMemory.load (overwrite flat dest len bytes) address =
      if dest ≤ address ∧ address < dest + len then bytes (address - dest)
      else ByteMemory.load flat address := by
  unfold ByteMemory.load overwrite
  rw [Nat.mod_eq_of_lt bound]

theorem View.load_outside (view : View memory cr3 first last next flat)
    (backed : Backed memory cr3 first last) (low : 0xC0000000 ≤ address) (high : address < space)
    (outside : ∀ frame, walk memory cr3 (address / 4096) = some frame →
      ¬Backs memory cr3 first last frame) : load next cr3 address = load memory cr3 address := by
  have small : address % space = address := Nat.mod_eq_of_lt high
  unfold load
  unfold space at high
  rw [small, view.walk_eq backed (by omega) (by unfold frameCount; omega)]
  cases found : walk memory cr3 (address / 4096) with
  | none => rfl
  | some frame =>
      simp only [Option.map_some]
      rw [byteAt_congr (view.elsewhere frame (outside frame found))]

/-- The byte that `memcpy_8` stores at the index. Where it has come to its own destination, it
reads what it has stored there. -/
def copiedByte (memory : Memory) (cr3 dest src i : Nat) : UInt8 :=
  if src < dest ∧ dest ≤ src + i then copiedByte memory cr3 dest src (src + i - dest)
  else (load memory cr3 (src + i)).getD 0
termination_by i
decreasing_by omega

/-- The byte at the index is what `memcpy_8` reads, or repeats one that it has read before. -/
def Appears (memory : Memory) (cr3 dest src : Nat) (bytes : Nat → UInt8) (i : Nat) : Prop :=
  if dest ≤ src + i then bytes (src + i - dest) = bytes i
  else load memory cr3 (src + i) = some (bytes i)

theorem copiedByte_of_lt {dest src i : Nat} (before : src + i < dest) :
    copiedByte memory cr3 dest src i = (load memory cr3 (src + i)).getD 0 := by
  rw [copiedByte, if_neg (by omega)]

theorem copiedByte_of_le {dest src i : Nat} (below : src < dest) (reaches : dest ≤ src + i) :
    copiedByte memory cr3 dest src i = copiedByte memory cr3 dest src (src + i - dest) := by
  rw [copiedByte, if_pos ⟨below, reaches⟩]

theorem copiedByte_eq_iff {dest src len : Nat} {bytes : Nat → UInt8} (below : src < dest)
    (loaded : ∀ i < len, src + i < dest → (load memory cr3 (src + i)).isSome = true) :
    (∀ i < len, copiedByte memory cr3 dest src i = bytes i) ↔
      ∀ i < len, Appears memory cr3 dest src bytes i := by
  constructor
  · intro same i less
    unfold Appears
    split
    case isTrue reaches =>
      rw [← same i less, copiedByte_of_le below reaches]
      exact (same _ (by omega)).symm
    case isFalse before =>
      rcases Option.isSome_iff_exists.mp (loaded i less (by omega)) with ⟨byte, isByte⟩
      rw [← same i less, copiedByte_of_lt (by omega), isByte, Option.getD_some]
  · intro appears i
    induction i using Nat.strong_induction_on with
    | _ i induction =>
        intro less
        have appear := appears i less
        unfold Appears at appear
        split at appear
        case isTrue reaches =>
          rw [copiedByte_of_le below reaches, induction _ (by omega) (by omega), appear]
        case isFalse before => rw [copiedByte_of_lt (by omega), appear, Option.getD_some]

section Memcpy

variable (view : View memory cr3 first last next flat) (backed : Backed memory cr3 first last)
  {dest src len : Nat} (low : first ≤ dest) (high : dest + len ≤ last)
  (srcLow : 0xC0000000 ≤ src) (below : src < dest)
  (outside : ∀ i < len, src + i < first → ∀ frame,
    walk memory cr3 ((src + i) / 4096) = some frame → ¬Backs memory cr3 first last frame)
include view backed low high srcLow below outside

/-- What is read for one more byte. -/
theorem View.load_middle {middle : Memory} {i : Nat} (less : i < len)
    (loaded : src + i < first → (load next cr3 (src + i)).isSome = true)
    (middleView : View memory cr3 first last middle
      (overwrite flat dest i (copiedByte next cr3 dest src))) :
    load middle cr3 (src + i) = some (copiedByte next cr3 dest src i) := by
  have bounded := backed.bounded
  by_cases before : src + i < first
  · have small : src + i < space := by omega
    have isOutside := outside i less before
    rcases Option.isSome_iff_exists.mp (loaded before) with ⟨byte, isByte⟩
    rw [middleView.load_outside backed (by omega) small isOutside,
      ← view.load_outside backed (by omega) small isOutside, copiedByte_of_lt (by omega), isByte,
      Option.getD_some]
  · rw [middleView.shows _ (by omega) (by omega), load_overwrite (by omega)]
    by_cases reaches : dest ≤ src + i
    · rw [if_pos (by omega), copiedByte_of_le below reaches]
    · rw [if_neg (by omega), copiedByte_of_lt (by omega), view.shows _ (by omega) (by omega),
        Option.getD_some]

/-- `memcpy_8` to a part of the range from further down. -/
theorem View.memcpy8 (loaded : ∀ i < len, src + i < first →
      (load next cr3 (src + i)).isSome = true) :
    ∃ after, memcpy8 cr3 dest src len next = some after ∧
      View memory cr3 first last after (overwrite flat dest len (copiedByte next cr3 dest src)) := by
  have bounded := backed.bounded
  induction len with
  | zero =>
      refine ⟨next, rfl, view.congr fun address _ below => ?_⟩
      rw [load_overwrite (by omega), if_neg (by omega)]
  | succ len induction =>
      rcases induction (by omega) (fun i less => outside i (by omega))
        (fun i less => loaded i (by omega)) with ⟨middle, isMiddle, middleView⟩
      have byte := view.load_middle backed low high srcLow below outside (Nat.lt_succ_self len)
        (loaded len (Nat.lt_succ_self len)) middleView
      rcases middleView.store backed (show first ≤ dest + len by omega) (by omega)
        (copiedByte next cr3 dest src len) with ⟨after, stored, afterView⟩
      refine ⟨after, ?_, afterView.congr fun address _ below => ?_⟩
      · unfold KernelAccess.memcpy8
        simp only [isMiddle, Option.bind_eq_bind, Option.bind_some, byte, stored]
      · rw [load_overwrite (by omega)]
        by_cases isLast : address = dest + len
        · rw [isLast, ByteMemory.load_store_self, if_pos (by omega), Nat.add_sub_cancel_left]
        · rw [ByteMemory.load_store_of_ne (by omega) (by omega) isLast, load_overwrite (by omega)]
          have iff : dest ≤ address ∧ address < dest + (len + 1) ↔
              dest ≤ address ∧ address < dest + len := by omega
          simp only [iff]

theorem View.loaded_of_memcpy8
    (copied : (KernelAccess.memcpy8 cr3 dest src len next).isSome = true) :
    ∀ i < len, src + i < first → (load next cr3 (src + i)).isSome = true := by
  have bounded := backed.bounded
  induction len with
  | zero => exact fun i less => absurd less (Nat.not_lt_zero i)
  | succ len induction =>
      unfold KernelAccess.memcpy8 at copied
      rcases isMiddle : KernelAccess.memcpy8 cr3 dest src len next with _ | middle
      · simp [isMiddle] at copied
      have before := induction (by omega) (fun i less => outside i (by omega))
        (by rw [isMiddle]; rfl)
      rcases view.memcpy8 backed low (show dest + len ≤ last by omega) srcLow below
        (fun i less => outside i (by omega)) before with ⟨other, isOther, middleView⟩
      rw [isMiddle, Option.some_inj] at isOther
      subst isOther
      intro i less inFront
      by_cases isLast : i = len
      · subst isLast
        have isOutside := outside i less inFront
        rw [view.load_outside backed (by omega) (by omega) isOutside,
          ← middleView.load_outside backed (by omega) (by omega) isOutside]
        by_contra missing
        rw [Option.not_isSome_iff_eq_none] at missing
        simp [isMiddle, missing] at copied
      · exact before i (by omega) inFront

/-- A copy has these bytes in the beginning exactly if all of the source in front of the range is
mapped and they appear there. -/
theorem View.memcpy8_iff {count : Nat} (enough : count ≤ len) (bytes : Nat → UInt8) :
    (∃ after, KernelAccess.memcpy8 cr3 dest src len next = some after ∧
        ∀ i < count, load after cr3 (dest + i) = some (bytes i)) ↔
      (∀ i < len, src + i < first → (load next cr3 (src + i)).isSome = true) ∧
        ∀ i < count, Appears next cr3 dest src bytes i := by
  have bounded := backed.bounded
  have copies : ∀ after, View memory cr3 first last after
      (overwrite flat dest len (copiedByte next cr3 dest src)) → ∀ i < count,
      load after cr3 (dest + i) = some (copiedByte next cr3 dest src i) := by
    intro after afterView i less
    rw [afterView.shows _ (by omega) (by omega), load_overwrite (by omega), if_pos (by omega),
      Nat.add_sub_cancel_left]
  have loadedAll : (∀ i < len, src + i < first → (load next cr3 (src + i)).isSome = true) →
      ∀ i < count, src + i < dest → (load next cr3 (src + i)).isSome = true := by
    intro loaded i less before
    by_cases inFront : src + i < first
    · exact loaded i (by omega) inFront
    · rw [view.shows _ (by omega) (by omega)]
      rfl
  constructor
  · rintro ⟨after, isAfter, same⟩
    have loaded := view.loaded_of_memcpy8 backed low high srcLow below outside
      (by rw [isAfter]; rfl)
    rcases view.memcpy8 backed low high srcLow below outside loaded with ⟨other, isOther, otherView⟩
    rw [isAfter, Option.some_inj] at isOther
    subst isOther
    refine ⟨loaded, (copiedByte_eq_iff below (loadedAll loaded)).mp fun i less => ?_⟩
    exact Option.some_inj.mp ((copies after otherView i less).symm.trans (same i less))
  · rintro ⟨loaded, appears⟩
    rcases view.memcpy8 backed low high srcLow below outside loaded with ⟨after, isAfter, afterView⟩
    refine ⟨after, isAfter, fun i less => ?_⟩
    rw [copies after afterView i less,
      (copiedByte_eq_iff below (loadedAll loaded)).mpr appears i less]

end Memcpy

end View

end Dbos.Paging.KernelAccess
