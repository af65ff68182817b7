import Dbos.Foundation.Loop
import Dbos.Kernel.Memory.Phys

/-! # Addresses of frames and slots of the table

`init_phys_memory` puts the two ranges of usable memory behind each other in one
table. The functions that go from addresses to slots and back are those of
`memory_phys.c`, for any 32-bit address. -/

namespace Dbos.Paging.Phys

open Dbos.Loop

def addressCount : Nat := 0x100000000

def alignPage (addr : Nat) : Nat := if addr % 4096 = 0 then addr else 4096 * (addr / 4096)

/-- `alloc_phys_addr_to_index`, with `none` for -1. -/
def addressToIndex (phys : Phys) (addr : Nat) : Option Nat :=
  if addr < phys.totalUsableLower then some (addr / 4096)
  else if 0x100000 ≤ addr then some (phys.totalUsableLowerPages + (addr - 0x100000) / 4096)
  else none

/-- `alloc_phys_index_to_addr`. -/
def indexToAddress (phys : Phys) (index : Nat) : Nat :=
  if index < phys.totalUsableLowerPages then index * 4096 % addressCount
  else ((index - phys.totalUsableLowerPages) * 4096 + 0x100000) % addressCount

/-- `alloc_phys_get_alloc`: the slot, or `none` for `NULL`. -/
def getAlloc (phys : Phys) (addr : Nat) : Option Nat := phys.addressToIndex (alignPage addr)

/-! ## The start of the allocator -/

/-- The address of the table, behind the last module. -/
def allocationsAddress (lastModEnd : Nat) : Nat := (alignPage lastModEnd + 0x1000) % addressCount

/-- The variables that `init_phys_memory` sets; what lies behind the table is not cleared. -/
def sized (memoryLower memoryUpper : Nat) (behind : Nat → Nat) : Phys :=
  let lower := memoryLower * 1024 % addressCount
  let upper := memoryUpper * 1024 % addressCount
  let allocationsSize := upper / 4096 + lower / 4096
  { totalUsableLower := lower
    totalUsableUpper := upper
    allocations := fun index =>
      if index < (allocationsSize + 4096) / 4 * 4 then 0 else behind index
    freeList := List.replicate 256 none
    failed := false
    wrapped := false }

/-- `init_phys_memory`. The table is at least one page away from the end of the address
space, so that the loop over its pages does not wrap around. -/
def initPhysMemory (memoryLower memoryUpper lastModEnd : Nat) (behind : Nat → Nat) : Phys :=
  let phys := sized memoryLower memoryUpper behind
  let addr := allocationsAddress lastModEnd
  let limit := (addr + phys.totalUsablePages) % addressCount
  loop ((limit - addr + 4095) / 4096) (fun phys page => phys.allocAddr (addr / 4096 + page)) phys

theorem allocAddr_same (phys : Phys) (frame : Nat) : SameFrames (phys.allocAddr frame) phys := by
  unfold allocAddr
  split
  · exact ⟨rfl, rfl, rfl⟩
  · split <;> exact ⟨rfl, rfl, rfl⟩

theorem initPhysMemory_same (memoryLower memoryUpper lastModEnd : Nat) (behind : Nat → Nat) :
    SameFrames (initPhysMemory memoryLower memoryUpper lastModEnd behind)
      (sized memoryLower memoryUpper behind) := by
  unfold initPhysMemory
  exact loop_invariant (motive := fun _ phys =>
    SameFrames phys (sized memoryLower memoryUpper behind)) ⟨rfl, rfl, rfl⟩
    fun _ _ phys same => (allocAddr_same phys _).trans same

/-! ## The numbering -/

/-- The address lies in one of the two usable ranges. -/
def Usable (phys : Phys) (addr : Nat) : Prop :=
  addr < phys.totalUsableLower ∨ 0x100000 ≤ addr ∧ addr < 0x100000 + phys.totalUsableUpper

/-- A usable address of a page. -/
structure UsablePage (phys : Phys) (addr : Nat) : Prop where
  bound : addr < addressCount
  aligned : addr % 4096 = 0
  usable : phys.Usable addr

/-- The slots below `total_usable_pages` are in bijection with the usable pages. -/
structure Numbered (phys : Phys) : Prop where
  distinct : ∀ addr other, phys.UsablePage addr → phys.UsablePage other →
    phys.addressToIndex addr = phys.addressToIndex other → addr = other
  below : ∀ addr, phys.UsablePage addr →
    ∃ index < phys.totalUsablePages, phys.addressToIndex addr = some index
  addressOf : ∀ addr index, phys.UsablePage addr → phys.addressToIndex addr = some index →
    phys.indexToAddress index = addr
  indexOf : ∀ index < phys.totalUsablePages,
    phys.addressToIndex (phys.indexToAddress index) = some index

def NullOutside (phys : Phys) : Prop :=
  ∀ addr < addressCount, ¬phys.Usable addr → phys.getAlloc addr = none

section Numbering

variable {phys : Phys}

/-- Both ranges consist of whole pages, as far as there are addresses. -/
structure WholePages (phys : Phys) : Prop where
  lower : phys.totalUsableLower % 4096 = 0
  upper : phys.totalUsableUpper % 4096 = 0 ∧ 0x100000 + phys.totalUsableUpper ≤ addressCount ∨
    0x100000 + phys.totalUsableUpper / 4096 * 4096 = addressCount

theorem Numbered.lower (numbered : Numbered phys) (low : phys.totalUsableLower ≤ 0xA0000) :
    phys.totalUsableLower % 4096 = 0 := by
  by_contra partly
  have isPage : phys.UsablePage (4096 * (phys.totalUsableLower / 4096)) := by
    refine ⟨?_, by omega, .inl (by omega)⟩
    unfold addressCount
    omega
  rcases numbered.below _ isPage with ⟨index, bound, isIndex⟩
  -- The last page of the lower range has the slot of the first page of the upper range.
  have isFirst : phys.UsablePage 0x100000 := by
    refine ⟨by decide, by decide, .inr ⟨Nat.le_refl _, ?_⟩⟩
    unfold addressToIndex at isIndex
    rw [if_pos (by omega), Option.some.injEq] at isIndex
    unfold totalUsablePages totalUsableLowerPages at bound
    omega
  have same : phys.addressToIndex (4096 * (phys.totalUsableLower / 4096)) =
      phys.addressToIndex 0x100000 := by
    unfold addressToIndex totalUsableLowerPages
    rw [if_pos (by omega), if_neg (by omega), if_pos (Nat.le_refl _)]
    congr 1
    omega
  have equal := numbered.distinct _ _ isPage isFirst same
  omega

theorem Numbered.upper (numbered : Numbered phys) (low : phys.totalUsableLower ≤ 0xA0000) :
    phys.totalUsableUpper % 4096 = 0 ∧ 0x100000 + phys.totalUsableUpper ≤ addressCount ∨
      0x100000 + phys.totalUsableUpper / 4096 * 4096 = addressCount := by
  by_contra wrong
  by_cases high : addressCount < 0x100000 + phys.totalUsableUpper / 4096 * 4096
  · -- The slot behind the last address belongs to address 0.
    unfold addressCount at wrong high
    have bound : phys.totalUsableLowerPages + 0xFFF00 < phys.totalUsablePages := by
      unfold totalUsablePages
      omega
    have isIndex := numbered.indexOf _ bound
    have isZero : phys.indexToAddress (phys.totalUsableLowerPages + 0xFFF00) = 0 := by
      unfold indexToAddress addressCount
      rw [if_neg (by omega), Nat.add_sub_cancel_left]
    rw [isZero] at isIndex
    unfold addressToIndex at isIndex
    split at isIndex
    · rw [Option.some.injEq] at isIndex
      omega
    · rw [if_neg (by omega)] at isIndex
      cases isIndex
  · unfold addressCount at wrong high
    have partly : phys.totalUsableUpper % 4096 ≠ 0 := by omega
    have isPage : phys.UsablePage (0x100000 + phys.totalUsableUpper / 4096 * 4096) := by
      refine ⟨?_, by omega, .inr ⟨by omega, by omega⟩⟩
      unfold addressCount
      omega
    rcases numbered.below _ isPage with ⟨index, bound, isIndex⟩
    unfold totalUsablePages totalUsableLowerPages at bound
    unfold addressToIndex totalUsableLowerPages at isIndex
    rw [if_neg (by omega), if_pos (by omega), Option.some.injEq] at isIndex
    omega

theorem numbered_of_wholePages (low : phys.totalUsableLower ≤ 0xA0000) (whole : WholePages phys) :
    Numbered phys := by
  have lower := whole.lower
  have upper := whole.upper
  unfold addressCount at upper
  have index : ∀ addr, phys.UsablePage addr → ∃ index < phys.totalUsablePages,
      phys.addressToIndex addr = some index ∧ phys.indexToAddress index = addr := by
    rintro addr ⟨bound, aligned, usable⟩
    unfold addressCount at bound
    rcases usable with isLow | ⟨above, below⟩
    · refine ⟨addr / 4096, ?_, ?_, ?_⟩
      · unfold totalUsablePages totalUsableLowerPages
        omega
      · unfold addressToIndex
        rw [if_pos isLow]
      · unfold indexToAddress totalUsableLowerPages addressCount
        rw [if_pos (by omega)]
        omega
    · refine ⟨phys.totalUsableLowerPages + (addr - 0x100000) / 4096, ?_, ?_, ?_⟩
      · unfold totalUsablePages
        omega
      · unfold addressToIndex
        rw [if_neg (by omega), if_pos above]
      · unfold indexToAddress addressCount
        rw [if_neg (by omega), Nat.add_sub_cancel_left]
        omega
  refine ⟨?_, ?_, ?_, ?_⟩
  · intro addr other isPage isOther same
    rcases index addr isPage with ⟨first, -, isFirst, isAddr⟩
    rcases index other isOther with ⟨second, -, isSecond, isOtherAddr⟩
    rw [isFirst, isSecond, Option.some.injEq] at same
    rw [← isAddr, ← isOtherAddr, same]
  · intro addr isPage
    rcases index addr isPage with ⟨first, bound, isFirst, -⟩
    exact ⟨first, bound, isFirst⟩
  · intro addr other isPage isOther
    rcases index addr isPage with ⟨first, -, isFirst, isAddr⟩
    rw [isFirst, Option.some.injEq] at isOther
    rw [← isOther, isAddr]
  · intro slot bound
    unfold totalUsablePages totalUsableLowerPages at bound
    unfold addressToIndex indexToAddress totalUsableLowerPages addressCount
    by_cases isLow : slot < phys.totalUsableLower / 4096
    · rw [if_pos isLow, Nat.mod_eq_of_lt (by omega), if_pos (by omega)]
      congr 1
      omega
    · rw [if_neg isLow, Nat.mod_eq_of_lt (by omega), if_neg (by omega), if_pos (by omega)]
      congr 1
      omega

theorem numbered_iff (low : phys.totalUsableLower ≤ 0xA0000) :
    Numbered phys ↔ WholePages phys :=
  ⟨fun numbered => ⟨numbered.lower low, numbered.upper low⟩, numbered_of_wholePages low⟩

theorem alignPage_eq (addr : Nat) : alignPage addr = 4096 * (addr / 4096) := by
  unfold alignPage
  split
  · omega
  · rfl

theorem nullOutside_iff (low : phys.totalUsableLower ≤ 0xA0000) :
    NullOutside phys ↔ phys.totalUsableLower % 4096 = 0 ∧
      addressCount ≤ 0x100000 + phys.totalUsableUpper := by
  unfold NullOutside getAlloc addressToIndex Usable addressCount
  simp only [alignPage_eq]
  constructor
  · intro null
    constructor
    · by_contra partly
      have isNull := null phys.totalUsableLower (by omega) (by omega)
      rw [if_pos (by omega)] at isNull
      cases isNull
    · by_contra below
      have isNull := null 0xFFFFFFFF (by omega) (by omega)
      rw [if_neg (by omega), if_pos (by omega)] at isNull
      cases isNull
  · rintro ⟨lower, upper⟩ addr bound outside
    rw [if_neg (by omega), if_neg (by omega)]

end Numbering

/-- What `init_phys_memory` makes of the sizes that the boot loader reports is a
numbering of the usable pages that has no slots for other addresses exactly if the
lower memory ends with a page and the upper memory takes all pages up to 4 GiB. -/
theorem numbering_iff {memoryLower memoryUpper : Nat} (lower : memoryLower ≤ 640)
    (upper : memoryUpper * 1024 < addressCount) (lastModEnd : Nat) (behind : Nat → Nat) :
    Numbered (initPhysMemory memoryLower memoryUpper lastModEnd behind) ∧
        NullOutside (initPhysMemory memoryLower memoryUpper lastModEnd behind) ↔
      memoryLower % 4 = 0 ∧ memoryUpper / 4 = 2 ^ 20 - 2 ^ 8 := by
  have same := initPhysMemory_same memoryLower memoryUpper lastModEnd behind
  generalize initPhysMemory memoryLower memoryUpper lastModEnd behind = phys at same ⊢
  have small : memoryLower * 1024 < addressCount :=
    Nat.lt_of_le_of_lt (Nat.mul_le_mul_right 1024 lower) (by decide)
  have isLower : phys.totalUsableLower = memoryLower * 1024 := by
    rw [same.lower]
    exact Nat.mod_eq_of_lt small
  have isUpper : phys.totalUsableUpper = memoryUpper * 1024 := by
    rw [same.upper]
    exact Nat.mod_eq_of_lt upper
  rw [numbered_iff (by omega), nullOutside_iff (by omega)]
  unfold addressCount at *
  constructor
  · rintro ⟨whole, partly, reaches⟩
    have wholeUpper := whole.upper
    unfold addressCount at wholeUpper
    omega
  · rintro ⟨isWhole, isAll⟩
    refine ⟨⟨by omega, ?_⟩, by omega, by omega⟩
    unfold addressCount
    omega

theorem numbering_iff_full : Numbered (initPhysMemory 640 4193280 0x200000 fun _ => 0) ∧
    NullOutside (initPhysMemory 640 4193280 0x200000 fun _ => 0) :=
  (numbering_iff (by decide) (by decide) 0x200000 fun _ => 0).mpr ⟨by decide, by decide⟩

/-- With 639 KiB of lower memory the page at `0x9F000` has the slot of the one at `0x100000`. -/
theorem numbering_fails : ¬(Numbered (initPhysMemory 639 64512 0x200000 fun _ => 0) ∧
    NullOutside (initPhysMemory 639 64512 0x200000 fun _ => 0)) := by
  have same := initPhysMemory_same 639 64512 0x200000 fun _ => 0
  generalize initPhysMemory 639 64512 0x200000 (fun _ => 0) = phys at same
  have isLower : phys.totalUsableLower = 654336 := same.lower
  have isUpper : phys.totalUsableUpper = 66060288 := same.upper
  rintro ⟨numbered, -⟩
  have first : phys.UsablePage 0x9F000 := ⟨by decide, by decide, .inl (by omega)⟩
  have second : phys.UsablePage 0x100000 := ⟨by decide, by decide, .inr (by omega)⟩
  refine absurd (numbered.distinct _ _ first second ?_) (by decide)
  unfold addressToIndex totalUsableLowerPages
  rw [isLower]
  rfl

end Dbos.Paging.Phys
