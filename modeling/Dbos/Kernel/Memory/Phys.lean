import Mathlib.Algebra.Group.Nat.Defs
import Mathlib.Logic.Function.Basic
import Mathlib.Data.Nat.Basic

/-! # Physical memory management

`memory_phys.c`. A page-aligned physical address is given by the number of its
frame, and the addresses `NULL` and 0 by 0. -/

namespace Dbos.Paging

/-- The number of frames that can be addressed. -/
def frameCount : Nat := 2 ^ 20

/-- The allocator. `allocations` holds the reference count at each index;
`failed` records that a frame has been asked for in vain and `wrapped` that a
count has gone past 255. -/
structure Phys where
  totalUsableLower : Nat
  totalUsableUpper : Nat
  allocations : Nat → Nat
  freeList : List (Option (Nat × Nat))
  failed : Bool
  wrapped : Bool

namespace Phys

def totalUsableLowerPages (phys : Phys) : Nat := phys.totalUsableLower / 4096

def totalUsablePages (phys : Phys) : Nat :=
  phys.totalUsableUpper / 4096 + phys.totalUsableLowerPages

/-- `alloc_phys_addr_to_index`, with `none` for -1. -/
def addrToIndex (phys : Phys) (frame : Nat) : Option Nat :=
  if frame * 4096 < phys.totalUsableLower then some frame
  else if 0x100 ≤ frame then some (phys.totalUsableLowerPages + (frame - 0x100))
  else none

/-- `alloc_phys_index_to_addr`. -/
def indexToAddr (phys : Phys) (index : Nat) : Nat :=
  if index < phys.totalUsableLowerPages then index
  else (index - phys.totalUsableLowerPages + 0x100) % frameCount

def setCount (phys : Phys) (index count : Nat) : Phys :=
  { phys with allocations := Function.update phys.allocations index count }

/-- `alloc_phys_increase_refcount`. -/
def increaseRefcount (phys : Phys) (frame : Nat) : Phys :=
  match phys.addrToIndex frame with
  | none => phys
  | some index =>
      if phys.allocations index ≥ 1 then
        { phys.setCount index ((phys.allocations index + 1) % 256) with
          wrapped := phys.wrapped || decide (255 ≤ phys.allocations index) }
      else phys

/-- `alloc_phys_decrease_refcount`. -/
def decreaseRefcount (phys : Phys) (frame : Nat) : Phys :=
  match phys.addrToIndex frame with
  | none => phys
  | some index =>
      if phys.allocations index > 0 then phys.setCount index (phys.allocations index - 1) else phys

/-- `alloc_phys_get_refcount`. -/
def getRefcount (phys : Phys) (frame : Nat) : Int :=
  match phys.addrToIndex frame with
  | none => -1
  | some index => phys.allocations index

/-- `alloc_phys_addr`. -/
def allocAddr (phys : Phys) (frame : Nat) : Phys :=
  match phys.addrToIndex frame with
  | none => phys
  | some index => if phys.allocations index = 0 then phys.setCount index 1 else phys

/-- `alloc_phys_free`. What it writes to the free list it writes to a copy. -/
def free (phys : Phys) (frame : Nat) : Phys :=
  match phys.addrToIndex frame with
  | none => phys
  | some index => phys.setCount index 0

/-- Where `alloc_phys_page` finds a frame in the free list. -/
def firstFreed (phys : Phys) : Option (Nat × Nat × Nat) :=
  phys.freeList.zipIdx.findSome? fun (entry, place) =>
    entry.map fun (index, frame) => (index, frame, place)

/-- `alloc_phys_page`. -/
def allocPage (phys : Phys) : Nat × Phys :=
  match phys.firstFreed with
  | some (index, frame, place) =>
      (frame, { phys.setCount index 1 with
        freeList := phys.freeList.set place none
        failed := phys.failed || decide (frame = 0) })
  | none =>
      match (List.range phys.totalUsablePages).find? fun index => phys.allocations index = 0 with
      | some index =>
          (phys.indexToAddr index, { phys.setCount index 1 with
            failed := phys.failed || decide (phys.indexToAddr index = 0) })
      | none => (0, { phys with failed := true })

/-! ## Frames that are managed -/

/-- What does not change after `init_phys_memory`: the lower memory ends below
1 MiB, the upper one below 4 GiB, and the free list is never filled. -/
structure Valid (phys : Phys) : Prop where
  lower : phys.totalUsableLower ≤ 0x100000
  upper : phys.totalUsableUpper + 0x100000 ≤ 2 ^ 32
  freeList : ∀ entry ∈ phys.freeList, entry = none

def Managed (phys : Phys) (frame : Nat) : Prop :=
  ∃ index < phys.totalUsablePages, phys.indexToAddr index = frame

def refcount (phys : Phys) (frame : Nat) : Nat :=
  match phys.addrToIndex frame with
  | none => 0
  | some index => phys.allocations index

/-- No frame has been asked for in vain, and no count has wrapped. -/
def Ok (phys : Phys) : Prop := phys.failed = false ∧ phys.wrapped = false

/-- The two allocators manage the same frames. -/
structure SameFrames (phys other : Phys) : Prop where
  lower : phys.totalUsableLower = other.totalUsableLower
  upper : phys.totalUsableUpper = other.totalUsableUpper
  freeList : phys.freeList = other.freeList

theorem SameFrames.valid {phys other : Phys} (same : SameFrames phys other)
    (valid : other.Valid) : phys.Valid :=
  ⟨same.lower ▸ valid.lower, same.upper ▸ valid.upper, same.freeList ▸ valid.freeList⟩

theorem SameFrames.managed_iff {phys other : Phys} (same : SameFrames phys other) (frame : Nat) :
    phys.Managed frame ↔ other.Managed frame := by
  unfold Managed totalUsablePages indexToAddr totalUsableLowerPages
  rw [same.lower, same.upper]

theorem SameFrames.trans {phys other third : Phys} (same : SameFrames phys other)
    (next : SameFrames other third) : SameFrames phys third :=
  ⟨same.lower.trans next.lower, same.upper.trans next.upper, same.freeList.trans next.freeList⟩

theorem addrToIndex_indexToAddr {phys : Phys} (valid : phys.Valid) {index : Nat}
    (bound : index < phys.totalUsablePages) :
    phys.addrToIndex (phys.indexToAddr index) = some index := by
  have lower := valid.lower
  have upper := valid.upper
  unfold totalUsablePages totalUsableLowerPages at bound
  unfold addrToIndex indexToAddr totalUsableLowerPages frameCount
  by_cases low : index < phys.totalUsableLower / 4096
  · rw [if_pos low, if_pos (by omega)]
  · rw [if_neg low, Nat.mod_eq_of_lt (by omega), if_neg (by omega), if_pos (by omega)]
    exact congrArg some (by omega)

theorem Managed.index {phys : Phys} (valid : phys.Valid) {frame : Nat}
    (managed : phys.Managed frame) :
    ∃ index < phys.totalUsablePages, phys.indexToAddr index = frame ∧
      phys.addrToIndex frame = some index := by
  rcases managed with ⟨index, bound, rfl⟩
  exact ⟨index, bound, rfl, addrToIndex_indexToAddr valid bound⟩

theorem Managed.lt {phys : Phys} (valid : phys.Valid) {frame : Nat}
    (managed : phys.Managed frame) : frame < frameCount := by
  rcases managed with ⟨index, bound, rfl⟩
  have lower := valid.lower
  unfold indexToAddr
  split
  case isTrue low =>
    unfold totalUsableLowerPages at low
    unfold frameCount
    omega
  case isFalse => exact Nat.mod_lt _ (by decide)

/-- The only count that has changed is the one of the frame. -/
structure Sets (phys next : Phys) (frame count : Nat) : Prop where
  same : SameFrames next phys
  refcount : ∀ other, phys.Managed other →
    next.refcount other = if other = frame then count else phys.refcount other

theorem sets_setCount {phys : Phys} (valid : phys.Valid) {frame index : Nat} (count : Nat)
    (isIndex : phys.addrToIndex frame = some index) (managed : phys.Managed frame) :
    Sets phys (phys.setCount index count) frame count := by
  refine ⟨⟨rfl, rfl, rfl⟩, fun other otherManaged => ?_⟩
  rcases managed.index valid with ⟨own, -, isFrame, isOwn⟩
  rcases otherManaged.index valid with ⟨place, -, isOther, isPlace⟩
  have sameIndex : own = index := Option.some_inj.mp (isOwn.symm.trans isIndex)
  have lookup : (phys.setCount index count).addrToIndex other = some place := isPlace
  unfold Phys.refcount
  rw [lookup, isPlace]
  simp only [setCount]
  by_cases same : other = frame
  · have samePlace : place = index := by
      rw [same, isIndex] at isPlace
      exact (Option.some_inj.mp isPlace).symm
    rw [if_pos same, samePlace, Function.update_self]
  · have differ : place ≠ index := by
      rintro rfl
      exact same (isOther.symm.trans (sameIndex ▸ isFrame))
    rw [if_neg same, Function.update_of_ne differ]

theorem refcount_of_index {phys : Phys} {frame index : Nat}
    (isIndex : phys.addrToIndex frame = some index) :
    phys.refcount frame = phys.allocations index := by
  unfold refcount
  rw [isIndex]

theorem getRefcount_eq {phys : Phys} (valid : phys.Valid) {frame : Nat}
    (managed : phys.Managed frame) : phys.getRefcount frame = phys.refcount frame := by
  rcases managed.index valid with ⟨index, -, -, isIndex⟩
  unfold getRefcount refcount
  rw [isIndex]

/-! ## What the operations do to the counts -/

theorem ok_of_increaseRefcount {phys : Phys} {frame : Nat}
    (ok : (phys.increaseRefcount frame).Ok) : phys.Ok := by
  unfold increaseRefcount Ok at ok
  unfold Ok
  split at ok
  · exact ok
  · split at ok
    · simp only [Bool.or_eq_false_iff] at ok
      exact ⟨ok.1, ok.2.1⟩
    · exact ok

theorem increaseRefcount_sets {phys : Phys} (valid : phys.Valid) {frame : Nat}
    (managed : phys.Managed frame) (counted : 1 ≤ phys.refcount frame)
    (ok : (phys.increaseRefcount frame).Ok) :
    Sets phys (phys.increaseRefcount frame) frame (phys.refcount frame + 1) := by
  rcases managed.index valid with ⟨index, -, -, isIndex⟩
  rw [refcount_of_index isIndex] at counted ⊢
  unfold increaseRefcount at ok ⊢
  simp only [isIndex, ge_iff_le, counted, if_true] at ok ⊢
  have small : ¬255 ≤ phys.allocations index := by
    have notWrapped := ok.2
    simp only [Bool.or_eq_false_iff, decide_eq_false_iff_not] at notWrapped
    exact notWrapped.2
  rw [Nat.mod_eq_of_lt (by omega)]
  have sets := sets_setCount valid (phys.allocations index + 1) isIndex managed
  exact ⟨⟨rfl, rfl, rfl⟩, sets.refcount⟩

theorem decreaseRefcount_sets {phys : Phys} (valid : phys.Valid) {frame : Nat}
    (managed : phys.Managed frame) :
    Sets phys (phys.decreaseRefcount frame) frame (phys.refcount frame - 1) := by
  rcases managed.index valid with ⟨index, -, -, isIndex⟩
  rw [refcount_of_index isIndex]
  unfold decreaseRefcount
  simp only [isIndex]
  split
  · exact sets_setCount valid _ isIndex managed
  case isFalse zero =>
    refine ⟨⟨rfl, rfl, rfl⟩, fun other otherManaged => ?_⟩
    split
    case isTrue same =>
      rw [same, refcount_of_index isIndex]
      omega
    case isFalse => rfl

theorem free_sets {phys : Phys} (valid : phys.Valid) {frame : Nat} (managed : phys.Managed frame) :
    Sets phys (phys.free frame) frame 0 := by
  rcases managed.index valid with ⟨index, -, -, isIndex⟩
  unfold free
  simp only [isIndex]
  exact sets_setCount valid 0 isIndex managed

@[simp] theorem ok_decreaseRefcount (phys : Phys) (frame : Nat) :
    (phys.decreaseRefcount frame).Ok ↔ phys.Ok := by
  unfold decreaseRefcount
  split
  · rfl
  · split <;> rfl

@[simp] theorem ok_free (phys : Phys) (frame : Nat) : (phys.free frame).Ok ↔ phys.Ok := by
  unfold free
  split <;> rfl

theorem firstFreed_of_valid {phys : Phys} (valid : phys.Valid) : phys.firstFreed = none := by
  unfold firstFreed
  rw [List.findSome?_eq_none_iff]
  rintro ⟨entry, place⟩ member
  have isNone := valid.freeList entry (List.fst_mem_of_mem_zipIdx member)
  simp [isNone]

theorem ok_of_allocPage {phys : Phys} (ok : phys.allocPage.2.Ok) : phys.Ok := by
  unfold allocPage Ok at ok
  unfold Ok
  split at ok
  · simp only [Bool.or_eq_false_iff] at ok
    exact ⟨ok.1.1, ok.2⟩
  · split at ok
    · simp only [Bool.or_eq_false_iff] at ok
      exact ⟨ok.1.1, ok.2⟩
    · simp at ok

theorem allocPage_spec {phys : Phys} (valid : phys.Valid) (ok : phys.allocPage.2.Ok) :
    phys.Managed phys.allocPage.1 ∧ phys.refcount phys.allocPage.1 = 0 ∧
      phys.allocPage.1 ≠ 0 ∧ Sets phys phys.allocPage.2 phys.allocPage.1 1 := by
  unfold allocPage at ok ⊢
  simp only [firstFreed_of_valid valid] at ok ⊢
  cases found : (List.range phys.totalUsablePages).find? fun index =>
      phys.allocations index = 0 with
  | none =>
      rw [found] at ok
      simp [Ok] at ok
  | some index =>
      rw [found] at ok
      have bound := List.mem_range.mp (List.mem_of_find?_eq_some found)
      have zero : phys.allocations index = 0 := by simpa using List.find?_some found
      have isIndex := addrToIndex_indexToAddr valid bound
      have managed : phys.Managed (phys.indexToAddr index) := ⟨index, bound, rfl⟩
      have notZero : phys.indexToAddr index ≠ 0 := by
        have notFailed := ok.1
        simp only [Bool.or_eq_false_iff, decide_eq_false_iff_not] at notFailed
        exact notFailed.2
      have sets := sets_setCount valid 1 isIndex managed
      exact ⟨managed, by rw [refcount_of_index isIndex, zero], notZero, ⟨rfl, rfl, rfl⟩,
        sets.refcount⟩

/-! ## Counts that only grow -/

/-- The same frames are managed, and no count is smaller than before. -/
structure Grows (phys next : Phys) : Prop where
  same : SameFrames next phys
  refcount : ∀ frame, phys.Managed frame → phys.refcount frame ≤ next.refcount frame

theorem Grows.refl (phys : Phys) : Grows phys phys :=
  ⟨⟨rfl, rfl, rfl⟩, fun _ _ => Nat.le_refl _⟩

theorem Grows.trans {phys next last : Phys} (first : Grows phys next) (second : Grows next last) :
    Grows phys last :=
  ⟨second.same.trans first.same, fun frame managed => Nat.le_trans (first.refcount frame managed)
    (second.refcount frame ((first.same.managed_iff frame).mpr managed))⟩

theorem Sets.grows {phys next : Phys} {frame count : Nat} (sets : Sets phys next frame count)
    (more : phys.refcount frame ≤ count) : Grows phys next := by
  refine ⟨sets.same, fun other managed => ?_⟩
  rw [sets.refcount other managed]
  split
  case isTrue same => rwa [same]
  case isFalse => exact Nat.le_refl _

theorem allocPage_grows {phys : Phys} (valid : phys.Valid) (ok : phys.allocPage.2.Ok) :
    Grows phys phys.allocPage.2 := by
  rcases allocPage_spec valid ok with ⟨-, free, -, sets⟩
  exact sets.grows (by omega)

theorem increaseRefcount_grows {phys : Phys} (valid : phys.Valid) {frame : Nat}
    (ok : (phys.increaseRefcount frame).Ok) : Grows phys (phys.increaseRefcount frame) := by
  unfold increaseRefcount at ok ⊢
  cases isIndex : phys.addrToIndex frame with
  | none => exact .refl phys
  | some index =>
      simp only [isIndex] at ok ⊢
      split
      case isFalse => exact .refl phys
      case isTrue counted =>
        simp only [counted, if_true] at ok
        have small : ¬255 ≤ phys.allocations index := by
          have notWrapped := ok.2
          simp only [Bool.or_eq_false_iff, decide_eq_false_iff_not] at notWrapped
          exact notWrapped.2
        refine ⟨⟨rfl, rfl, rfl⟩, fun other managed => ?_⟩
        rcases managed.index valid with ⟨place, -, -, isPlace⟩
        have lookup : ({ phys.setCount index ((phys.allocations index + 1) % 256) with
            wrapped := phys.wrapped || decide (255 ≤ phys.allocations index) } : Phys).addrToIndex
            other = some place := isPlace
        rw [refcount_of_index isPlace, refcount_of_index lookup]
        simp only [setCount]
        by_cases same : place = index
        · rw [same, Function.update_self]
          omega
        · rw [Function.update_of_ne same]

end Phys

end Dbos.Paging
