import Dbos.Libraries.AllocRequests

/-! # Reallocation

`alloc_reallocate` frees the block and asks for another one. Nothing is copied, and the new
block is cleared wherever it lies, so the contents survive only if they are 0. -/

namespace Dbos.Bootstrap

open Dbos.ByteMemory Dbos.Heap

/-- `alloc_free`, which is the text of `kern_free` once more. -/
def allocFree (state : State) (memory : Nat) : State := kernFree state memory

def allocReallocate (state : State) (memory size : Nat) : Option (Nat × State) :=
  allocAllocate (allocFree state memory) size

def realloc (state : State) (ptr size : Nat) : Option (Nat × State) :=
  if size = 0 then some (0, allocFree state ptr)
  else if ptr = 0 then allocAllocate state size
  else allocReallocate state ptr size

/-! ## What `realloc` promises -/

/-- The block has its header and its contents. -/
structure Unchanged (state next : State) (block : Block) : Prop where
  size : getSize next.memory block.address = block.size
  present : getPresent next.memory block.address = block.present
  payload : SameOn block.payload block.stop next.memory state.memory

/-- Either `NULL`, with the block as it was, or a block of the new size with the old contents,
as far as both sizes go, and the other blocks in use as they were. -/
def Reallocated (state : State) (blocks : List Block) (block : Block) (size : Nat)
    (result : Option (Nat × State)) : Prop :=
  ∃ pointer next, result = some (pointer, next) ∧
    (pointer = 0 ∧ Unchanged state next block ∨
      InHeap next size pointer ∧
        (∀ index < min block.size size,
          load next.memory (pointer + index) = load state.memory (block.payload + index)) ∧
        ∀ other ∈ blocks, other.present = true → other.address ≠ block.address →
          Unchanged state next other)

/-! ## The block that is freed -/

/-- The blocks after `alloc_free`. -/
def release (address : Nat) (blocks : List Block) : List Block :=
  blocks.map fun block => if block.address = address then { block with present := false } else block

section Free

variable {state : State} {blocks : List Block} {block : Block}
  (wellFormed : WellFormed .user state blocks) (member : block ∈ blocks)
include wellFormed member

theorem release_eq : ∃ before after, blocks = before ++ block :: after ∧
    release block.address blocks = before ++ { block with present := false } :: after := by
  rcases List.append_of_mem member with ⟨before, after, rfl⟩
  refine ⟨before, after, rfl, ?_⟩
  rcases wellFormed.tiled with ⟨-, -, last, tiles, -⟩
  have others : ∀ other ∈ before ++ after, other.address ≠ block.address := by
    intro other isOther
    have apart := tiles.apart isOther
    unfold Block.stop headerSize at apart
    omega
  unfold release
  rw [List.map_append, List.map_cons, if_pos rfl]
  congr 1
  · refine (List.map_congr_left fun other isBefore => ?_).trans (List.map_id _)
    exact if_neg (others other (List.mem_append_left _ isBefore))
  · congr 1
    refine (List.map_congr_left fun other isAfter => ?_).trans (List.map_id _)
    exact if_neg (others other (List.mem_append_right _ isAfter))

theorem allocFree_wellFormed :
    WellFormed .user (allocFree state block.payload) (release block.address blocks) := by
  rcases release_eq wellFormed member with ⟨before, after, rfl, isRelease⟩
  rw [isRelease]
  exact ⟨(kernFree_whole wellFormed.whole).tiled, wellFormed.low, wellFormed.high,
    wellFormed.aligned⟩

theorem allocFree_spec :
    getPresent (allocFree state block.payload).memory block.address = false ∧
      ∀ other ∈ blocks, SameOn other.payload other.stop
        (allocFree state block.payload).memory state.memory := by
  have whole := wellFormed.whole
  rcases kernFree_eq whole member with ⟨isFreed, bound⟩
  unfold allocFree
  rw [isFreed]
  refine ⟨getPresent_setPresent _ _ _, fun other isOther => ?_⟩
  have bounded := whole.bounded
  have bounds := (whole.bounds isOther).2
  rcases whole.tiled with ⟨-, -, last, tiles, -⟩
  refine sameOn_setPresent bound (by omega) ?_
  by_cases same : other.address = block.address
  · unfold Block.payload headerSize
    omega
  · have apart := tiles.disjoint member isOther same
    unfold Block.payload Block.stop headerSize at *
    omega

end Free

/-! ## When the contents survive -/

/-- The request can be served once the block is free, and all contents to be kept are 0. -/
def Survives (state : State) (blocks : List Block) (block : Block) (size : Nat) : Prop :=
  Servable (allocFree state block.payload) (release block.address blocks) size ∧
    ∀ index < min block.size size, load state.memory (block.payload + index) = 0

section Survives

variable {state : State} {blocks : List Block} {block : Block} {size : Nat}
  (wellFormed : WellFormed .user state blocks) (member : block ∈ blocks)
include wellFormed member

theorem release_ne_nil : release block.address blocks ≠ [] := by
  rcases release_eq wellFormed member with ⟨before, after, -, isRelease⟩
  rw [isRelease]
  exact List.append_ne_nil_of_right_ne_nil _ (List.cons_ne_nil _ _)

theorem not_reallocated (present : block.present = true) (bound : size < space)
    (notServable : ¬Servable (allocFree state block.payload) (release block.address blocks) size) :
    ¬Reallocated state blocks block size (allocReallocate state block.payload size) := by
  rintro ⟨pointer, next, isResult, promise⟩
  have freed := allocFree_wellFormed wellFormed member
  rcases allocate_not_served freed (release_ne_nil wellFormed member) bound notServable with
    ⟨other, final, isOther, notNull, short⟩ | ⟨heap, isNull⟩
  · have isSame := Option.some.inj (isOther.symm.trans isResult)
    rw [Prod.mk.injEq] at isSame
    rw [isSame.1] at notNull short
    rw [isSame.2] at short
    rcases promise with ⟨isZero, -⟩ | ⟨inHeap, -⟩
    · exact notNull isZero
    · have enough := inHeap.enough
      have below := inHeap.below
      omega
  · have isSame := Option.some.inj (isNull.symm.trans isResult)
    rw [Prod.mk.injEq] at isSame
    rcases promise with ⟨-, unchanged⟩ | ⟨inHeap, -⟩
    · have isFree := (allocFree_spec wellFormed member).1
      have inUse := unchanged.present
      rw [← isSame.2, present] at inUse
      simp only at inUse
      rw [isFree] at inUse
      cases inUse
    · have above := inHeap.above
      rw [← isSame.1] at above
      unfold headerSize at above
      omega

theorem reallocated_iff_of_servable
    (servable : Servable (allocFree state block.payload) (release block.address blocks) size) :
    Reallocated state blocks block size (allocReallocate state block.payload size) ↔
      ∀ index < min block.size size, load state.memory (block.payload + index) = 0 := by
  have freed := allocFree_wellFormed wellFormed member
  have contents := (allocFree_spec wellFormed member).2
  rcases allocate_served freed (release_ne_nil wellFormed member) servable with
    ⟨pointer, next, after, new, isResult, granted⟩
  have zero : ∀ index < size, load next.memory (pointer + index) = 0 := by
    intro index less
    have enough := granted.size
    have isPayload := granted.pointer
    apply granted.zero
    · omega
    · unfold Block.stop
      unfold Block.payload at isPayload
      omega
  constructor
  · rintro ⟨other, final, isFinal, promise⟩
    have isSame := Option.some.inj (isResult.symm.trans isFinal)
    rw [Prod.mk.injEq] at isSame
    rw [← isSame.1, ← isSame.2] at promise
    rcases promise with ⟨isZero, -⟩ | ⟨-, same, -⟩
    · have isPayload := granted.pointer
      unfold Block.payload headerSize at isPayload
      omega
    · intro index less
      rw [← same index less]
      exact zero index (by omega)
  · intro isZero
    refine ⟨pointer, next, isResult, .inr ⟨.of_granted granted, ?_, ?_⟩⟩
    · intro index less
      rw [isZero index less]
      exact zero index (by omega)
    · intro other isOther present different
      have isReleased : other ∈ release block.address blocks :=
        List.mem_map.mpr ⟨other, isOther, if_neg different⟩
      rcases granted.keptPresent isReleased present with ⟨stays, -, same⟩
      rcases granted.whole.tiled.2.1.at stays with ⟨following, otherAt⟩
      exact ⟨otherAt.size, otherAt.present, same.trans (contents other isOther)⟩

/-- `realloc` does what it should exactly if a block is found and nothing but zeros is lost. -/
theorem reallocated_iff (present : block.present = true) (positive : 0 < size)
    (bound : size < space) :
    Reallocated state blocks block size (realloc state block.payload size) ↔
      Survives state blocks block size := by
  have isRealloc : realloc state block.payload size =
      allocReallocate state block.payload size := by
    unfold realloc
    rw [if_neg (by omega), if_neg]
    unfold Block.payload headerSize
    omega
  rw [isRealloc]
  by_cases servable : Servable (allocFree state block.payload) (release block.address blocks) size
  · rw [reallocated_iff_of_servable wellFormed member servable]
    exact ⟨fun zero => ⟨servable, zero⟩, fun survives => survives.2⟩
  · exact iff_of_false (not_reallocated wellFormed member present bound servable)
      fun survives => servable survives.1

end Survives

theorem reallocated_iff_oneBlock :
    Reallocated (oneBlock .user) [⟨0x50000000, 16, true⟩] ⟨0x50000000, 16, true⟩ 40
      (realloc (oneBlock .user) 0x50000009 40) := by
  refine (reallocated_iff (wellFormed_oneBlock .user) (List.mem_singleton_self _) rfl (by decide)
    (by decide)).mpr ⟨?_, ?_⟩
  · decide +kernel
  · decide +kernel

def oneByteUsed : State :=
  { oneBlock .user with memory := store (oneBlock .user).memory 0x50000009 7 }

theorem wellFormed_oneByteUsed : WellFormed .user oneByteUsed [⟨0x50000000, 16, true⟩] := by
  refine ⟨⟨rfl, ⟨⟨?_, ?_, ?_⟩, trivial⟩, _, ⟨rfl, rfl⟩, ?_⟩, ?_, ?_, ?_⟩
  all_goals decide +kernel

/-- The 7 is lost. -/
theorem not_reallocated_oneByteUsed :
    WellFormed .user oneByteUsed [⟨0x50000000, 16, true⟩] ∧
      ¬Reallocated oneByteUsed [⟨0x50000000, 16, true⟩] ⟨0x50000000, 16, true⟩ 40
        (realloc oneByteUsed 0x50000009 40) := by
  refine ⟨wellFormed_oneByteUsed, fun reallocated => ?_⟩
  have zero := (reallocated_iff_of_servable wellFormed_oneByteUsed (List.mem_singleton_self _)
    (by decide +kernel)).mp reallocated 0 (by decide)
  exact absurd zero (by decide +kernel)

end Dbos.Bootstrap
