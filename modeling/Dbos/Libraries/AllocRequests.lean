import Dbos.Libraries.Bootstrap

/-! # Requests of any size

`kern_malloc` and `alloc_allocate` for every 32-bit size. The sizes are compared as `int`s,
rounded and added to addresses, and all of it wraps around. -/

namespace Dbos.Bootstrap

open Dbos.ByteMemory Dbos.Heap

/-! ## The two heaps -/

inductive Allocator where
  | kernel
  | user
deriving DecidableEq, Repr

namespace Allocator

def grow : Allocator → KernHeap → Nat → KernHeap
  | .kernel => increaseHeap
  | .user => increaseMemory

def allocate : Allocator → State → Nat → Option (Nat × State)
  | .kernel => kernMalloc
  | .user => allocAllocate

def low : Allocator → Nat
  | .kernel => kernelHeapInitAddr
  | .user => allocHeapStart

/-- Where the heap ends at the latest: below the page tables at `VIRT_PAGE_TAB_ADDR`, and
below the kernel. -/
def high : Allocator → Nat
  | .kernel => 0xFFC00000
  | .user => 0xC0000000

theorem allocate_eq (allocator : Allocator) (state : State) (size : Nat) :
    allocator.allocate state size = allocateWith allocator.grow state size := by
  cases allocator <;> rfl

theorem high_le (allocator : Allocator) :
    allocator.high ≤ allocator.low + 2 ^ 31 ∧ allocator.high + 2 * pageByteLen ≤ space ∧
      0 < allocator.low := by
  cases allocator <;> decide

end Allocator

/-- A heap of whole pages. -/
structure WellFormed (allocator : Allocator) (state : State) (blocks : List Block) : Prop where
  tiled : Tiled state blocks
  low : allocator.low ≤ state.heap.start
  high : state.heap.heapEnd ≤ allocator.high
  aligned : state.heap.heapEnd % pageByteLen = 0

theorem WellFormed.whole {allocator : Allocator} {state : State} {blocks : List Block}
    (wellFormed : WellFormed allocator state blocks) : Whole state blocks := by
  have limits := allocator.high_le
  have low := wellFormed.low
  have high := wellFormed.high
  refine ⟨by omega, wellFormed.tiled, by unfold pageByteLen at limits; omega, fun block member => ?_⟩
  rcases wellFormed.tiled with ⟨-, -, last, tiles, below⟩
  have bounds := tiles.bounds member
  unfold Block.stop headerSize at bounds
  omega

/-! ## Answers -/

/-- The block before the pointer has the size, and lies inside the heap with its header. -/
structure InHeap (state : State) (size pointer : Nat) : Prop where
  above : state.heap.start + headerSize ≤ pointer
  enough : size ≤ getSize state.memory (pointer - headerSize)
  below : pointer + getSize state.memory (pointer - headerSize) ≤ state.heap.heapEnd

/-- The call returns such a block, or `NULL` and has changed no block. -/
def Answered (state : State) (size : Nat) (result : Option (Nat × State)) : Prop :=
  ∃ pointer next, result = some (pointer, next) ∧
    (InHeap next size pointer ∨
      pointer = 0 ∧ next.memory = state.memory ∧ next.heap.head = state.heap.head)

theorem InHeap.of_member {state : State} {blocks : List Block} {block : Block} {size pointer : Nat}
    (whole : Whole state blocks) (member : block ∈ blocks) (isPayload : pointer = block.payload)
    (enough : size ≤ block.size) : InHeap state size pointer := by
  rcases whole.tiled.2.1.at member with ⟨following, blockAt⟩
  have bounds := whole.bounds member
  have item : pointer - headerSize = block.address := by
    rw [isPayload]
    exact Nat.add_sub_cancel _ _
  refine ⟨?_, ?_, ?_⟩
  · rw [isPayload]
    exact Nat.add_le_add_right bounds.1 _
  · rw [item, blockAt.size]
    exact enough
  · rw [item, blockAt.size, isPayload]
    exact bounds.2

theorem InHeap.of_granted {state next : State} {blocks after : List Block} {size pointer : Nat}
    {block : Block} (granted : Granted state next blocks after size pointer block) :
    InHeap next size pointer :=
  .of_member granted.whole granted.member granted.pointer granted.size

/-- The call returns a pointer to less than what is asked for. -/
def TooLong (size : Nat) (result : Option (Nat × State)) : Prop :=
  ∃ pointer next, result = some (pointer, next) ∧ pointer ≠ 0 ∧
    next.heap.heapEnd < pointer + size

theorem TooLong.not_answered {state : State} {size : Nat} {result : Option (Nat × State)}
    (tooLong : TooLong size result) : ¬Answered state size result := by
  rcases tooLong with ⟨pointer, next, rfl, notNull, short⟩
  rintro ⟨other, final, isResult, answer⟩
  rw [Option.some.injEq, Prod.mk.injEq] at isResult
  rw [← isResult.1, ← isResult.2] at answer
  rcases answer with inHeap | isNull
  · have enough := inHeap.enough
    have below := inHeap.below
    omega
  · exact notNull isNull.1

/-! ## A request behind the last block -/

/-- The size with the header, in steps of 8 bytes. -/
def roundedSize (size : Nat) : Nat := (size + 7) / 8 * 8 + headerSize

theorem totalSize_mod (size : Nat) :
    totalSize size = roundedSize size % space := by
  unfold totalSize roundedSize headerSize space at *
  omega

theorem heapEnd_grow (allocator : Allocator) {heap : KernHeap} (bounded : heap.heapEnd < space)
    {bytes : Nat} (positive : 0 < bytes) (small : bytes < 2 ^ 31) :
    (allocator.grow heap bytes).heapEnd = (heap.heapEnd + pagesFor bytes * pageByteLen) % space := by
  have isEnd := (iterate_increaseHeapPage (pagesFor bytes) bounded).1
  have isPositive : toInt bytes > 0 := by
    rw [toInt_of_lt small]
    omega
  cases allocator with
  | kernel => exact isEnd
  | user =>
      have grows : increaseMemory heap bytes = increaseHeap heap bytes := if_pos isPositive
      exact (congrArg KernHeap.heapEnd grows).trans isEnd

theorem aligned_grow (allocator : Allocator) {heap : KernHeap} (bounded : heap.heapEnd < space)
    (aligned : heap.heapEnd % pageByteLen = 0) (bytes : Nat) :
    (allocator.grow heap bytes).heapEnd % pageByteLen = 0 ∧
      (allocator.grow heap bytes).heapEnd < space ∧
      (allocator.grow heap bytes).start = heap.start ∧
      (allocator.grow heap bytes).head = heap.head := by
  rcases iterate_increaseHeapPage (pagesFor bytes) bounded with ⟨isEnd, isStart, isHead⟩
  have pages : (increaseHeap heap bytes).heapEnd % pageByteLen = 0 ∧
      (increaseHeap heap bytes).heapEnd < space ∧ (increaseHeap heap bytes).start = heap.start ∧
      (increaseHeap heap bytes).head = heap.head := by
    unfold increaseHeap
    refine ⟨?_, ?_, isStart, isHead⟩
    · rw [isEnd]
      unfold space pageByteLen at *
      omega
    · rw [isEnd]
      exact Nat.mod_lt _ (by decide)
  cases allocator with
  | kernel => exact pages
  | user =>
      rw [show Allocator.user.grow heap bytes = increaseMemory heap bytes from rfl]
      unfold increaseMemory
      split
      · exact pages
      · exact ⟨aligned, bounded, rfl, rfl⟩

section Append

variable {allocator : Allocator} {state : State} {before : List Block} {last : Block} {size : Nat}

/-- The heap that the request is appended to. -/
def grownHeap (allocator : Allocator) (state : State) (last : Block) (size : Nat) : KernHeap :=
  if (last.stop + totalSize size) % space < state.heap.heapEnd then state.heap
  else allocator.grow state.heap (totalSize size)

theorem grownHeap_spec (wellFormed : WellFormed allocator state (before ++ [last])) :
    (grownHeap allocator state last size).heapEnd % pageByteLen = 0 ∧
      (grownHeap allocator state last size).heapEnd < space ∧
      (grownHeap allocator state last size).start = state.heap.start ∧
      (grownHeap allocator state last size).head = state.heap.head := by
  have bounded := wellFormed.whole.bounded
  unfold grownHeap
  split
  · exact ⟨wellFormed.aligned, bounded, rfl, rfl⟩
  · exact aligned_grow allocator bounded wellFormed.aligned _

theorem appendWith_eq (wellFormed : WellFormed allocator state (before ++ [last])) :
    appendWith allocator.grow state last.address size =
      if (last.stop + totalSize size) % space < (grownHeap allocator state last size).heapEnd then
        clear ⟨appended state.memory last size, grownHeap allocator state last size⟩ last.stop
      else (0, ⟨state.memory, grownHeap allocator state last size⟩) := by
  have whole := wellFormed.whole
  have bounds := (whole.bounds (show last ∈ before ++ [last] by simp)).2
  have bounded := whole.bounded
  have hsaddr : (last.address + headerSize + getSize state.memory last.address) % space =
      last.stop := by
    rw [(linked_append.mp whole.tiled.2.1).2.1.size]
    exact Nat.mod_eq_of_lt (Nat.lt_of_le_of_lt bounds bounded)
  unfold appendWith appended grownHeap
  simp only [hsaddr]

theorem answered_appendWith (wellFormed : WellFormed allocator state (before ++ [last]))
    (fits : last.stop + roundedSize size < space) :
    Answered state size (some (appendWith allocator.grow state last.address size)) := by
  have whole := wellFormed.whole
  have sizeBound : size + headerSize ≤ roundedSize size := by
    unfold roundedSize
    omega
  have total : totalSize size = roundedSize size := by
    rw [totalSize_mod, Nat.mod_eq_of_lt (by omega)]
  rcases @grownHeap_spec allocator state before last size wellFormed with
    ⟨-, grownBounded, isStart, isHead⟩
  rw [appendWith_eq wellFormed, total, Nat.mod_eq_of_lt fits]
  split
  case isTrue room =>
    have lastBounds := whole.bounds (show last ∈ before ++ [last] by simp)
    have newBound : last.stop + headerSize ≤ space := by omega
    rcases whole.tiled with ⟨-, linked, upTo, tiles, -⟩
    rcases tiles_append.mp tiles with ⟨middle, tilesBefore, isMiddle, -⟩
    rw [← isMiddle] at tilesBefore
    have newLinked := linked_appended newBound (show size < space by omega) linked tilesBefore
    have newAt : Block.At (appended state.memory last size) 0 ⟨last.stop, size, true⟩ :=
      (linked_append.mp newLinked).2.2.1
    have newStop : Block.stop ⟨last.stop, size, true⟩ = last.stop + headerSize + size := rfl
    have newPayload : Block.payload ⟨last.stop, size, true⟩ = last.stop + headerSize := rfl
    have cleared := @clear_eq _ (grownHeap allocator state last size) _ _ newAt (by omega)
    have isSize : getSize (fill (appended state.memory last size) (last.stop + headerSize) 0 size)
        last.stop = size :=
      (newAt.congr (sameOn_fill (by omega) newBound (.inl (Nat.le_refl _)))).size
    refine ⟨_, _, congrArg some cleared, .inl ⟨?_, ?_, ?_⟩⟩
    · rw [newPayload, isStart]
      have inLast : last.address ≤ last.stop := by
        unfold Block.stop
        omega
      omega
    · rw [newPayload, Nat.add_sub_cancel]
      exact Nat.le_of_eq isSize.symm
    · rw [newPayload, Nat.add_sub_cancel]
      refine Nat.le_trans (Nat.le_of_eq (congrArg (last.stop + headerSize + ·) isSize)) ?_
      simp only
      omega
  case isFalse => exact ⟨0, _, rfl, .inr ⟨rfl, rfl, isHead⟩⟩

/-- The heap has room for the new block, or grows without wrapping around. -/
def HasRoom (state : State) (stop size : Nat) : Prop :=
  stop + roundedSize size < state.heap.heapEnd ∨
    roundedSize size < 2 ^ 31 ∧
      state.heap.heapEnd + pagesFor (roundedSize size) * pageByteLen < space

instance (state : State) (stop size : Nat) : Decidable (HasRoom state stop size) :=
  inferInstanceAs (Decidable (_ ∨ _ ∧ _))

theorem totalSize_eq_roundedSize (fits : last.stop + roundedSize size < space) :
    totalSize size = roundedSize size ∧ size + headerSize ≤ roundedSize size := by
  rw [totalSize_mod, Nat.mod_eq_of_lt (by omega)]
  unfold roundedSize
  omega

theorem small_of_hasRoom (wellFormed : WellFormed allocator state (before ++ [last]))
    (room : HasRoom state last.stop size) : roundedSize size < 2 ^ 31 := by
  have limits := allocator.high_le
  have low := wellFormed.low
  have high := wellFormed.high
  have bounds := wellFormed.whole.bounds (show last ∈ before ++ [last] by simp)
  rcases room with fits | grows
  · unfold Block.stop at fits bounds
    omega
  · exact grows.1

theorem appendWith_served (wellFormed : WellFormed allocator state (before ++ [last]))
    (fits : last.stop + roundedSize size < space) (room : HasRoom state last.stop size) :
    ∃ next, appendWith allocator.grow state last.address size = (last.stop + headerSize, next) ∧
      Granted state next (before ++ [last]) (before ++ [last, ⟨last.stop, size, true⟩]) size
        (last.stop + headerSize) ⟨last.stop, size, true⟩ := by
  have whole := wellFormed.whole
  have small := small_of_hasRoom wellFormed room
  rcases totalSize_eq_roundedSize fits with ⟨isTotal, larger⟩
  have positive : 0 < totalSize size := by
    unfold headerSize at larger
    omega
  have grows : allocator.grow state.heap (totalSize size) =
      increaseHeap state.heap (totalSize size) := by
    cases allocator with
    | kernel => rfl
    | user =>
        refine if_pos ?_
        rw [toInt_of_lt (by omega)]
        omega
  have isAppend : appendWith allocator.grow state last.address size =
      append state last.address size := by
    unfold appendWith append
    simp only [grows]
  have isHeap : (append state last.address size).2.heap =
      grownHeap allocator state last size := by
    rw [← isAppend, appendWith_eq wellFormed]
    split <;> rfl
  rw [isAppend]
  rw [← isTotal] at fits small larger
  apply append_granted whole (by omega) fits
  rw [isHeap]
  unfold grownHeap
  rw [Nat.mod_eq_of_lt fits]
  split
  case isTrue => exact Nat.le_refl _
  case isFalse full =>
    unfold HasRoom at room
    rw [← isTotal] at room
    rw [heapEnd_grow allocator whole.bounded positive small,
      Nat.mod_eq_of_lt (room.resolve_left full).2]
    exact Nat.le_add_right _ _

theorem appendWith_null (wellFormed : WellFormed allocator state (before ++ [last]))
    (fits : last.stop + roundedSize size < space) (noRoom : ¬HasRoom state last.stop size) :
    ∃ heap, appendWith allocator.grow state last.address size = (0, ⟨state.memory, heap⟩) := by
  have limits := allocator.high_le
  have low := wellFormed.low
  have bounds := wellFormed.whole.bounds (show last ∈ before ++ [last] by simp)
  have bounded := wellFormed.whole.bounded
  rcases totalSize_eq_roundedSize fits with ⟨isTotal, larger⟩
  unfold HasRoom at noRoom
  rw [not_or, ← isTotal] at noRoom
  rw [← isTotal] at fits larger
  have full : (grownHeap allocator state last size).heapEnd ≤ last.stop + totalSize size := by
    unfold grownHeap
    rw [Nat.mod_eq_of_lt fits, if_neg noRoom.1]
    by_cases small : totalSize size < 2 ^ 31
    · have pages : pagesFor (totalSize size) * pageByteLen < totalSize size + pageByteLen := by
        unfold pagesFor pageByteLen
        split <;> omega
      rw [heapEnd_grow allocator bounded (by unfold headerSize at larger; omega) small]
      have wraps : ¬state.heap.heapEnd + pagesFor (totalSize size) * pageByteLen < space :=
        fun inside => noRoom.2 ⟨small, inside⟩
      unfold pageByteLen space at *
      omega
    · cases allocator with
      | kernel =>
          unfold Allocator.low kernelHeapInitAddr at low
          unfold Block.stop space at *
          simp only at low
          omega
      | user =>
          have same : increaseMemory state.heap (totalSize size) = state.heap := by
            refine if_neg ?_
            unfold toInt
            rw [if_neg small]
            unfold space at *
            omega
          rw [show Allocator.user.grow state.heap (totalSize size) =
            increaseMemory state.heap (totalSize size) from rfl, same]
          omega
  have isAppend := @appendWith_eq allocator state before last size wellFormed
  rw [Nat.mod_eq_of_lt fits, if_neg (by omega)] at isAppend
  exact ⟨_, isAppend⟩

theorem tooLong_appendWith (wellFormed : WellFormed allocator state (before ++ [last]))
    (bound : size < space) (wraps : space ≤ last.stop + roundedSize size) :
    TooLong size (some (appendWith allocator.grow state last.address size)) := by
  have limits := allocator.high_le
  have whole := wellFormed.whole
  have high := wellFormed.high
  have bounds := whole.bounds (show last ∈ before ++ [last] by simp)
  have positive := whole.positive
  have total := totalSize_mod size
  have rounded : roundedSize size ≤ size + 7 + headerSize := by
    unfold roundedSize
    omega
  rcases @grownHeap_spec allocator state before last size wellFormed with ⟨aligned, grownBounded, -, -⟩
  have room : (last.stop + totalSize size) % space <
      (grownHeap allocator state last size).heapEnd := by
    unfold grownHeap
    split
    case isTrue fits => exact fits
    case isFalse full =>
      -- Only for sizes that are rounded up to 0 is there more to compare than the wrapped sum.
      have fewBytes : 0 < totalSize size ∧ totalSize size ≤ headerSize := by
        unfold headerSize pageByteLen at *
        unfold roundedSize headerSize space at *
        omega
      have onePage : pagesFor (totalSize size) = 1 := by
        unfold pagesFor headerSize pageByteLen at *
        split <;> omega
      rw [heapEnd_grow allocator whole.bounded fewBytes.1
        (Nat.lt_of_le_of_lt fewBytes.2 (by decide)), onePage]
      unfold headerSize pageByteLen space at *
      omega
  have pointer : (last.stop + headerSize) % space = last.stop + headerSize := by
    apply Nat.mod_eq_of_lt
    unfold headerSize pageByteLen at *
    omega
  rw [appendWith_eq wellFormed, if_pos room]
  unfold clear
  rw [pointer]
  refine ⟨_, _, rfl, ?_, ?_⟩
  · unfold headerSize
    omega
  · simp only
    unfold headerSize pageByteLen space at *
    omega

end Append

/-! ## A request in the middle -/

theorem reuse_eq_clear (state : State) (item size : Nat) :
    ∃ memory, reuse state item size = clear ⟨memory, state.heap⟩ item := by
  unfold reuse
  simp only
  split
  · exact ⟨_, rfl⟩
  · exact ⟨_, rfl⟩

theorem tooLong_reuse {allocator : Allocator} {state : State} {blocks : List Block}
    {block : Block} {size : Nat} (wellFormed : WellFormed allocator state blocks)
    (member : block ∈ blocks) (negative : 2 ^ 31 ≤ size) :
    TooLong size (some (reuse state block.address size)) := by
  have limits := allocator.high_le
  have low := wellFormed.low
  have high := wellFormed.high
  have bounds := wellFormed.whole.bounds member
  have bounded := wellFormed.whole.bounded
  have payload : (block.address + headerSize) % space = block.address + headerSize := by
    apply Nat.mod_eq_of_lt
    unfold Block.stop at bounds
    omega
  rcases reuse_eq_clear state block.address size with ⟨memory, isResult⟩
  rw [isResult]
  unfold clear
  rw [payload]
  refine ⟨_, _, rfl, ?_, ?_⟩
  · unfold headerSize
    omega
  · unfold headerSize
    simp only
    omega

theorem answered_reuse {state : State} {before after : List Block} {block : Block} {size : Nat}
    (whole : Whole state (before ++ block :: after)) (small : size < 2 ^ 31)
    (accepted : block.Accepted size) :
    Answered state size (some (reuse state block.address size)) := by
  rw [Block.Accepted, toInt_of_lt small] at accepted
  have granted := reuse_granted whole accepted.2 (Int.ofNat_le.mp accepted.1)
  rcases (⟨_, rfl⟩ : ∃ result, result = reuse state block.address size) with ⟨result, isResult⟩
  rw [← isResult] at granted ⊢
  exact ⟨result.1, result.2, rfl, .inl (.of_granted granted)⟩

/-! ## Which requests are answered -/

/-- Where the last block ends. -/
def lastStop (blocks : List Block) : Nat := (blocks.getLast?.map Block.stop).getD 0

/-- If the search takes a block before the last one, the size is no negative `int`; and if
not, the end of the new block is below `2 ^ 32`. -/
def Answerable (blocks : List Block) (size : Nat) : Prop :=
  if ∃ block ∈ blocks.dropLast, block.Accepted size then size < 2 ^ 31
  else lastStop blocks + roundedSize size < space

instance (blocks : List Block) (size : Nat) : Decidable (Answerable blocks size) :=
  inferInstanceAs (Decidable (if ∃ block ∈ blocks.dropLast, block.Accepted size then size < 2 ^ 31
    else lastStop blocks + roundedSize size < space))

/-- What a call comes to: the block that the search takes, or the last one. -/
theorem allocate_cases {allocator : Allocator} {state : State} {blocks : List Block}
    (wellFormed : WellFormed allocator state blocks) (nonempty : blocks ≠ []) (size : Nat) :
    ∃ before block after, blocks = before ++ block :: after ∧
      (after = [] ∧ (¬∃ other ∈ blocks.dropLast, other.Accepted size) ∧
          lastStop blocks = block.stop ∧
          allocator.allocate state size =
            some (appendWith allocator.grow state block.address size) ∨
        (∃ other ∈ blocks.dropLast, other.Accepted size) ∧ block.Accepted size ∧
          allocator.allocate state size = some (reuse state block.address size)) := by
  have whole := wellFormed.whole
  have notNull : state.heap.head ≠ 0 := fun isNull =>
    nonempty (whole.head_eq_zero_iff.mp isNull)
  rcases whole.findItem nonempty size with
    ⟨before, block, after, rfl, isFound, isLast, skipped, accepted⟩
  refine ⟨before, block, after, rfl, ?_⟩
  rw [allocator.allocate_eq]
  unfold allocateWith
  rw [if_neg notNull, isFound, Option.map_some]
  by_cases last : after = []
  · subst last
    refine .inl ⟨rfl, ?_, ?_, ?_⟩
    · rw [List.dropLast_concat]
      rintro ⟨other, member, isAccepted⟩
      exact skipped other member isAccepted
    · unfold lastStop
      rw [List.getLast?_concat]
      rfl
    · rw [if_pos (isLast.mpr rfl)]
  · refine .inr ⟨⟨block, ?_, accepted last⟩, accepted last, ?_⟩
    · rw [List.dropLast_append_of_ne_nil (List.cons_ne_nil _ _), List.dropLast_cons_of_ne_nil last]
      simp
    · rw [if_neg fun isZero => last (isLast.mp isZero)]

theorem answered_of_answerable {allocator : Allocator} {state : State} {blocks : List Block}
    {size : Nat} (wellFormed : WellFormed allocator state blocks) (nonempty : blocks ≠ [])
    (answerable : Answerable blocks size) :
    Answered state size (allocator.allocate state size) := by
  unfold Answerable at answerable
  rcases allocate_cases wellFormed nonempty size with
    ⟨before, block, after, rfl, ⟨rfl, refused, stop, isResult⟩ | ⟨found, accepted, isResult⟩⟩
  · rw [if_neg refused, stop] at answerable
    rw [isResult]
    exact answered_appendWith wellFormed answerable
  · rw [if_pos found] at answerable
    rw [isResult]
    exact answered_reuse wellFormed.whole answerable accepted

theorem tooLong_of_not_answerable {allocator : Allocator} {state : State}
    {blocks : List Block} {size : Nat} (wellFormed : WellFormed allocator state blocks)
    (nonempty : blocks ≠ []) (bound : size < space) (notAnswerable : ¬Answerable blocks size) :
    TooLong size (allocator.allocate state size) := by
  unfold Answerable at notAnswerable
  rcases allocate_cases wellFormed nonempty size with
    ⟨before, block, after, rfl, ⟨rfl, refused, stop, isResult⟩ | ⟨found, accepted, isResult⟩⟩
  · rw [if_neg refused, stop] at notAnswerable
    rw [isResult]
    exact tooLong_appendWith wellFormed bound (by omega)
  · rw [if_pos found] at notAnswerable
    rw [isResult]
    exact tooLong_reuse wellFormed (by simp) (by omega)

/-- Either allocator answers exactly these requests. -/
theorem answered_iff (allocator : Allocator) {state : State} {blocks : List Block} {size : Nat}
    (wellFormed : WellFormed allocator state blocks) (nonempty : blocks ≠ [])
    (bound : size < space) :
    Answered state size (allocator.allocate state size) ↔ Answerable blocks size := by
  constructor
  · intro answered
    by_contra notAnswerable
    exact (tooLong_of_not_answerable wellFormed nonempty bound notAnswerable).not_answered answered
  · exact answered_of_answerable wellFormed nonempty

/-- A heap of one page with one block of 16 bytes. -/
def oneBlock (allocator : Allocator) : State where
  memory := setPresent (setNext (setSize (fun _ => 0) allocator.low 16) allocator.low 0)
    allocator.low true
  heap := ⟨pageByteLen, allocator.low, allocator.low + pageByteLen, allocator.low⟩

theorem wellFormed_oneBlock (allocator : Allocator) :
    WellFormed allocator (oneBlock allocator) [⟨allocator.low, 16, true⟩] := by
  have bound : allocator.low + headerSize ≤ space := by cases allocator <;> decide
  refine ⟨⟨rfl, ⟨?_, trivial⟩, _, ⟨rfl, rfl⟩, ?_⟩, Nat.le_refl _, ?_, ?_⟩
  · exact at_of_written _ bound true (by decide) (by decide)
  · cases allocator <;> decide
  · cases allocator <;> decide
  · cases allocator <;> decide

theorem answered_iff_oneBlock :
    Answered (oneBlock .kernel) 5000 (kernMalloc (oneBlock .kernel) 5000) ∧
      Answered (oneBlock .user) 0x90000000 (allocAllocate (oneBlock .user) 0x90000000) :=
  ⟨(answered_iff .kernel (wellFormed_oneBlock .kernel) (by simp) (by decide)).mpr (by decide),
    (answered_iff .user (wellFormed_oneBlock .user) (by simp) (by decide)).mpr (by decide)⟩

/-- The end of the new block wraps around and is taken to lie below the end of the heap. -/
theorem not_answered_oneBlock :
    WellFormed .kernel (oneBlock .kernel) [⟨0xD0000000, 16, true⟩] ∧
      ¬Answered (oneBlock .kernel) 0x30000000 (kernMalloc (oneBlock .kernel) 0x30000000) ∧
      WellFormed .user (oneBlock .user) [⟨0x50000000, 16, true⟩] ∧
      ¬Answered (oneBlock .user) 0xB0000000 (allocAllocate (oneBlock .user) 0xB0000000) := by
  have kernel := wellFormed_oneBlock .kernel
  have user := wellFormed_oneBlock .user
  have wraps : ¬Answerable [⟨0xD0000000, 16, true⟩] 0x30000000 := by decide
  have wrapsToo : ¬Answerable [⟨0x50000000, 16, true⟩] 0xB0000000 := by decide
  exact ⟨kernel, (tooLong_of_not_answerable kernel (by simp) (by decide) wraps).not_answered, user,
    (tooLong_of_not_answerable user (by simp) (by decide) wrapsToo).not_answered⟩

/-! ## Which requests are served -/

/-- The search takes a block that is large enough, or there is room for a new one. -/
def Servable (state : State) (blocks : List Block) (size : Nat) : Prop :=
  if ∃ block ∈ blocks.dropLast, block.Accepted size then size < 2 ^ 31
  else lastStop blocks + roundedSize size < space ∧ HasRoom state (lastStop blocks) size

instance (state : State) (blocks : List Block) (size : Nat) :
    Decidable (Servable state blocks size) :=
  inferInstanceAs (Decidable (if ∃ block ∈ blocks.dropLast, block.Accepted size then size < 2 ^ 31
    else lastStop blocks + roundedSize size < space ∧ HasRoom state (lastStop blocks) size))

theorem allocate_served {allocator : Allocator} {state : State} {blocks : List Block} {size : Nat}
    (wellFormed : WellFormed allocator state blocks) (nonempty : blocks ≠ [])
    (servable : Servable state blocks size) :
    ∃ pointer next after block, allocator.allocate state size = some (pointer, next) ∧
      Granted state next blocks after size pointer block := by
  unfold Servable at servable
  rcases allocate_cases wellFormed nonempty size with
    ⟨before, block, after, rfl, ⟨rfl, refused, stop, isResult⟩ | ⟨found, accepted, isResult⟩⟩
  · rw [if_neg refused, stop] at servable
    rcases appendWith_served wellFormed servable.1 servable.2 with ⟨next, isNext, granted⟩
    exact ⟨_, next, _, _, isResult.trans (congrArg some isNext), granted⟩
  · rw [if_pos found] at servable
    rw [Block.Accepted, toInt_of_lt servable] at accepted
    have granted := reuse_granted wellFormed.whole accepted.2 (Int.ofNat_le.mp accepted.1)
    rcases (⟨_, rfl⟩ : ∃ result, result = reuse state block.address size) with ⟨result, isReuse⟩
    rw [← isReuse] at granted isResult
    exact ⟨result.1, result.2, _, _, isResult, granted⟩

theorem allocate_not_served {allocator : Allocator} {state : State} {blocks : List Block}
    {size : Nat} (wellFormed : WellFormed allocator state blocks) (nonempty : blocks ≠ [])
    (bound : size < space) (notServable : ¬Servable state blocks size) :
    TooLong size (allocator.allocate state size) ∨
      ∃ heap, allocator.allocate state size = some (0, ⟨state.memory, heap⟩) := by
  by_cases answerable : Answerable blocks size
  · right
    unfold Answerable at answerable
    unfold Servable at notServable
    rcases allocate_cases wellFormed nonempty size with
      ⟨before, block, after, rfl, ⟨rfl, refused, stop, isResult⟩ | ⟨found, -, -⟩⟩
    · rw [if_neg refused, stop] at answerable notServable
      rw [isResult]
      rcases appendWith_null wellFormed answerable fun room => notServable ⟨answerable, room⟩ with
        ⟨heap, isNext⟩
      exact ⟨heap, congrArg some isNext⟩
    · rw [if_pos found] at answerable notServable
      exact absurd answerable notServable
  · exact .inl (tooLong_of_not_answerable wellFormed nonempty bound answerable)

end Dbos.Bootstrap
