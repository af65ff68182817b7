import Dbos.Kernel.Memory.HeapBlocks

/-! # Safety of the kernel heap

The blocks tile the heap after every run, and what `kern_malloc` returns belongs
to nobody else. -/

namespace Dbos.Heap

open Dbos.ByteMemory Dbos.Execution

/-! ## One call -/

/-- The blocks tile a heap that ends below the end of the address space. -/
structure Whole (state : State) (blocks : List Block) : Prop where
  positive : 0 < state.heap.start
  tiled : Tiled state blocks
  bounded : state.heap.heapEnd < space
  small : ∀ block ∈ blocks, block.size < 2 ^ 31

theorem Whole.bounds {state : State} {blocks : List Block} (whole : Whole state blocks)
    {block : Block} (member : block ∈ blocks) :
    state.heap.start ≤ block.address ∧ block.stop ≤ state.heap.heapEnd := by
  rcases whole.tiled with ⟨-, -, last, tiles, below⟩
  have bounds := tiles.bounds member
  exact ⟨bounds.1, Nat.le_trans bounds.2 below⟩

/-- The heap of the kernel. -/
structure Sound (state : State) (blocks : List Block) : Prop where
  start : state.heap.start = kernelHeapInitAddr
  tiled : Tiled state blocks
  firstPage : kernelHeapInitAddr + pageByteLen ≤ state.heap.heapEnd
  bounded : state.heap.heapEnd < space

/-- What a call does for its caller and to the others. -/
structure Granted (state next : State) (blocks after : List Block) (size pointer : Nat)
    (block : Block) : Prop where
  whole : Whole next after
  start : next.heap.start = state.heap.start
  larger : state.heap.heapEnd ≤ next.heap.heapEnd
  member : block ∈ after
  pointer : pointer = block.payload
  size : size ≤ block.size
  present : block.present = true
  zero : ∀ address, block.payload ≤ address → address < block.stop → load next.memory address = 0
  free : ∀ other ∈ blocks, other.address = block.address → other.present = false
  kept : ∀ other ∈ blocks, other.address ≠ block.address →
    other ∈ after ∧ SameOn other.payload other.stop next.memory state.memory
  below : ∀ first last, last ≤ state.heap.start → SameOn first last next.memory state.memory

theorem Sound.small {state : State} {blocks : List Block} (sound : Sound state blocks) :
    ∀ block ∈ blocks, kernelHeapInitAddr ≤ block.address ∧ block.stop ≤ state.heap.heapEnd ∧
      block.size < 2 ^ 31 := by
  intro block member
  rcases sound.tiled with ⟨-, -, last, tiles, below⟩
  have bounds := tiles.bounds member
  have bounded := sound.bounded
  have start := sound.start
  unfold Block.stop kernelHeapInitAddr space at *
  omega

theorem Sound.first {state : State} {blocks : List Block} (sound : Sound state blocks) {size : Nat}
    (fits : state.heap.head = 0 → headerSize + size ≤ pageByteLen) (empty : state.heap.head = 0) :
    state.heap.start + headerSize + size ≤ state.heap.heapEnd := by
  have isStart := sound.start
  have firstPage := sound.firstPage
  have isFirst := fits empty
  omega

theorem Sound.whole {state : State} {blocks : List Block} (sound : Sound state blocks) :
    Whole state blocks := by
  refine ⟨?_, sound.tiled, sound.bounded, fun block member => (sound.small block member).2.2⟩
  rw [sound.start]
  decide

namespace Granted

variable {state next : State} {blocks after : List Block} {size pointer : Nat} {block : Block}

theorem sound (granted : Granted state next blocks after size pointer block)
    (sound : Sound state blocks) : Sound next after :=
  ⟨granted.start.trans sound.start, granted.whole.tiled,
    Nat.le_trans sound.firstPage granted.larger, granted.whole.bounded⟩

theorem keptPresent (granted : Granted state next blocks after size pointer block)
    {other : Block} (member : other ∈ blocks) (present : other.present = true) :
    other ∈ after ∧ other.address ≠ block.address ∧
      SameOn other.payload other.stop next.memory state.memory := by
  have different : other.address ≠ block.address := by
    intro same
    rw [granted.free other member same] at present
    cases present
  exact ⟨(granted.kept other member different).1, different,
    (granted.kept other member different).2⟩

/-- Every block is still where it was, if perhaps smaller. -/
theorem known (granted : Granted state next blocks after size pointer block) {other : Block}
    (member : other ∈ blocks) : ∃ same ∈ after, same.address = other.address := by
  by_cases isBlock : other.address = block.address
  · exact ⟨block, granted.member, isBlock.symm⟩
  · exact ⟨other, (granted.kept other member isBlock).1, rfl⟩

end Granted

theorem clear_eq {memory : Memory} {heap : KernHeap} {block : Block} {next : Nat}
    (blockAt : block.At memory next) (bound : block.stop < space) :
    clear { memory, heap } block.address =
      (block.payload, { memory := fill memory block.payload 0 block.size, heap }) := by
  have payload : (block.address + headerSize) % space = block.payload := by
    unfold Block.stop at bound
    exact Nat.mod_eq_of_lt (by omega)
  simp only [clear, payload, blockAt.size]

theorem Linked.at {memory : Memory} {tail : Nat} {blocks : List Block}
    (linked : Linked memory tail blocks) {block : Block} (member : block ∈ blocks) :
    ∃ next, block.At memory next := by
  rcases List.append_of_mem member with ⟨before, after, rfl⟩
  exact ⟨_, (linked_append.mp linked).2.1⟩

/-- Once the headers are written, clearing the payload completes the call. -/
theorem granted_of_clear {state : State} {memory : Memory} {heap : KernHeap}
    {blocks : List Block} {size : Nat} (block : Block) (after : List Block)
    (whole : Whole { memory, heap } after) (start : heap.start = state.heap.start)
    (larger : state.heap.heapEnd ≤ heap.heapEnd) (member : block ∈ after)
    (enough : size ≤ block.size) (present : block.present = true)
    (free : ∀ other ∈ blocks, other.address = block.address → other.present = false)
    (kept : ∀ other ∈ blocks, other.address ≠ block.address →
      other ∈ after ∧ SameOn other.payload other.stop memory state.memory)
    (outside : ∀ first last, last ≤ state.heap.start → SameOn first last memory state.memory) :
    Granted state (clear { memory, heap } block.address).2 blocks after size
      (clear { memory, heap } block.address).1 block := by
  rcases whole.tiled with ⟨head, linked, last, tiles, below⟩
  rcases linked.at member with ⟨next, blockAt⟩
  have bounds := whole.bounds member
  have bounded := whole.bounded
  have stop : block.stop < space := Nat.lt_of_le_of_lt bounds.2 bounded
  have payload : block.payload + block.size = block.stop := rfl
  rw [clear_eq blockAt stop]
  have frame : ∀ other ∈ after, other.address ≠ block.address →
      SameOn other.address other.stop (fill memory block.payload 0 block.size) memory := by
    intro other otherMember different
    have apart := tiles.disjoint member otherMember different
    have otherBounds := whole.bounds otherMember
    simp only at bounded otherBounds
    unfold Block.payload
    unfold Block.payload at payload
    refine sameOn_fill (by omega) (by omega) (by omega)
  have headers : ∀ other ∈ after,
      SameOn other.address other.payload (fill memory block.payload 0 block.size) memory := by
    intro other otherMember
    by_cases same : other.address = block.address
    · refine sameOn_fill (by omega) ?_ (.inl ?_)
      · unfold Block.payload at *
        omega
      · unfold Block.payload
        omega
    · refine (frame other otherMember same).mono (Nat.le_refl _) ?_
      unfold Block.payload Block.stop
      omega
  refine ⟨?_, start, larger, member, rfl, enough, present, ?_, free, ?_, ?_⟩
  · exact ⟨whole.positive, ⟨head, linked.congr headers, last, tiles, below⟩, whole.bounded,
      whole.small⟩
  · intro address above below
    exact load_fill_inside (by omega) above (by omega)
  · intro other otherMember different
    rcases kept other otherMember different with ⟨stays, same⟩
    refine ⟨stays, SameOn.trans ?_ same⟩
    refine (frame other stays different).mono ?_ (Nat.le_refl _)
    unfold Block.payload
    omega
  · intro first upTo low
    have above := bounds.1
    simp only [start] at above
    refine SameOn.trans (sameOn_fill (by omega) ?_ (.inl ?_)) (outside first upTo low)
    · unfold Block.payload at payload
      omega
    · unfold Block.payload
      omega

/-! ### Growth -/

theorem iterate_increaseHeapPage (pages : Nat) {heap : KernHeap} (bounded : heap.heapEnd < space) :
    (increaseHeapPage^[pages] heap).heapEnd = (heap.heapEnd + pages * pageByteLen) % space ∧
      (increaseHeapPage^[pages] heap).start = heap.start ∧
      (increaseHeapPage^[pages] heap).head = heap.head := by
  induction pages with
  | zero => simp [Nat.mod_eq_of_lt bounded]
  | succ pages induction =>
      rcases induction with ⟨isEnd, isStart, isHead⟩
      rw [Function.iterate_succ_apply']
      refine ⟨?_, isStart, isHead⟩
      simp only [increaseHeapPage, isEnd, Nat.mod_add_mod]
      congr 1
      rw [Nat.succ_mul]
      omega

theorem totalSize_eq {size : Nat} (small : size + headerSize < 2 ^ 31) :
    totalSize size = (size + 7) / 8 * 8 + headerSize := by
  unfold totalSize headerSize space at *
  omega

/-- The heap grows by more than what is asked for, since no request with its
header is a whole number of pages. -/
theorem lt_pagesFor {size : Nat} (small : size + headerSize < 2 ^ 31) :
    totalSize size < pagesFor (totalSize size) * pageByteLen ∧
      pagesFor (totalSize size) * pageByteLen < space := by
  rw [totalSize_eq small]
  unfold pagesFor headerSize pageByteLen space at *
  split <;> omega

theorem grown_spec {heap : KernHeap} {size headdr : Nat} (small : size + headerSize < 2 ^ 31)
    (bounded : heap.heapEnd < space) (near : headdr ≤ heap.heapEnd + totalSize size)
    (notWrapped : heap.heapEnd ≤ (if headdr < heap.heapEnd then heap
      else increaseHeap heap (totalSize size)).heapEnd) :
    ∃ grown, (if headdr < heap.heapEnd then heap else increaseHeap heap (totalSize size)) = grown ∧
      headdr < grown.heapEnd ∧ heap.heapEnd ≤ grown.heapEnd ∧ grown.heapEnd < space ∧
      grown.start = heap.start ∧ grown.head = heap.head := by
  by_cases room : headdr < heap.heapEnd
  · simp only [if_pos room]
    exact ⟨heap, rfl, room, Nat.le_refl _, bounded, rfl, rfl⟩
  · simp only [if_neg room] at notWrapped ⊢
    rcases iterate_increaseHeapPage (pagesFor (totalSize size)) bounded with
      ⟨isEnd, isStart, isHead⟩
    have pages := lt_pagesFor small
    unfold increaseHeap at notWrapped ⊢
    refine ⟨_, rfl, ?_, notWrapped, ?_, isStart, isHead⟩
    · rw [isEnd] at notWrapped ⊢
      unfold space at *
      omega
    · rw [isEnd]
      exact Nat.mod_lt _ (by decide)

/-! ### The branches of `kern_malloc` -/

/-- The memory in which a block of this size follows the last one. -/
def appended (memory : Memory) (last : Block) (size : Nat) : Memory :=
  setPresent (setNext (setSize (setNext memory last.address last.stop) last.stop size)
    last.stop 0) last.stop true

section Appended

variable {memory : Memory} {last : Block} {size : Nat}

theorem sameOn_appended (bound : last.stop + headerSize ≤ space) {first upTo : Nat}
    (inside : upTo ≤ last.stop) (outside : upTo ≤ last.address ∨ last.payload ≤ first) :
    SameOn first upTo (appended memory last size) memory := by
  have lastBound : last.address + headerSize ≤ space := by
    unfold Block.stop at bound
    omega
  refine (sameOn_written bound (by omega) (.inl inside)).trans ?_
  unfold Block.payload headerSize at outside
  exact sameOn_setNext lastBound (by omega) (by omega)

theorem linked_appended (bound : last.stop + headerSize ≤ space) (small : size < space)
    {first : Nat} {before : List Block} (linked : Linked memory 0 (before ++ [last]))
    (tiles : Tiles first before last.address) :
    Linked (appended memory last size) 0 (before ++ [last, ⟨last.stop, size, true⟩]) := by
  have lastBound : last.address + headerSize ≤ space := by
    unfold Block.stop at bound
    omega
  have stopSmall : last.stop < space := by
    unfold headerSize at bound
    omega
  rcases linked_append.mp linked with ⟨linkedBefore, lastAt, -⟩
  refine linked_append.mpr ⟨linkedBefore.congr fun other member => ?_, ?_, ?_, trivial⟩
  · have bounds := (tiles.bounds member).2
    refine sameOn_appended bound ?_ (.inl ?_)
    · unfold Block.payload Block.stop at *
      omega
    · unfold Block.payload Block.stop at *
      omega
  · have relinked : last.At (setNext memory last.address last.stop) last.stop :=
      ⟨by rw [getSize_setNext lastBound, lastAt.size], getNext_setNext lastBound stopSmall,
        by rw [getPresent_setNext lastBound, lastAt.present]⟩
    refine relinked.congr (sameOn_written bound lastBound (.inl ?_))
    exact Nat.le_add_right _ _
  · exact at_of_written _ bound true small (Nat.lt_of_le_of_lt (Nat.zero_le _) stopSmall)

end Appended

theorem append_eq {state : State} {last : Block} {size : Nat}
    (isSize : getSize state.memory last.address = last.size)
    (fits : last.stop + totalSize size < space) :
    append state last.address size =
      let heap := if last.stop + totalSize size < state.heap.heapEnd then state.heap
        else increaseHeap state.heap (totalSize size)
      if last.stop + totalSize size < heap.heapEnd then
        clear { memory := appended state.memory last size, heap } last.stop
      else (0, { state with heap }) := by
  have hsaddr : (last.address + headerSize + getSize state.memory last.address) % space =
      last.stop := by
    rw [isSize]
    exact Nat.mod_eq_of_lt (Nat.lt_of_le_of_lt (Nat.le_add_right _ _) fits)
  unfold append appended
  simp only [hsaddr, Nat.mod_eq_of_lt fits]

theorem append_granted {state : State} {before : List Block} {last : Block} {size : Nat}
    (whole : Whole state (before ++ [last])) (small : size + headerSize < 2 ^ 31)
    (fits : last.stop + totalSize size < space)
    (notWrapped : state.heap.heapEnd ≤ (append state last.address size).2.heap.heapEnd) :
    ∃ next, append state last.address size = (last.stop + headerSize, next) ∧
      Granted state next (before ++ [last]) (before ++ [last, ⟨last.stop, size, true⟩]) size
        (last.stop + headerSize) ⟨last.stop, size, true⟩ := by
  rcases whole.tiled with ⟨head, linked, upTo, tiles, below⟩
  rcases tiles_append.mp tiles with ⟨middle, tilesBefore, rfl, isUpTo⟩
  have isUpTo' : last.stop = upTo := isUpTo
  have total := totalSize_eq small
  rw [append_eq (linked_append.mp linked).2.1.size fits] at notWrapped ⊢
  simp only at notWrapped ⊢
  have notWrapped' : state.heap.heapEnd ≤ (if last.stop + totalSize size < state.heap.heapEnd then
      state.heap else increaseHeap state.heap (totalSize size)).heapEnd := by
    generalize (if last.stop + totalSize size < state.heap.heapEnd then state.heap
      else increaseHeap state.heap (totalSize size)) = grown at notWrapped ⊢
    split at notWrapped <;> exact notWrapped
  rcases grown_spec small whole.bounded (by omega) notWrapped' with
    ⟨grown, isGrown, room, larger, grownBounded, isStart, isHead⟩
  rw [isGrown, if_pos room]
  have newBound : last.stop + headerSize ≤ space := by omega
  have sizeSmall : size < space := by omega
  have newWhole : Whole ⟨appended state.memory last size, grown⟩
      (before ++ [last, ⟨last.stop, size, true⟩]) := by
    refine ⟨isStart ▸ whole.positive, ⟨?_, linked_appended newBound sizeSmall linked tilesBefore,
      last.stop + headerSize + size, ?_, ?_⟩, grownBounded, fun block member => ?_⟩
    · rw [isHead, head, firstOr_append, firstOr_append]
      rfl
    · refine tiles_append.mpr ⟨last.address, ?_, rfl, rfl, rfl⟩
      rw [isStart]
      exact tilesBefore
    · simp only
      omega
    · rw [show before ++ [last, ⟨last.stop, size, true⟩] =
        (before ++ [last]) ++ [⟨last.stop, size, true⟩] by simp] at member
      rcases List.mem_append.mp member with isOld | isNew
      · exact whole.small block isOld
      · rw [List.mem_singleton.mp isNew]
        exact Nat.lt_of_le_of_lt (Nat.le_add_right _ _) small
  have apart : ∀ other ∈ before ++ [last], other.address ≠ last.stop := by
    intro other member
    have bounds := tiles.bounds member
    unfold Block.stop headerSize at bounds isUpTo' ⊢
    omega
  have granted := @granted_of_clear state (appended state.memory last size) grown
    (before ++ [last]) size ⟨last.stop, size, true⟩ _ newWhole isStart larger (by simp)
    (Nat.le_refl _) rfl (fun other member same => absurd same (apart other member)) ?_ ?_
  · have pointer := granted.pointer
    simp only [Block.payload] at pointer granted
    rw [pointer] at granted
    exact ⟨_, Prod.ext pointer rfl, granted⟩
  · intro other member _
    have bounds := tiles.bounds member
    refine ⟨?_, sameOn_appended newBound (by omega) ?_⟩
    · rw [show before ++ [last, ⟨last.stop, size, true⟩] =
        (before ++ [last]) ++ [⟨last.stop, size, true⟩] by simp]
      exact List.mem_append_left _ member
    · rcases List.mem_append.mp member with isBefore | isLast
      · exact .inl (tilesBefore.bounds isBefore).2
      · rw [List.mem_singleton.mp isLast]
        exact .inr (Nat.le_refl _)
  · intro first upTo low
    have above := (whole.bounds (show last ∈ before ++ [last] by simp)).1
    refine sameOn_appended newBound ?_ (.inl (Nat.le_trans low above))
    unfold Block.stop
    omega

/-- A free block is replaced by a block for the caller and perhaps another one. -/
theorem replaced_granted {state : State} {before after : List Block} {block : Block}
    {size : Nat} (whole : Whole state (before ++ block :: after)) (memory : Memory)
    (granted : Block) (rest : List Block)
    (free : block.present = false)
    (same : ∀ first last, last ≤ space → (last ≤ block.address ∨ block.stop ≤ first) →
      SameOn first last memory state.memory)
    (linked : Linked memory (firstOr 0 after) (granted :: rest))
    (tiles : Tiles block.address (granted :: rest) block.stop) (enough : size ≤ granted.size)
    (present : granted.present = true) :
    Granted state (clear ⟨memory, state.heap⟩ granted.address).2
      (before ++ block :: after) (before ++ (granted :: rest ++ after)) size
      (clear ⟨memory, state.heap⟩ granted.address).1 granted := by
  rcases whole.tiled with ⟨head, oldLinked, last, oldTiles, below⟩
  rcases linked_append.mp oldLinked with ⟨linkedBefore, -, linkedAfter⟩
  rcases tiles_append.mp oldTiles with ⟨middle, tilesBefore, isMiddle, tilesAfter⟩
  have isGranted : granted.address = block.address := tiles.1
  have bounded := whole.bounded
  have frame : ∀ other ∈ before ++ after, other.address ≠ block.address ∧
      SameOn other.address other.stop memory state.memory := by
    intro other member
    have apart := oldTiles.apart member
    have bounds := whole.bounds (mem_of_mem_around member)
    refine ⟨?_, same _ _ (by omega) apart⟩
    unfold Block.stop headerSize at apart
    omega
  have headers : ∀ other ∈ before ++ after,
      SameOn other.address other.payload memory state.memory := fun other member =>
    (frame other member).2.mono (Nat.le_refl _) (Nat.le_add_right _ _)
  have around : ∀ other ∈ before ++ block :: after, other ≠ block → other ∈ before ++ after := by
    intro other member notBlock
    simp only [List.mem_append, List.mem_cons] at member ⊢
    tauto
  have newTiles : Tiles state.heap.start (before ++ (granted :: rest ++ after)) last := by
    refine tiles_append.mpr ⟨middle, tilesBefore, tiles_append.mpr ⟨block.stop, ?_, tilesAfter⟩⟩
    rw [← isMiddle]
    exact tiles
  have newWhole : Whole ⟨memory, state.heap⟩ (before ++ (granted :: rest ++ after)) := by
    refine ⟨whole.positive, ⟨?_, ?_, last, newTiles, below⟩, bounded, fun other member => ?_⟩
    · rw [head, firstOr_append, firstOr_append]
      simp only [firstOr, List.cons_append, isGranted]
    · refine linked_append.mpr ⟨?_, linked_append.mpr ⟨linked, ?_⟩⟩
      · have relinked := linkedBefore.congr fun other member =>
          headers other (List.mem_append_left _ member)
        simpa only [firstOr, List.cons_append, isGranted] using relinked
      · exact linkedAfter.congr fun other member => headers other (List.mem_append_right _ member)
    · simp only [List.mem_append] at member
      rcases member with isBefore | isNew | isAfter
      · exact whole.small other (by simp [isBefore])
      · have inside := tiles.bounds isNew
        have old := whole.small block (by simp)
        unfold Block.stop at inside
        omega
      · exact whole.small other (by simp [isAfter])
  apply granted_of_clear granted _ newWhole rfl (Nat.le_refl _) (by simp) enough present
  · intro other member isBlock
    by_contra inUse
    have notBlock : other ≠ block := by
      rintro rfl
      exact inUse free
    exact (frame other (around other member notBlock)).1 (isBlock.trans isGranted)
  · intro other member different
    have notBlock : other ≠ block := by
      rintro rfl
      exact different isGranted.symm
    have others := around other member notBlock
    refine ⟨?_, (frame other others).2.mono (Nat.le_add_right _ _) (Nat.le_refl _)⟩
    simp only [List.mem_append] at others ⊢
    tauto
  · intro first upTo low
    have bounds := whole.bounds (show block ∈ before ++ block :: after by simp)
    refine same first upTo ?_ (.inl (Nat.le_trans low bounds.1))
    unfold Block.stop at bounds
    omega

def splitUp (memory : Memory) (block : Block) (size next : Nat) : Memory :=
  let sibling := block.address + headerSize + size
  let memory := setNext (setPresent (setSize memory block.address size) block.address true)
    block.address sibling
  setNext (setPresent (setSize memory sibling (block.size - size - headerSize)) sibling false)
    sibling next

theorem reuse_eq {state : State} {block : Block} {size next : Nat}
    (blockAt : block.At state.memory next) (small : block.size < 2 ^ 31)
    (bound : block.stop < space) (enough : size ≤ block.size) :
    reuse state block.address size =
      if headerSize + 1 ≤ block.size - size then
        clear ⟨splitUp state.memory block size next, state.heap⟩ block.address
      else clear ⟨setPresent state.memory block.address true, state.heap⟩ block.address := by
  have diff : toInt ((getSize state.memory block.address + space - size) % space) =
      ((block.size - size : Nat) : Int) := by
    rw [blockAt.size, show block.size + space - size = (block.size - size) + space by omega,
      Nat.add_mod_right, Nat.mod_eq_of_lt (by unfold space; omega)]
    exact toInt_of_lt (by omega)
  have itemBound : block.address + headerSize ≤ space := by
    unfold Block.stop at bound
    omega
  have isSize : getSize (setSize state.memory block.address size) block.address = size :=
    getSize_setSize itemBound (by unfold Block.stop at bound; omega)
  have sibling : (block.address + headerSize + size) % space = block.address + headerSize + size :=
    Nat.mod_eq_of_lt (by unfold Block.stop at bound; omega)
  have left : ((block.size - size : Nat) - (headerSize : Int)).toNat =
      block.size - size - headerSize := by omega
  have condition : ((block.size - size : Nat) : Int) ≥ (headerSize : Int) + 1 ↔
      headerSize + 1 ≤ block.size - size := by omega
  unfold reuse splitUp
  simp only [diff, condition, isSize, sibling, left, blockAt.next]

/-- The blocks that stand in the place of a block that is given out: what is left of it
is split off if it has room for a header and a byte. -/
def cut (block : Block) (size : Nat) : List Block :=
  if headerSize + 1 ≤ block.size - size then
    [⟨block.address, size, true⟩,
      ⟨block.address + headerSize + size, block.size - size - headerSize, false⟩]
  else [⟨block.address, block.size, true⟩]

/-- The first of them, which the caller is given. -/
def cutFirst (block : Block) (size : Nat) : Block :=
  if headerSize + 1 ≤ block.size - size then ⟨block.address, size, true⟩
  else ⟨block.address, block.size, true⟩

theorem reuse_granted {state : State} {before after : List Block} {block : Block} {size : Nat}
    (whole : Whole state (before ++ block :: after)) (free : block.present = false)
    (enough : size ≤ block.size) :
    Granted state (reuse state block.address size).2 (before ++ block :: after)
      (before ++ (cut block size ++ after)) size (reuse state block.address size).1
      (cutFirst block size) := by
  rcases whole.tiled with ⟨-, linked, -⟩
  have blockAt := (linked_append.mp linked).2.1
  have bounds := whole.bounds (show block ∈ before ++ block :: after by simp)
  have stop : block.stop < space := Nat.lt_of_le_of_lt bounds.2 whole.bounded
  have itemBound : block.address + headerSize ≤ space := by
    unfold Block.stop at stop
    omega
  have nextSmall : firstOr 0 after < space := by
    rw [← blockAt.next]
    exact loadWord_lt _ _
  rw [reuse_eq blockAt (whole.small block (by simp)) stop enough]
  unfold cut cutFirst
  split
  case isTrue large =>
    have siblingBound : block.address + headerSize + size + headerSize ≤ space := by
      unfold Block.stop at stop
      omega
    have outside : ∀ first last, last ≤ space → (last ≤ block.address ∨ block.stop ≤ first) →
        SameOn first last (splitUp state.memory block size (firstOr 0 after)) state.memory := by
      intro first last lastBound outside
      unfold Block.stop at outside
      exact (sameOn_rewritten siblingBound lastBound (by omega)).trans
        (sameOn_rewritten itemBound lastBound (by omega))
    have itemAt : Block.At (splitUp state.memory block size (firstOr 0 after))
        (block.address + headerSize + size) ⟨block.address, size, true⟩ := by
      have siblingSmall : block.address + headerSize + size < space := by
        unfold headerSize at siblingBound ⊢
        omega
      have written := at_of_rewritten state.memory itemBound true (show size < space by omega)
        siblingSmall
      exact written.congr
        (sameOn_rewritten siblingBound itemBound (.inl (Nat.le_add_right _ _)))
    have siblingAt : Block.At (splitUp state.memory block size (firstOr 0 after)) (firstOr 0 after)
        ⟨block.address + headerSize + size, block.size - size - headerSize, false⟩ :=
      at_of_rewritten _ siblingBound false (by unfold Block.stop at stop; omega) nextSmall
    exact replaced_granted whole _ ⟨block.address, size, true⟩ [⟨block.address + headerSize + size,
      block.size - size - headerSize, false⟩] free outside ⟨itemAt, siblingAt, trivial⟩
      ⟨rfl, rfl, by unfold Tiles Block.stop; simp only; omega⟩ (Nat.le_refl size) rfl
  case isFalse =>
    have outside : ∀ first last, last ≤ space → (last ≤ block.address ∨ block.stop ≤ first) →
        SameOn first last (setPresent state.memory block.address true) state.memory := by
      intro first last lastBound outside
      unfold Block.stop headerSize at outside
      exact sameOn_setPresent itemBound lastBound (by omega)
    have itemAt : Block.At (setPresent state.memory block.address true) (firstOr 0 after)
        ⟨block.address, block.size, true⟩ :=
      ⟨by rw [getSize_setPresent itemBound, blockAt.size],
        by rw [getNext_setPresent itemBound, blockAt.next], getPresent_setPresent _ _ _⟩
    exact replaced_granted whole _ ⟨block.address, block.size, true⟩ [] free outside
      ⟨itemAt, trivial⟩ ⟨rfl, rfl⟩ enough rfl

theorem first_granted {state : State} {size : Nat} (whole : Whole state [])
    (small : size < 2 ^ 31)
    (fits : state.heap.start + headerSize + size ≤ state.heap.heapEnd) :
    Granted state
      (clear ⟨setPresent (setNext (setSize state.memory state.heap.start size) state.heap.start 0)
        state.heap.start true, { state.heap with head := state.heap.start }⟩ state.heap.start).2
      [] [⟨state.heap.start, size, true⟩] size
      (clear ⟨setPresent (setNext (setSize state.memory state.heap.start size) state.heap.start 0)
        state.heap.start true, { state.heap with head := state.heap.start }⟩ state.heap.start).1
      ⟨state.heap.start, size, true⟩ := by
  have bounded := whole.bounded
  have bound : state.heap.start + headerSize ≤ space := by omega
  have written := at_of_written state.memory bound true (show size < space by omega)
    (show 0 < space by decide)
  refine granted_of_clear ⟨state.heap.start, size, true⟩
    [⟨state.heap.start, size, true⟩] ⟨whole.positive, ⟨rfl, ⟨written, trivial⟩, _, ⟨rfl, rfl⟩, fits⟩,
      bounded, ?_⟩ rfl (Nat.le_refl _) (by simp) (Nat.le_refl _) rfl (by simp) (by simp) ?_
  · intro block member
    rw [List.mem_singleton.mp member]
    exact small
  · intro first upTo low
    exact sameOn_written bound (by omega) (.inl low)

/-- A request that is appended stays below the end of the address space. -/
def FitsBelow (state : State) (size : Nat) : Prop :=
  state.heap.head ≠ 0 → ∀ item ∈ findItem state.memory size space state.heap.head,
    getNext state.memory item = 0 →
      item + headerSize + getSize state.memory item + totalSize size < space

instance (state : State) (size : Nat) : Decidable (FitsBelow state size) :=
  inferInstanceAs (Decidable (state.heap.head ≠ 0 →
    ∀ item ∈ findItem state.memory size space state.heap.head, getNext state.memory item = 0 →
      item + headerSize + getSize state.memory item + totalSize size < space))

theorem Whole.head_eq_zero_iff {state : State} {blocks : List Block} (whole : Whole state blocks) :
    state.heap.head = 0 ↔ blocks = [] := by
  have isHead := whole.tiled.1
  cases blocks with
  | nil => simp [isHead, firstOr]
  | cons block blocks =>
      have bounds := (whole.bounds (show block ∈ block :: blocks by simp)).1
      have positive := whole.positive
      simp only [firstOr] at isHead
      simp only [List.cons_ne_nil, iff_false]
      omega

theorem Whole.findItem {state : State} {blocks : List Block} (whole : Whole state blocks)
    (nonempty : blocks ≠ []) (size : Nat) :
    ∃ before block after, blocks = before ++ block :: after ∧
      findItem state.memory size space state.heap.head = some block.address ∧
      (getNext state.memory block.address = 0 ↔ after = []) ∧
      (∀ other ∈ before, ¬other.Accepted size) ∧ (after ≠ [] → block.Accepted size) := by
  rcases whole.tiled with ⟨head, linked, last, tiles, below⟩
  have length := tiles.length_le
  have bounded := whole.bounded
  rcases @findItem_accepted state.memory size _ _ blocks linked tiles whole.positive nonempty
    whole.small space (by omega) with ⟨before, block, after, rfl, found, skipped, accepted⟩
  rw [← head] at found
  refine ⟨before, block, after, rfl, found, ?_, skipped, accepted⟩
  rw [(linked_append.mp linked).2.1.next]
  cases after with
  | nil => simp [firstOr]
  | cons next after =>
      have bounds := (whole.bounds (show next ∈ before ++ block :: next :: after by simp)).1
      have positive := whole.positive
      simp only [firstOr, List.cons_ne_nil, iff_false]
      omega

theorem kernMalloc_granted {state : State} {blocks : List Block} {size : Nat}
    (whole : Whole state blocks) (small : size + headerSize < 2 ^ 31)
    (first : state.heap.head = 0 → state.heap.start + headerSize + size ≤ state.heap.heapEnd)
    (notWrapped : ∀ result ∈ kernMalloc state size,
      state.heap.heapEnd ≤ result.2.heap.heapEnd)
    (fits : FitsBelow state size) :
    ∃ result after granted, kernMalloc state size = some result ∧
      Granted state result.2 blocks after size result.1 granted := by
  have isHead := whole.head_eq_zero_iff
  have sizeSmall : size < 2 ^ 31 := Nat.lt_of_le_of_lt (Nat.le_add_right _ _) small
  by_cases empty : blocks = []
  · subst empty
    have isNull : state.heap.head = 0 := isHead.mpr rfl
    refine ⟨_, _, _, ?_, first_granted whole sizeSmall (first isNull)⟩
    unfold kernMalloc
    rw [if_pos isNull]
  · have notNull : state.heap.head ≠ 0 := fun isNull => empty (isHead.mp isNull)
    rcases whole.findItem empty size with
      ⟨before, block, after, rfl, isFound, isLast, -, accepted⟩
    have blockAt := (linked_append.mp whole.tiled.2.1).2.1
    unfold kernMalloc at notWrapped ⊢
    simp only [if_neg notNull, isFound, Option.map_some] at notWrapped ⊢
    by_cases last : after = []
    · have below := fits notNull block.address isFound (isLast.mpr last)
      rw [blockAt.size] at below
      subst last
      simp only [if_pos (isLast.mpr rfl)] at notWrapped ⊢
      rcases append_granted whole small below (notWrapped _ rfl) with ⟨next, isNext, granted⟩
      rw [isNext]
      exact ⟨_, _, _, rfl, granted⟩
    · have free := accepted last
      rw [Block.Accepted, toInt_of_lt sizeSmall] at free
      simp only [if_neg fun isZero => last (isLast.mp isZero)]
      exact ⟨_, _, _, rfl, reuse_granted whole free.2 (Int.ofNat_le.mp free.1)⟩

/-! ## Whole runs -/

/-- What the callers hold are blocks of the heap. -/
structure Held (machine : Machine) (blocks : List Block) : Prop where
  whole : Whole machine.state blocks
  returned : ∀ pointer ∈ machine.returned, ∃ block ∈ blocks, pointer = block.payload
  live : ∀ payload ∈ machine.live, ∃ block ∈ blocks,
    payload.1 = block.payload ∧ payload.2 ≤ block.size ∧ block.present = true

structure Invariant (machine : Machine) (blocks : List Block) : Prop where
  sound : Sound machine.state blocks
  held : Held machine blocks

theorem boot_invariant (memory : Memory) : Invariant (boot memory) [] := by
  have sound : Sound (boot memory).state [] := by
    refine ⟨rfl, ⟨rfl, trivial, _, rfl, ?_⟩, Nat.le_refl _, ?_⟩
    · exact Nat.le_add_right _ _
    · show kernelHeapInitAddr + pageByteLen < space
      decide
  exact ⟨sound, sound.whole, by simp [boot], by simp [boot]⟩

theorem Tiles.replace {first last : Nat} {before after : List Block} {block : Block}
    (tiles : Tiles first (before ++ block :: after) last) (present : Bool) :
    Tiles first (before ++ { block with present } :: after) last := by
  rcases tiles_append.mp tiles with ⟨middle, left, here, right⟩
  exact tiles_append.mpr ⟨middle, left, here, right⟩

theorem kernFree_eq {state : State} {blocks : List Block} {block : Block}
    (whole : Whole state blocks) (member : block ∈ blocks) :
    kernFree state block.payload =
        { state with memory := setPresent state.memory block.address false } ∧
      block.address + headerSize ≤ space := by
  have bounded := whole.bounded
  have bounds := whole.bounds member
  have item : (block.payload + space - headerSize) % space = block.address := by
    unfold Block.payload Block.stop at *
    rw [show block.address + headerSize + space - headerSize = block.address + space by omega,
      Nat.add_mod_right, Nat.mod_eq_of_lt (by omega)]
  constructor
  · unfold kernFree
    rw [item]
  · unfold Block.stop at bounds
    omega

theorem kernFree_whole {state : State} {before after : List Block} {block : Block}
    (whole : Whole state (before ++ block :: after)) :
    Whole (kernFree state block.payload) (before ++ { block with present := false } :: after) := by
  rcases whole.tiled with ⟨head, linked, last, tiles, below⟩
  rcases linked_append.mp linked with ⟨linkedBefore, blockAt, linkedAfter⟩
  have bounded := whole.bounded
  rcases kernFree_eq whole (show block ∈ before ++ block :: after by simp) with
    ⟨isFreed, itemBound⟩
  have headers : ∀ other ∈ before ++ after, SameOn other.address other.payload
      (setPresent state.memory block.address false) state.memory := by
    intro other member
    have apart := tiles.apart member
    have otherBounds := whole.bounds (mem_of_mem_around member)
    unfold Block.payload Block.stop headerSize at *
    exact sameOn_setPresent itemBound (by omega) (by omega)
  rw [isFreed]
  refine ⟨whole.positive, ⟨?_, ?_, last, tiles.replace false, below⟩, bounded, ?_⟩
  · rw [head, firstOr_append, firstOr_append]
    rfl
  · refine linked_append.mpr ⟨?_, ?_, ?_⟩
    · exact linkedBefore.congr fun other member => headers other (List.mem_append_left _ member)
    · exact ⟨by rw [getSize_setPresent itemBound, blockAt.size],
        by rw [getNext_setPresent itemBound, blockAt.next], getPresent_setPresent _ _ _⟩
    · exact linkedAfter.congr fun other member => headers other (List.mem_append_right _ member)
  · intro other member
    simp only [List.mem_append, List.mem_cons] at member
    rcases member with isBefore | rfl | isAfter
    · exact whole.small other (by simp [isBefore])
    · exact whole.small block (by simp)
    · exact whole.small other (by simp [isAfter])

theorem kernFree_sound {state : State} {before after : List Block} {block : Block}
    (sound : Sound state (before ++ block :: after)) :
    Sound (kernFree state block.payload) (before ++ { block with present := false } :: after) :=
  ⟨sound.start, (kernFree_whole sound.whole).tiled, sound.firstPage, sound.bounded⟩

/-- The condition on the events under which the heap is safe. -/
def Fits (machine : Machine) : Event → Prop
  | .malloc size => FitsBelow machine.state size
  | _ => True

instance (machine : Machine) : ∀ event, Decidable (Fits machine event)
  | .malloc size => inferInstanceAs (Decidable (FitsBelow machine.state size))
  | .free _ => .isTrue trivial
  | .write _ _ => .isTrue trivial

namespace Held

variable {machine : Machine} {blocks : List Block} (held : Held machine blocks)
include held

theorem malloc {next : State} {after : List Block} {size pointer : Nat} {block : Block}
    (granted : Granted machine.state next blocks after size pointer block) :
    Held ⟨next, pointer :: machine.returned, (pointer, size) :: machine.live⟩ after := by
  refine ⟨granted.whole, ?_, ?_⟩
  · intro other member
    rcases List.mem_cons.mp member with rfl | old
    · exact ⟨block, granted.member, granted.pointer⟩
    · rcases held.returned other old with ⟨known, otherMember, rfl⟩
      rcases granted.known otherMember with ⟨same, sameMember, address⟩
      exact ⟨same, sameMember, by unfold Block.payload; rw [address]⟩
  · intro payload member
    rcases List.mem_cons.mp member with rfl | old
    · exact ⟨block, granted.member, granted.pointer, granted.size, granted.present⟩
    · rcases held.live payload old with ⟨other, otherMember, isPayload, size, present⟩
      exact ⟨other, (granted.keptPresent otherMember present).1, isPayload, size, present⟩

theorem free {object : Nat} (isReturned : object ∈ machine.returned) :
    ∃ before block after, blocks = before ++ block :: after ∧ object = block.payload ∧
      Held
        { state := kernFree machine.state object
          returned := machine.returned
          live := machine.live.filter fun payload => payload.1 ≠ object }
        (before ++ { block with present := false } :: after) := by
  rcases held.returned object isReturned with ⟨block, member, rfl⟩
  rcases List.append_of_mem member with ⟨before, after, rfl⟩
  refine ⟨before, block, after, rfl, rfl, kernFree_whole held.whole, ?_, ?_⟩
  · intro pointer isReturned
    rcases held.returned pointer isReturned with ⟨other, otherMember, rfl⟩
    simp only [List.mem_append, List.mem_cons] at otherMember
    rcases otherMember with isBefore | rfl | isAfter
    · exact ⟨other, by simp [isBefore], rfl⟩
    · exact ⟨{ other with present := false }, by simp, rfl⟩
    · exact ⟨other, by simp [isAfter], rfl⟩
  · intro payload isLive
    rw [List.mem_filter] at isLive
    rcases isLive with ⟨isLive, different⟩
    rcases held.live payload isLive with ⟨other, otherMember, isPayload, size, present⟩
    refine ⟨other, ?_, isPayload, size, present⟩
    simp only [List.mem_append, List.mem_cons] at otherMember ⊢
    rcases otherMember with isBefore | rfl | isAfter
    · exact .inl isBefore
    · simp [isPayload] at different
    · exact .inr (.inr isAfter)

theorem write {memory : Memory}
    (headers : ∀ block ∈ blocks,
      SameOn block.address block.payload memory machine.state.memory) :
    Held { machine with state := { machine.state with memory } } blocks := by
  rcases held.whole.tiled with ⟨head, linked, last, tiles, below⟩
  exact ⟨⟨held.whole.positive, ⟨head, linked.congr headers, last, tiles, below⟩,
    held.whole.bounded, held.whole.small⟩, held.returned, held.live⟩

theorem store_payload {address : Nat}
    (allowed : ∃ payload ∈ machine.live, payload.1 ≤ address ∧ address < payload.1 + payload.2)
    (value : UInt8) {other : Block} (otherMember : other ∈ blocks) :
    SameOn other.address other.payload (store machine.state.memory address value)
      machine.state.memory := by
  rcases allowed with ⟨payload, isLive, above, below⟩
  rcases held.live payload isLive with ⟨block, member, isPayload, size, -⟩
  rcases held.whole.tiled with ⟨-, -, last, tiles, -⟩
  have bounded := held.whole.bounded
  have bounds := held.whole.bounds member
  have otherBounds := held.whole.bounds otherMember
  by_cases same : other.address = block.address
  · unfold Block.payload Block.stop at *
    exact sameOn_store (by omega) (by omega) (by omega)
  · have apart := tiles.disjoint member otherMember same
    unfold Block.payload Block.stop at *
    exact sameOn_store (by omega) (by omega) (by omega)

end Held

theorem step_malloc_invariant {machine next : Machine} {blocks : List Block} {size : Nat}
    (invariant : Invariant machine blocks) (allowed : Allowed machine (.malloc size))
    (fits : FitsBelow machine.state size) (stepped : step machine (.malloc size) = some next) :
    ∃ after, Invariant next after := by
  rcases allowed with ⟨small, first, notWrapped⟩
  rcases kernMalloc_granted invariant.sound.whole small (invariant.sound.first first) notWrapped
    fits with ⟨result, after, block, isResult, granted⟩
  have notNull : result.1 ≠ 0 := by
    rw [granted.pointer]
    unfold Block.payload headerSize
    omega
  unfold step at stepped
  simp only [isResult, Option.map_some, notNull, if_false, Option.some_inj] at stepped
  subst stepped
  exact ⟨after, granted.sound invariant.sound, invariant.held.malloc granted⟩

theorem step_free_invariant {machine : Machine} {blocks : List Block} {object : Nat}
    (invariant : Invariant machine blocks) (allowed : object ∈ machine.returned) :
    ∃ after, Invariant
      { state := kernFree machine.state object
        returned := machine.returned
        live := machine.live.filter fun payload => payload.1 ≠ object } after := by
  rcases invariant.held.free allowed with ⟨before, block, after, rfl, rfl, held⟩
  exact ⟨_, kernFree_sound invariant.sound, held⟩

theorem step_write_invariant {machine : Machine} {blocks : List Block} {address : Nat}
    (invariant : Invariant machine blocks)
    (allowed : ∃ payload ∈ machine.live, payload.1 ≤ address ∧ address < payload.1 + payload.2)
    (value : UInt8) :
    Invariant { machine with state := { machine.state with
      memory := store machine.state.memory address value } } blocks := by
  have held := invariant.held.write fun _ member =>
    invariant.held.store_payload allowed value member
  exact ⟨⟨invariant.sound.start, held.whole.tiled, invariant.sound.firstPage,
    invariant.sound.bounded⟩, held⟩

theorem step_invariant (machine : Machine) (event : Event) (next : Machine)
    (invariant : ∃ blocks, Invariant machine blocks)
    (guarded : Allowed machine event ∧ Fits machine event)
    (stepped : step machine event = some next) : ∃ blocks, Invariant next blocks := by
  rcases invariant with ⟨blocks, invariant⟩
  cases event with
  | malloc size => exact step_malloc_invariant invariant guarded.1 guarded.2 stepped
  | free object =>
      cases stepped
      exact step_free_invariant invariant guarded.1
  | write address value =>
      cases stepped
      exact ⟨blocks, step_write_invariant invariant guarded.1 value⟩

/-- What `kern_malloc` promises: a payload of at least the requested size, zeroed,
inside the heap, that meets no header and no payload in use, all of which keep
their bytes. -/
structure Served (machine : Machine) (size pointer : Nat) (next : State) (blocks : List Block)
    (block : Block) : Prop where
  tiled : Tiled next blocks
  member : block ∈ blocks
  isPayload : pointer = block.payload
  enough : size ≤ block.size
  inside : next.heap.start ≤ pointer ∧ pointer + block.size ≤ next.heap.heapEnd
  zero : ∀ index < block.size, load next.memory (pointer + index) = 0
  headers : ∀ other ∈ blocks,
    other.payload ≤ pointer ∨ pointer + block.size ≤ other.address
  payloads : ∀ payload ∈ machine.live,
    payload.1 + payload.2 ≤ pointer ∨ pointer + block.size ≤ payload.1
  kept : ∀ payload ∈ machine.live, ∀ index < payload.2,
    load next.memory (payload.1 + index) = load machine.state.memory (payload.1 + index)

theorem kernMalloc_served {machine : Machine} {blocks : List Block} {size : Nat}
    (invariant : Invariant machine blocks) (allowed : Allowed machine (.malloc size))
    (fits : FitsBelow machine.state size) :
    ∃ pointer next after block, kernMalloc machine.state size = some (pointer, next) ∧
      Served machine size pointer next after block := by
  rcases allowed with ⟨small, first, notWrapped⟩
  rcases kernMalloc_granted invariant.sound.whole small (invariant.sound.first first) notWrapped
    fits with ⟨⟨pointer, next⟩, after, block, isResult, granted⟩
  refine ⟨pointer, next, after, block, isResult, ?_⟩
  have isPointer : pointer = block.payload := granted.pointer
  have sound := granted.sound invariant.sound
  have bounds := sound.small block granted.member
  have start := sound.start
  have stop : pointer + block.size = block.stop := by rw [isPointer]; rfl
  rcases sound.tiled with ⟨-, -, last, tiles, -⟩
  refine ⟨sound.tiled, granted.member, isPointer, granted.size, ⟨?_, ?_⟩, ?_, ?_, ?_, ?_⟩
  · rw [start, isPointer]
    exact Nat.le_trans bounds.1 (Nat.le_add_right _ _)
  · rw [stop]
    exact bounds.2.1
  · intro index below
    exact granted.zero _ (by omega) (by omega)
  · intro other otherMember
    by_cases same : other.address = block.address
    · exact .inl (by unfold Block.payload at *; omega)
    · have apart := tiles.disjoint granted.member otherMember same
      unfold Block.payload Block.stop at *
      omega
  · intro payload isLive
    rcases invariant.held.live payload isLive with ⟨other, otherMember, isPayload, smaller, present⟩
    rcases granted.keptPresent otherMember present with ⟨stays, different, -⟩
    have apart := tiles.disjoint granted.member stays different
    unfold Block.payload Block.stop at *
    omega
  · intro payload isLive index below
    rcases invariant.held.live payload isLive with ⟨other, otherMember, isPayload, smaller, present⟩
    have same := (granted.keptPresent otherMember present).2.2
    exact same _ (by omega) (by unfold Block.payload Block.stop at *; omega)

/-- After every run in which appended requests stay below the end of the address
space, the blocks tile the heap and the next such request is served. -/
theorem heap_tiled_and_served {memory : Memory} {events : List Event} {machine : Machine}
    (admissible : Admissible step (fun machine event => Allowed machine event ∧ Fits machine event)
      (boot memory) events)
    (reached : run step (boot memory) events = some machine) :
    (∃ blocks, Tiled machine.state blocks) ∧
      ∀ size, Allowed machine (.malloc size) → FitsBelow machine.state size →
        ∃ pointer next after block, kernMalloc machine.state size = some (pointer, next) ∧
          Served machine size pointer next after block := by
  have invariant : ∃ blocks, Invariant machine blocks :=
    run_preserves step_invariant ⟨[], boot_invariant memory⟩ admissible reached
  rcases invariant with ⟨blocks, invariant⟩
  exact ⟨⟨blocks, invariant.sound.tiled⟩, fun size allowed fits =>
    kernMalloc_served invariant allowed fits⟩

/-- Requests with growth, a write, a free and a request that splits the free block. -/
def splitting : List Event :=
  [.malloc 40, .malloc 5000, .write 0xD0000009 7, .free 0xD0000009]

theorem heap_tiled_and_served_splitting :
    ∃ machine, run step (boot fun _ => 0xFF) splitting = some machine ∧
      (∃ blocks, Tiled machine.state blocks) ∧
      ∃ pointer next after block, kernMalloc machine.state 16 = some (pointer, next) ∧
        Served machine 16 pointer next after block := by
  rcases Option.isSome_iff_exists.mp
    (show (run step (boot fun _ => 0xFF) splitting).isSome by decide +kernel) with
    ⟨machine, reached⟩
  have next : ∀ machine ∈ run step (boot fun _ => 0xFF) splitting,
      Allowed machine (.malloc 16) ∧ FitsBelow machine.state 16 := by decide +kernel
  have safe := heap_tiled_and_served (by decide +kernel) reached
  exact ⟨machine, reached, safe.1, safe.2 16 (next machine reached).1 (next machine reached).2⟩

/-- The sum of the addresses wraps, so the heap does not grow. -/
def wrapping : List Event := [.malloc 16, .malloc 0x30000000]

theorem heap_not_tiled :
    ∃ machine, Admissible step Allowed (boot fun _ => 0) wrapping ∧
      run step (boot fun _ => 0) wrapping = some machine ∧
      ¬∃ blocks, Tiled machine.state blocks := by
  rcases Option.isSome_iff_exists.mp
    (show (run step (boot fun _ => 0) wrapping).isSome by decide +kernel) with ⟨machine, reached⟩
  refine ⟨machine, by decide +kernel, reached, ?_⟩
  have fields : ∀ machine ∈ run step (boot fun _ => 0) wrapping,
      machine.state.heap.head = 0xD0000000 ∧ machine.state.heap.heapEnd = 0xD0001000 ∧
        getNext machine.state.memory 0xD0000000 = 0xD0000019 ∧
        getSize machine.state.memory 0xD0000019 = 0x30000000 := by decide +kernel
  rcases fields machine reached with ⟨isHead, isEnd, isNext, isSize⟩
  rintro ⟨blocks, head, linked, last, tiles, below⟩
  match blocks with
  | [] => cases isHead.symm.trans head
  | [block] =>
      have isFirst : block.address = 0xD0000000 := head.symm.trans isHead
      rw [← isFirst, linked.1.next] at isNext
      cases isNext
  | block :: second :: rest =>
      have isFirst : block.address = 0xD0000000 := head.symm.trans isHead
      have isSecond : second.address = 0xD0000019 := by
        rw [← isFirst, linked.1.next] at isNext
        exact isNext
      rw [← isSecond, linked.2.1.size] at isSize
      have bounds := tiles.bounds (show second ∈ block :: second :: rest by simp)
      unfold Block.stop at bounds
      omega

end Dbos.Heap
