import Dbos.Foundation.Pieces
import Dbos.Kernel.Memory.HeapSafety

/-! # The start of a program

`alloc.c` and `bootstrap.c`, which run in the process. The arguments lie at the
beginning of the heap, and what is allocated comes behind them. -/

namespace Dbos.Bootstrap

open Dbos.ByteMemory Dbos.Heap Dbos.Pieces

/-- `ALLOC_HEAP_START`. -/
def allocHeapStart : Nat := 0x50000000

def bootstrapMagic : Nat := 0xDB05DB05

/-! ## The allocator -/

/-- `alloc_initialise`. The difference of the two pointers counts words. -/
def allocInitialise (memory : Memory) (used currentEnd : Nat) : State where
  memory := memory
  heap :=
    { allocatedSize := (currentEnd - (allocHeapStart + used)) / 4
      start := allocHeapStart + used
      heapEnd := currentEnd
      head := 0 }

/-- `alloc_increase_memory`, with what `sbrk` returns. -/
def allocIncreaseMemory (heap : KernHeap) (newEnd : Nat) : KernHeap :=
  { heap with
    heapEnd := newEnd
    allocatedSize := heap.allocatedSize + (newEnd - heap.heapEnd) }

/-- What `alloc_increase_memory` makes of the heap if the kernel knows its end: `sbrk` takes
an `int`, and adds whole pages for a positive one only. -/
def increaseMemory (heap : KernHeap) (bytes : Nat) : KernHeap :=
  if toInt bytes > 0 then increaseHeap heap bytes else heap

/-- A new block behind the last one, in a heap that grows in this way. -/
def appendWith (grow : KernHeap → Nat → KernHeap) (state : State) (item size : Nat) :
    Nat × State :=
  let hsaddr := (item + headerSize + getSize state.memory item) % space
  let headdr := (hsaddr + totalSize size) % space
  let heap :=
    if headdr < state.heap.heapEnd then state.heap else grow state.heap (totalSize size)
  if headdr < heap.heapEnd then
    let memory := setNext state.memory item hsaddr
    let memory := setPresent (setNext (setSize memory hsaddr size) hsaddr 0) hsaddr true
    clear { memory, heap } hsaddr
  else (0, { state with heap })

/-- The text that `kern_malloc` and `alloc_allocate` have in common. -/
def allocateWith (grow : KernHeap → Nat → KernHeap) (state : State) (size : Nat) :
    Option (Nat × State) :=
  if state.heap.head = 0 then
    let item := state.heap.start
    let memory := setSize state.memory item size
    let memory := setPresent (setNext memory item 0) item true
    some (clear { memory, heap := { state.heap with head := item } } item)
  else
    (findItem state.memory size space state.heap.head).map fun item =>
      if getNext state.memory item = 0 then appendWith grow state item size
      else reuse state item size

theorem kernMalloc_eq (state : State) (size : Nat) :
    kernMalloc state size = allocateWith increaseHeap state size := rfl

def allocAllocate (state : State) (size : Nat) : Option (Nat × State) :=
  allocateWith increaseMemory state size

theorem allocAllocate_eq {size : Nat} (small : size + headerSize + 7 < 2 ^ 31) (state : State) :
    allocAllocate state size = kernMalloc state size := by
  have total : totalSize size = (size + 7) / 8 * 8 + headerSize := totalSize_eq (by omega)
  have positive : toInt (totalSize size) > 0 := by
    rw [toInt_of_lt (by omega)]
    unfold headerSize at total
    omega
  have grows : increaseMemory state.heap (totalSize size) =
      increaseHeap state.heap (totalSize size) := if_pos positive
  rw [kernMalloc_eq]
  unfold allocAllocate allocateWith appendWith
  simp only [grows]

/-! ## Strings -/

def strlenFrom (memory : Memory) : Nat → Nat → Option Nat
  | 0, _ => none
  | fuel + 1, str =>
      if load memory str = 0 then some 0 else (strlenFrom memory fuel (str + 1)).map (· + 1)

/-- `strlen`, which does not end in a memory without a 0. -/
def strlen (memory : Memory) (str : Nat) : Option Nat := strlenFrom memory space str

def strncpyFrom (destination source : Nat) : Nat → Nat → Memory → Memory
  | 0, _, memory => memory
  | left + 1, index, memory =>
      if load memory (source + index) = 0 then memory
      else
        strncpyFrom destination source left (index + 1)
          (store memory (destination + index) (load memory (source + index)))

/-- `strncpy`, which does not write a 0. -/
def strncpy (memory : Memory) (destination source length : Nat) : Memory :=
  strncpyFrom destination source length 0 memory

/-! ## `bootstrap` -/

/-- The heap, and the argument that comes next. -/
structure Progress where
  state : State
  str : Nat

/-- The body of the loop over the arguments. -/
def copyArgument (arguments : Nat) (progress : Progress) (index : Nat) : Option Progress :=
  (strlen progress.state.memory progress.str).bind fun len =>
    (allocAllocate progress.state (len + 1)).map fun (arg, state) =>
      let memory := strncpy state.memory arg progress.str len
      { state := { state with memory := storeWord memory (arguments + 4 * index) arg }
        str := progress.str + (len + 1) }

inductive Outcome where
  | exits (status : Int)
  | callsMain (argc arguments : Nat) (state : State)

/-- `bootstrap` up to the call of `main`. -/
def bootstrap (memory : Memory) (magic heapEnd argvTotalLength argc : Nat) : Option Outcome :=
  if magic ≠ bootstrapMagic then some (.exits (-999))
  else
    (allocAllocate (allocInitialise memory argvTotalLength heapEnd) (4 * argc)).bind
      fun (arguments, state) =>
        ((List.range argc).foldlM (copyArgument arguments) ⟨state, allocHeapStart⟩).map
          fun progress => .callsMain argc arguments progress.state

/-! ## Strings in memory -/

/-- The bytes of the string, and a 0 behind them. -/
structure StringAt (memory : Memory) (address : Nat) (string : List UInt8) : Prop where
  bytes : ∀ index (below : index < string.length), load memory (address + index) = string[index]
  ends : load memory (address + string.length) = 0

theorem StringAt.congr {memory other : Memory} {address : Nat} {string : List UInt8}
    (isString : StringAt memory address string)
    (same : SameOn address (address + (string.length + 1)) other memory) :
    StringAt other address string := by
  constructor
  · intro index below
    rw [same _ (by omega) (by omega)]
    exact isString.bytes index below
  · rw [same _ (by omega) (by omega)]
    exact isString.ends

theorem StringAt.tail {memory : Memory} {address : Nat} {byte : UInt8} {string : List UInt8}
    (isString : StringAt memory address (byte :: string)) :
    StringAt memory (address + 1) string := by
  constructor
  · intro index below
    have later := isString.bytes (index + 1) (by simpa using below)
    rw [List.getElem_cons_succ] at later
    rw [← later]
    congr 1
    omega
  · have ends := isString.ends
    rw [List.length_cons] at ends
    rw [← ends]
    congr 1
    omega

theorem StringAt.drop {memory : Memory} {address : Nat} {string : List UInt8}
    (isString : StringAt memory address string) {count : Nat} (atMost : count ≤ string.length) :
    StringAt memory (address + count) (string.drop count) := by
  constructor
  · intro index below
    rw [List.length_drop] at below
    rw [List.getElem_drop, Nat.add_assoc]
    exact isString.bytes (count + index) (by omega)
  · rw [List.length_drop, Nat.add_assoc, Nat.add_sub_cancel' atMost]
    exact isString.ends

theorem StringAt.load_ne_zero {memory : Memory} {address : Nat} {string : List UInt8}
    (isString : StringAt memory address string) (clean : 0 ∉ string) {index : Nat}
    (inside : index < string.length) : load memory (address + index) ≠ 0 := by
  rw [isString.bytes index inside]
  exact fun isZero => clean (isZero ▸ List.getElem_mem inside)

theorem strlenFrom_eq {memory : Memory} {string : List UInt8} (clean : 0 ∉ string)
    {address fuel : Nat} (isString : StringAt memory address string)
    (enough : string.length < fuel) : strlenFrom memory fuel address = some string.length := by
  induction string generalizing address fuel with
  | nil =>
      cases fuel with
      | zero => cases enough
      | succ fuel =>
          have isZero : load memory address = 0 := isString.ends
          rw [strlenFrom, if_pos isZero]
          rfl
  | cons byte string induction =>
      rw [List.mem_cons, not_or] at clean
      cases fuel with
      | zero => cases enough
      | succ fuel =>
          have isByte : load memory address = byte := isString.bytes 0 (by simp)
          have notZero : load memory address ≠ 0 := by
            rw [isByte]
            exact fun isZero => clean.1 isZero.symm
          rw [strlenFrom, if_neg notZero, induction clean.2 isString.tail (by simpa using enough)]
          rfl

/-- The string is copied, and nothing else is written. -/
theorem strncpyFrom_spec {source destination : Nat} {string : List UInt8} (clean : 0 ∉ string)
    (sourceBound : source + string.length ≤ destination)
    (bound : destination + string.length ≤ space) {left index : Nat}
    (isLeft : index + left = string.length) {memory : Memory}
    (bytes : ∀ place (below : place < string.length),
      load memory (source + place) = string[place]) :
    (∀ place (below : place < string.length), index ≤ place →
      load (strncpyFrom destination source left index memory) (destination + place) =
        string[place]) ∧
      ∀ address < space,
        address < destination + index ∨ destination + string.length ≤ address →
          load (strncpyFrom destination source left index memory) address =
            load memory address := by
  induction left generalizing index memory with
  | zero =>
      refine ⟨fun place below above => ?_, fun _ _ _ => rfl⟩
      omega
  | succ left induction =>
      have here : index < string.length := by omega
      have isByte := bytes index here
      have notZero : load memory (source + index) ≠ 0 := by
        rw [isByte]
        exact fun isZero => clean (isZero ▸ List.getElem_mem here)
      rw [strncpyFrom, if_neg notZero]
      have stored : ∀ place (below : place < string.length), load
          (store memory (destination + index) (load memory (source + index))) (source + place) =
            string[place] := by
        intro place below
        rw [load_store_of_ne (by omega) (by omega) (by omega)]
        exact bytes place below
      have nextLeft : index + 1 + left = string.length := by omega
      rcases induction nextLeft stored with ⟨copied, kept⟩
      constructor
      · intro place below above
        by_cases isHere : place = index
        · subst isHere
          rw [kept _ (by omega) (.inl (by omega)), load_store_self]
          exact isByte
        · exact copied place below (by omega)
      · intro address addressBound outside
        rw [kept address addressBound (by omega),
          load_store_of_ne (by omega) addressBound (by omega)]

theorem strncpy_spec {source destination : Nat} {string : List UInt8} (clean : 0 ∉ string)
    (sourceBound : source + string.length ≤ destination)
    (bound : destination + string.length + 1 ≤ space) {memory : Memory}
    (isString : StringAt memory source string)
    (zero : load memory (destination + string.length) = 0) :
    StringAt (strncpy memory destination source string.length) destination string ∧
      ∀ first last, last ≤ space →
        last ≤ destination ∨ destination + string.length ≤ first →
          SameOn first last (strncpy memory destination source string.length) memory := by
  rcases strncpyFrom_spec clean sourceBound (by omega) (Nat.zero_add _) isString.bytes with
    ⟨copied, kept⟩
  refine ⟨⟨fun index below => copied index below (Nat.zero_le _), ?_⟩,
    fun first last lastBound outside address above below => ?_⟩
  · rw [← zero]
    exact kept _ (by omega) (.inr (Nat.le_refl _))
  · exact kept address (by omega) (by omega)

/-! ## Allocations behind each other -/

/-- The heap of a program that has freed nothing. -/
structure Filled (state : State) (blocks : List Block) : Prop where
  tiled : Tiled state blocks
  present : ∀ block ∈ blocks, block.present = true
  positive : 0 < state.heap.start
  bounded : state.heap.heapEnd < 2 ^ 31

theorem Filled.bounds {state : State} {blocks : List Block} (filled : Filled state blocks)
    {block : Block} (member : block ∈ blocks) :
    state.heap.start ≤ block.address ∧ block.stop ≤ state.heap.heapEnd := by
  rcases filled.tiled with ⟨-, -, last, tiles, below⟩
  have bounds := tiles.bounds member
  exact ⟨bounds.1, Nat.le_trans bounds.2 below⟩

theorem allocAllocate_first {state : State} {size : Nat} (empty : state.heap.head = 0)
    (positive : 0 < state.heap.start) (bounded : state.heap.heapEnd < 2 ^ 31)
    (fits : state.heap.start + headerSize + size ≤ state.heap.heapEnd) :
    ∃ next, allocAllocate state size = some (state.heap.start + headerSize, next) ∧
      Filled next [⟨state.heap.start, size, true⟩] ∧ next.heap.start = state.heap.start ∧
      next.heap.heapEnd = state.heap.heapEnd ∧
      ∀ first last, last ≤ state.heap.start → SameOn first last next.memory state.memory := by
  have small : state.heap.heapEnd < space := Nat.lt_trans bounded (by decide)
  have bound : state.heap.start + headerSize ≤ space := by omega
  have written := at_of_written state.memory bound true (show size < space by omega)
    (show 0 < space by decide)
  have stop : Block.stop ⟨state.heap.start, size, true⟩ = state.heap.start + headerSize + size := rfl
  refine ⟨⟨fill (setPresent (setNext (setSize state.memory state.heap.start size) state.heap.start 0)
    state.heap.start true) (state.heap.start + headerSize) 0 size,
    { state.heap with head := state.heap.start }⟩, ?_,
    ⟨⟨rfl, ⟨?_, trivial⟩, _, ⟨rfl, rfl⟩, ?_⟩, ?_, positive, bounded⟩, rfl, rfl, ?_⟩
  · unfold allocAllocate allocateWith
    rw [if_pos empty]
    exact congrArg some (clear_eq written (by omega))
  · refine written.congr (sameOn_fill ?_ ?_ (.inl (Nat.le_refl _)))
    · show state.heap.start + headerSize + size ≤ space
      omega
    · exact bound
  · rw [stop]
    exact fits
  · intro block member
    rw [List.mem_singleton.mp member]
  · intro first last below
    refine SameOn.trans (sameOn_fill ?_ (by omega) (.inl ?_))
      (sameOn_written bound (by omega) (.inl below))
    · show state.heap.start + headerSize + size ≤ space
      omega
    · show last ≤ state.heap.start + headerSize
      omega

theorem heapEnd_increaseHeap {heap : KernHeap} {size : Nat} (small : size ≤ 4096)
    (bounded : heap.heapEnd + 8192 < 2 ^ 31) :
    heap.heapEnd ≤ (increaseHeap heap (totalSize size)).heapEnd ∧
      (increaseHeap heap (totalSize size)).heapEnd ≤ heap.heapEnd + 8192 := by
  have total : totalSize size = (size + 7) / 8 * 8 + headerSize :=
    totalSize_eq (by unfold headerSize; omega)
  have pages : pagesFor (totalSize size) ≤ 2 := by
    rw [total]
    unfold pagesFor headerSize pageByteLen
    split <;> omega
  have inSpace : heap.heapEnd < space := Nat.lt_of_le_of_lt (Nat.le_add_right _ 8192)
    (Nat.lt_trans bounded (by decide))
  have isEnd := (iterate_increaseHeapPage (pagesFor (totalSize size)) inSpace).1
  unfold increaseHeap
  rw [isEnd]
  unfold pageByteLen space
  rw [Nat.mod_eq_of_lt (by omega)]
  constructor <;> omega

theorem Filled.findItem {state : State} {before : List Block} {last : Block} {size : Nat}
    (filled : Filled state (before ++ [last])) (small : size ≤ 4096) :
    state.heap.head ≠ 0 ∧
      findItem state.memory size space state.heap.head = some last.address := by
  rcases filled.tiled with ⟨head, linked, upTo, tiles, below⟩
  have positive := filled.positive
  have bounded := filled.bounded
  have length := tiles.length_le
  have enough : (before ++ [last]).length ≤ space := by
    unfold space
    omega
  have sizes : ∀ block ∈ before ++ [last], block.size < 2 ^ 31 := by
    intro block member
    have bounds := filled.bounds member
    unfold Block.stop at bounds
    omega
  rcases findItem_spec linked tiles positive (by simp) (show size < 2 ^ 31 by omega) sizes
    enough with ⟨front, block, after, split, found, middle⟩
  cases after with
  | cons next after =>
      have isFree := (middle (List.cons_ne_nil _ _)).2
      have isPresent := filled.present block (by rw [split]; simp)
      rw [isFree] at isPresent
      cases isPresent
  | nil =>
      rcases List.append_inj' split rfl with ⟨-, same⟩
      rw [List.singleton_inj] at same
      rw [← head, ← same] at found
      refine ⟨?_, found⟩
      have first : state.heap.start ≤ state.heap.head := by
        rw [head]
        cases before with
        | nil => exact (filled.bounds List.mem_cons_self).1
        | cons other before => exact (filled.bounds List.mem_cons_self).1
      omega

/-- The heap that has room for one more block behind the last one. -/
structure HeapFor (heap : KernHeap) (last : Block) (size : Nat) (grown : KernHeap) : Prop where
  result : (if last.stop + totalSize size < heap.heapEnd then heap
    else increaseHeap heap (totalSize size)) = grown
  enough : last.stop + headerSize + size ≤ grown.heapEnd ∧ last.stop + totalSize size < grown.heapEnd
  start : grown.start = heap.start
  head : grown.head = heap.head
  heapEnd : grown.heapEnd ≤ heap.heapEnd + 8192

section Append

variable {state : State} {before : List Block} {last : Block} {size : Nat}
  (filled : Filled state (before ++ [last])) (small : size ≤ 4096)
  (room : state.heap.heapEnd + 8192 < 2 ^ 31)
include filled small room

theorem Filled.exists_heapFor : ∃ grown, HeapFor state.heap last size grown := by
  have bounds := (filled.bounds (List.mem_append_right before (List.mem_singleton_self last))).2
  have headerSmall : size + headerSize < 2 ^ 31 := by
    unfold headerSize
    omega
  have total := totalSize_eq headerSmall
  have growth := heapEnd_increaseHeap small room
  have inSpace : state.heap.heapEnd < space := by
    unfold space
    omega
  have notWrapped : state.heap.heapEnd ≤ (if last.stop + totalSize size < state.heap.heapEnd then
      state.heap else increaseHeap state.heap (totalSize size)).heapEnd := by
    split
    · exact Nat.le_refl _
    · exact growth.1
  rcases grown_spec headerSmall inSpace (Nat.add_le_add_right bounds (totalSize size)) notWrapped with
    ⟨grown, isGrown, enough, -, -, isStart, isHead⟩
  refine ⟨grown, isGrown, ⟨?_, enough⟩, isStart, isHead, ?_⟩
  · unfold headerSize at *
    omega
  · rw [← isGrown]
    split
    · exact Nat.le_add_right _ _
    · exact growth.2

/-- The blocks with a new one, whose payload is cleared. -/
theorem Filled.appended {grown : KernHeap} (fits : HeapFor state.heap last size grown) :
    Filled ⟨fill (appended state.memory last size) (last.stop + headerSize) 0 size, grown⟩
      (before ++ [last, ⟨last.stop, size, true⟩]) := by
  rcases filled.tiled with ⟨head, linked, upTo, tiles, below⟩
  rcases tiles_append.mp tiles with ⟨middle, tilesBefore, rfl, isUpTo⟩
  have isStop : last.stop = upTo := isUpTo
  have enough := fits.enough.1
  have grownEnd := fits.heapEnd
  have inSpace : state.heap.heapEnd + 8192 < space := Nat.lt_trans room (by decide)
  have newLinked := linked_appended (show last.stop + headerSize ≤ space by omega)
    (show size < space by omega) linked tilesBefore
  have memberCases : ∀ block ∈ before ++ [last, ⟨last.stop, size, true⟩],
      block ∈ before ++ [last] ∨ block = ⟨last.stop, size, true⟩ := by
    intro block member
    simpa [or_assoc] using member
  refine ⟨⟨?_, newLinked.congr fun block member => ?_, last.stop + headerSize + size, ?_, enough⟩,
    fun block member => ?_, ?_, show grown.heapEnd < 2 ^ 31 by omega⟩
  · show grown.head = _
    rw [fits.head, head, firstOr_append, firstOr_append]
    rfl
  · have below : block.payload ≤ last.stop + headerSize := by
      rcases memberCases block member with isOld | rfl
      · have bounds := (tiles.bounds isOld).2
        unfold Block.payload
        unfold Block.stop at bounds isStop ⊢
        omega
      · exact Nat.le_refl _
    exact sameOn_fill (by omega) (by omega) (.inl below)
  · rw [fits.start]
    exact tiles_append.mpr ⟨last.address, tilesBefore, rfl, rfl, rfl⟩
  · rcases memberCases block member with isOld | rfl
    · exact filled.present block isOld
    · rfl
  · rw [fits.start]
    exact filled.positive

theorem allocAllocate_append :
    ∃ next, allocAllocate state size = some (last.stop + headerSize, next) ∧
      Filled next (before ++ [last, ⟨last.stop, size, true⟩]) ∧
      next.heap.start = state.heap.start ∧
      next.heap.heapEnd ≤ state.heap.heapEnd + 8192 ∧
      (∀ index < size, load next.memory (last.stop + headerSize + index) = 0) ∧
      ∀ first upTo, upTo ≤ last.stop → upTo ≤ last.address ∨ last.payload ≤ first →
        SameOn first upTo next.memory state.memory := by
  rcases filled.exists_heapFor small room with ⟨grown, fits⟩
  rcases filled.findItem small with ⟨notNull, found⟩
  rcases filled.tiled with ⟨head, linked, upTo, tiles, below⟩
  rcases linked_append.mp linked with ⟨-, lastAt, -⟩
  rcases tiles_append.mp tiles with ⟨middle, tilesBefore, rfl, isUpTo⟩
  have bounds := (filled.bounds (List.mem_append_right before (List.mem_singleton_self last))).2
  have enough := fits.enough
  have grownEnd := fits.heapEnd
  have inSpace : state.heap.heapEnd + 8192 < space := Nat.lt_trans room (by decide)
  have newBound : last.stop + headerSize ≤ space := by omega
  have fillBound : last.stop + headerSize + size ≤ space := by omega
  have newAt := (linked_append.mp
    (linked_appended newBound (show size < space by omega) linked tilesBefore)).2.2.1
  have cleared : clear ⟨Heap.appended state.memory last size, grown⟩ last.stop =
      (last.stop + headerSize, ⟨fill (Heap.appended state.memory last size)
        (last.stop + headerSize) 0 size, grown⟩) :=
    clear_eq newAt (by unfold Block.stop at *; simp only; omega)
  refine ⟨_, ?_, filled.appended small room fits, fits.start, grownEnd,
    fun index less => ?_, fun first upTo inside outside => ?_⟩
  · rw [allocAllocate_eq (by unfold headerSize; omega)]
    unfold kernMalloc
    rw [if_neg notNull, found, Option.map_some, lastAt.next]
    simp only [firstOr, if_true]
    rw [append_eq lastAt.size (by omega)]
    simp only [fits.result, if_pos enough.2, cleared]
  · exact load_fill_inside fillBound (Nat.le_add_right _ _) (by omega)
  · refine SameOn.trans (sameOn_fill fillBound (by omega) (.inl ?_))
      (sameOn_appended newBound inside outside)
    omega

end Append

/-- A request behind some blocks leaves their payloads alone, and what is below the heap. -/
structure Allocates (state : State) (blocks : List Block) (size stop : Nat) (next : State) : Prop where
  result : allocAllocate state size = some (stop + headerSize, next)
  filled : Filled next (blocks ++ [⟨stop, size, true⟩])
  start : next.heap.start = state.heap.start
  heapEnd : next.heap.heapEnd ≤ state.heap.heapEnd + 8192
  zero : ∀ index < size, load next.memory (stop + headerSize + index) = 0
  payloads : ∀ block ∈ blocks, block.stop ≤ stop ∧
    SameOn block.payload block.stop next.memory state.memory
  below : ∀ first upTo, upTo ≤ state.heap.start → SameOn first upTo next.memory state.memory

theorem allocAllocate_next {state : State} {blocks : List Block} {size : Nat}
    (filled : Filled state blocks) (nonempty : blocks ≠ []) (small : size ≤ 4096)
    (room : state.heap.heapEnd + 8192 < 2 ^ 31) :
    ∃ stop next, Allocates state blocks size stop next := by
  rcases List.eq_nil_or_concat' blocks with isNil | ⟨before, last, rfl⟩
  · exact absurd isNil nonempty
  rcases allocAllocate_append filled small room with
    ⟨next, allocated, nextFilled, isStart, below, zero, same⟩
  refine ⟨last.stop, next, allocated, ?_, isStart, below, zero, fun block member => ?_,
    fun first upTo inside => ?_⟩
  · rw [List.append_assoc]
    exact nextFilled
  · rcases filled.tiled with ⟨-, -, upTo, tiles, -⟩
    rcases tiles_append.mp tiles with ⟨middle, tilesBefore, isMiddle, -⟩
    rcases List.mem_append.mp member with isBefore | isLast
    · have bounds := (tilesBefore.bounds isBefore).2
      rw [← isMiddle] at bounds
      have inLast : last.address ≤ last.stop := by
        unfold Block.stop
        omega
      exact ⟨Nat.le_trans bounds inLast,
        same _ _ (Nat.le_trans bounds inLast) (.inl bounds)⟩
    · rw [List.mem_singleton.mp isLast]
      exact ⟨Nat.le_refl _, same _ _ (Nat.le_refl _) (.inr (Nat.le_refl _))⟩
  · have bounds := filled.bounds (List.mem_append_right before (List.mem_singleton_self last))
    refine same first upTo ?_ (.inl (by omega))
    unfold Block.stop
    omega

theorem Filled.write {state : State} {blocks : List Block} (filled : Filled state blocks)
    {memory : Memory}
    (same : ∀ block ∈ blocks, SameOn block.address block.payload memory state.memory) :
    Filled { state with memory } blocks := by
  rcases filled.tiled with ⟨head, linked, tiles⟩
  exact ⟨⟨head, linked.congr same, tiles⟩, filled.present, filled.positive, filled.bounded⟩

/-! ## The packed strings -/

/-- The strings lie behind each other at the beginning of the heap. -/
def PackedAt (memory : Memory) (strings : List (List UInt8)) : Prop :=
  ∀ index (below : index < (marked 0 strings).length),
    load memory (allocHeapStart + index) = (marked 0 strings)[index]

theorem marked_split (strings : List (List UInt8)) {count : Nat} (below : count < strings.length) :
    marked 0 strings =
      marked 0 (strings.take count) ++ (strings[count] ++ 0 :: marked 0 (strings.drop (count + 1)))
      := by
  have split : strings.take count ++ strings[count] :: strings.drop (count + 1) = strings := by
    rw [← List.drop_eq_getElem_cons below, List.take_append_drop]
  unfold marked
  conv_lhs => rw [← split]
  rw [List.flatMap_append, List.flatMap_cons, List.append_assoc]
  rfl

theorem stringAt_of_packed {memory : Memory} {strings : List (List UInt8)}
    (packed : PackedAt memory strings) {count : Nat} (below : count < strings.length) :
    (marked 0 (strings.take count)).length + strings[count].length + 1 ≤
        (marked 0 strings).length ∧
      StringAt memory (allocHeapStart + (marked 0 (strings.take count)).length) strings[count] := by
  have split := marked_split strings below
  have length := congrArg List.length split
  rw [List.length_append, List.length_append, List.length_cons] at length
  refine ⟨by omega, ⟨fun index less => ?_, ?_⟩⟩
  · have isByte := packed ((marked 0 (strings.take count)).length + index) (by omega)
    rw [Nat.add_assoc, isByte]
    simp only [split]
    rw [List.getElem_append_right (by omega), List.getElem_append_left (by omega)]
    congr 1
    omega
  · have isByte := packed ((marked 0 (strings.take count)).length + strings[count].length)
      (by omega)
    rw [Nat.add_assoc, isByte]
    simp only [split]
    rw [List.getElem_append_right (by omega), List.getElem_append_right (by omega)]
    simp

theorem length_marked_take (strings : List (List UInt8)) {count : Nat}
    (below : count < strings.length) :
    (marked 0 (strings.take (count + 1))).length =
      (marked 0 (strings.take count)).length + (strings[count].length + 1) := by
  rw [List.take_add_one, List.getElem?_eq_getElem below]
  unfold marked
  rw [List.flatMap_append, List.length_append, Option.toList_some, List.flatMap_singleton,
    List.length_append, List.length_singleton]

/-! ## The loop -/

/-- Where the array of pointers is allocated. -/
def heapBase (strings : List (List UInt8)) : Nat := allocHeapStart + (marked 0 strings).length

/-- The array of pointers, as a block of the heap. -/
def arrayBlock (strings : List (List UInt8)) : Block :=
  ⟨heapBase strings, 4 * strings.length, true⟩

/-- The pointers to the first `count` arguments are in place. -/
def ArgumentsAt (memory : Memory) (arguments : Nat) (strings : List (List UInt8)) (count : Nat) :
    Prop :=
  ∀ index (below : index < strings.length), index < count →
    StringAt memory (loadWord memory (arguments + 4 * index)) strings[index]

/-- The strings, the header and the pointers fit in one page. -/
def FitsPage (strings : List (List UInt8)) : Prop :=
  (marked 0 strings).length + headerSize + 4 * strings.length ≤ 4096

/-- What holds when `count` arguments have been copied: their blocks follow the array. -/
structure Copied (memory : Memory) (strings : List (List UInt8)) (count : Nat)
    (progress : Progress) (blocks : List Block) : Prop where
  filled : Filled progress.state (arrayBlock strings :: blocks)
  start : progress.state.heap.start = heapBase strings
  heapEnd : progress.state.heap.heapEnd ≤ allocHeapStart + 4096 + 8192 * count
  str : progress.str = allocHeapStart + (marked 0 (strings.take count)).length
  packed : SameOn allocHeapStart (heapBase strings) progress.state.memory memory
  copied : ∀ index (below : index < strings.length), index < count → ∃ block ∈ blocks,
    block.size = strings[index].length + 1 ∧
      loadWord progress.state.memory ((arrayBlock strings).payload + 4 * index) = block.payload ∧
      StringAt progress.state.memory block.payload strings[index]

section Loop

variable {memory : Memory} {strings : List (List UInt8)} {count : Nat} {progress : Progress}
  {blocks : List Block}

/-- What an argument is written to: the new block and one of the pointers. -/
structure Written (memory after : Memory) (arg array : Nat) (string : List UInt8) : Prop where
  string : StringAt after arg string
  pointer : loadWord after array = arg
  same : ∀ first last, last ≤ arg → last ≤ array ∨ array + 4 ≤ first →
    SameOn first last after memory

theorem written_argument {state : State} {arg source array : Nat} {string : List UInt8}
    (clean : 0 ∉ string) (sourceBound : source + string.length ≤ arg)
    (bound : arg + string.length + 1 ≤ space) (isString : StringAt state.memory source string)
    (zero : load state.memory (arg + string.length) = 0) (arrayBound : array + 4 ≤ arg) :
    Written state.memory (storeWord (strncpy state.memory arg source string.length) array arg) arg
      array string := by
  rcases strncpy_spec clean sourceBound bound isString zero with ⟨copied, kept⟩
  refine ⟨copied.congr ?_, loadWord_storeWord (by omega) (by omega),
    fun first last below outside => ?_⟩
  · exact sameOn_storeWord (by omega) (by omega) (.inr (by omega))
  · exact (sameOn_storeWord (by omega) (by omega) (by omega)).trans
      (kept first last (by omega) (.inl below))

theorem Copied.source (isCopied : Copied memory strings count progress blocks)
    (packed : PackedAt memory strings) (below : count < strings.length) :
    StringAt progress.state.memory progress.str strings[count] := by
  rcases stringAt_of_packed packed below with ⟨inside, isPacked⟩
  rw [isCopied.str]
  refine isPacked.congr (isCopied.packed.mono (Nat.le_add_right _ _) ?_)
  unfold heapBase
  omega

theorem Copied.behind (isCopied : Copied memory strings count progress blocks) (block : Block)
    (member : block ∈ blocks) : (arrayBlock strings).stop ≤ block.address := by
  rcases isCopied.filled.tiled with ⟨-, -, upTo, tiles, -⟩
  exact (tiles.2.bounds member).1

theorem Copied.allocates (isCopied : Copied memory strings count progress blocks)
    (packed : PackedAt memory strings) (fits : FitsPage strings) (below : count < strings.length) :
    ∃ stop state, Allocates progress.state (arrayBlock strings :: blocks) (strings[count].length + 1)
      stop state := by
  unfold FitsPage headerSize at fits
  rcases stringAt_of_packed packed below with ⟨inside, -⟩
  have isEnd := isCopied.heapEnd
  unfold allocHeapStart at isEnd
  exact allocAllocate_next isCopied.filled (List.cons_ne_nil _ _) (by omega) (by omega)

section Step

variable {stop : Nat} {state : State} {after : Memory} {below : count < strings.length}

theorem Copied.isWritten (isCopied : Copied memory strings count progress blocks)
    (packed : PackedAt memory strings) (clean : ∀ string ∈ strings, 0 ∉ string)
    (below : count < strings.length)
    (allocates : Allocates progress.state (arrayBlock strings :: blocks)
      (strings[count].length + 1) stop state) :
    Written state.memory (storeWord (strncpy state.memory (stop + headerSize) progress.str
        strings[count].length) ((arrayBlock strings).payload + 4 * count) (stop + headerSize))
      (stop + headerSize) ((arrayBlock strings).payload + 4 * count) strings[count] := by
  rcases stringAt_of_packed packed below with ⟨inside, -⟩
  have length := length_marked_take strings below
  have arrayStop := (allocates.payloads _ List.mem_cons_self).1
  have isArray : (arrayBlock strings).payload = heapBase strings + headerSize ∧
      (arrayBlock strings).stop = (arrayBlock strings).payload + 4 * strings.length := ⟨rfl, rfl⟩
  have newBounds :=
    (allocates.filled.bounds (List.mem_append_right _ (List.mem_singleton_self _))).2
  have newStop : Block.stop ⟨stop, strings[count].length + 1, true⟩ =
      stop + headerSize + (strings[count].length + 1) := rfl
  have bounded := Nat.lt_trans allocates.filled.bounded (show 2 ^ 31 < space by decide)
  have isStr := isCopied.str
  unfold heapBase at isArray
  have isSource : StringAt state.memory progress.str strings[count] := by
    refine (isCopied.source packed below).congr
      ((allocates.below allocHeapStart (heapBase strings) ?_).mono ?_ ?_)
    · exact Nat.le_of_eq isCopied.start.symm
    · omega
    · unfold heapBase
      omega
  exact written_argument (clean _ (List.getElem_mem below)) (by omega) (by omega) isSource
    (allocates.zero _ (Nat.lt_succ_self _)) (by omega)

variable (isCopied : Copied memory strings count progress blocks)
  (allocates : Allocates progress.state (arrayBlock strings :: blocks) (strings[count].length + 1)
    stop state)
  (written : Written state.memory after (stop + headerSize)
    ((arrayBlock strings).payload + 4 * count) strings[count])
include isCopied allocates written

/-- The headers of the blocks are still there. -/
theorem Copied.headers (block : Block)
    (member : block ∈ (arrayBlock strings :: blocks) ++ [⟨stop, strings[count].length + 1, true⟩]) :
    SameOn block.address block.payload after state.memory := by
  have isArray : (arrayBlock strings).stop = (arrayBlock strings).payload + 4 * strings.length := rfl
  have arrayStop := (allocates.payloads _ List.mem_cons_self).1
  rcases List.mem_append.mp member with isOld | isNew
  · have inside := (allocates.payloads block isOld).1
    have payload : block.payload ≤ block.stop := Nat.le_add_right _ _
    refine written.same _ _ (by omega) ?_
    rcases List.mem_cons.mp isOld with rfl | isArgumentBlock
    · exact .inl (by omega)
    · have later := isCopied.behind block isArgumentBlock
      exact .inr (by omega)
  · rw [List.mem_singleton.mp isNew]
    exact written.same _ _ (Nat.le_refl _) (.inr (show _ ≤ stop by omega))

/-- So are the arguments that have been copied before. -/
theorem Copied.earlier {index : Nat} (indexBelow : index < strings.length) (less : index < count) :
    ∃ block ∈ blocks, block.size = strings[index].length + 1 ∧
      loadWord after ((arrayBlock strings).payload + 4 * index) = block.payload ∧
      StringAt after block.payload strings[index] := by
  rcases isCopied.copied index indexBelow less with ⟨block, member, isSize, pointer, argument⟩
  have isArray : (arrayBlock strings).stop = (arrayBlock strings).payload + 4 * strings.length := rfl
  have array := allocates.payloads _ List.mem_cons_self
  have kept := allocates.payloads block (List.mem_cons_of_mem _ member)
  have later := isCopied.behind block member
  have payload : block.payload = block.address + headerSize := rfl
  have blockStop : block.stop = block.payload + block.size := rfl
  refine ⟨block, member, isSize, ?_, argument.congr ?_⟩
  · rw [← pointer]
    have sameWord := written.same ((arrayBlock strings).payload + 4 * index)
      ((arrayBlock strings).payload + 4 * index + 4) (by omega) (by omega)
    have sameArray := array.2.mono
      (show (arrayBlock strings).payload ≤ (arrayBlock strings).payload + 4 * index by omega)
      (show (arrayBlock strings).payload + 4 * index + 4 ≤ (arrayBlock strings).stop by omega)
    exact (sameWord.trans sameArray).loadWord (Nat.le_refl _) (Nat.le_refl _)
  · rw [← isSize, ← blockStop]
    exact (written.same _ _ (by omega) (.inr (by omega))).trans kept.2

end Step

theorem Copied.next (isCopied : Copied memory strings count progress blocks)
    (packed : PackedAt memory strings) (fits : FitsPage strings)
    (clean : ∀ string ∈ strings, 0 ∉ string) (below : count < strings.length) :
    ∃ next after, copyArgument (arrayBlock strings).payload progress count = some next ∧
      Copied memory strings (count + 1) next after := by
  have fits' := fits
  unfold FitsPage headerSize at fits'
  have length := length_marked_take strings below
  rcases stringAt_of_packed packed below with ⟨inside, -⟩
  have isLength : strlen progress.state.memory progress.str = some strings[count].length :=
    strlenFrom_eq (clean _ (List.getElem_mem below)) (isCopied.source packed below)
      (by unfold space; omega)
  rcases isCopied.allocates packed fits below with ⟨stop, state, allocates⟩
  have written := isCopied.isWritten packed clean below allocates
  have arrayStop := (allocates.payloads _ List.mem_cons_self).1
  have isArray : (arrayBlock strings).payload = heapBase strings + headerSize ∧
      (arrayBlock strings).stop = (arrayBlock strings).payload + 4 * strings.length := ⟨rfl, rfl⟩
  refine ⟨⟨{ state with memory := storeWord (strncpy state.memory (stop + headerSize) progress.str
    strings[count].length) ((arrayBlock strings).payload + 4 * count) (stop + headerSize) },
    progress.str + (strings[count].length + 1)⟩,
    blocks ++ [⟨stop, strings[count].length + 1, true⟩], ?_,
    ⟨?_, allocates.start.trans isCopied.start, ?_, ?_, ?_, fun index indexBelow less => ?_⟩⟩
  · unfold copyArgument
    rw [isLength, Option.bind_some, allocates.result, Option.map_some]
  · exact allocates.filled.write (isCopied.headers allocates written)
  · refine Nat.le_trans (Nat.le_trans allocates.heapEnd (Nat.add_le_add_right isCopied.heapEnd 8192))
      (Nat.le_of_eq ?_)
    rw [Nat.mul_add_one, Nat.add_assoc _ (8192 * count) 8192]
  · show progress.str + _ = _
    rw [isCopied.str, length]
    omega
  · refine SameOn.trans (written.same _ _ ?_ (.inl ?_)) ((allocates.below _ _ ?_).trans isCopied.packed)
    · omega
    · omega
    · exact Nat.le_of_eq isCopied.start.symm
  · by_cases isLast : index = count
    · subst isLast
      exact ⟨_, List.mem_append_right _ (List.mem_singleton_self _), rfl, written.pointer,
        written.string⟩
    · rcases isCopied.earlier allocates written indexBelow (by omega) with ⟨block, member, argument⟩
      exact ⟨block, List.mem_append_left _ member, argument⟩

theorem copied_loop (packed : PackedAt memory strings) (fits : FitsPage strings)
    (clean : ∀ string ∈ strings, 0 ∉ string) {state : State}
    (initial : Copied memory strings 0 ⟨state, allocHeapStart⟩ []) (count : Nat)
    (bound : count ≤ strings.length) :
    ∃ progress blocks, (List.range count).foldlM (copyArgument (arrayBlock strings).payload)
        ⟨state, allocHeapStart⟩ = some progress ∧
      Copied memory strings count progress blocks := by
  induction count with
  | zero => exact ⟨_, [], rfl, initial⟩
  | succ count induction =>
      rcases induction (by omega) with ⟨progress, blocks, sofar, isCopied⟩
      rcases isCopied.next packed fits clean (by omega) with ⟨next, after, stepped, nextCopied⟩
      refine ⟨next, after, ?_, nextCopied⟩
      rw [List.range_succ, List.foldlM_append, sofar]
      exact (Option.bind_some _ _).trans ((Option.bind_eq_some_iff.mpr ⟨next, stepped, rfl⟩))

end Loop

/-- `main` is called with the strings: each pointer of the array points to the bytes of
its string and a 0. The strings that were passed are still there, and all blocks lie in
the heap. -/
theorem bootstrap_callsMain {memory : Memory} {strings : List (List UInt8)}
    (packed : PackedAt memory strings) (fits : FitsPage strings)
    (clean : ∀ string ∈ strings, 0 ∉ string) :
    ∃ arguments state blocks,
      bootstrap memory bootstrapMagic (allocHeapStart + 4096) (marked 0 strings).length
        strings.length = some (.callsMain strings.length arguments state) ∧
      ArgumentsAt state.memory arguments strings strings.length ∧
      SameOn allocHeapStart (allocHeapStart + (marked 0 strings).length) state.memory memory ∧
      Tiled state blocks := by
  have fits' := fits
  unfold FitsPage headerSize at fits'
  have room : heapBase strings + headerSize + 4 * strings.length ≤ allocHeapStart + 4096 := by
    unfold heapBase headerSize
    omega
  rcases @allocAllocate_first (allocInitialise memory (marked 0 strings).length
    (allocHeapStart + 4096)) (4 * strings.length) rfl
    (show 0 < allocHeapStart + _ by unfold allocHeapStart; omega)
    (show allocHeapStart + 4096 < 2 ^ 31 by decide) room with
    ⟨state, allocated, filled, isStart, isEnd, lower⟩
  have initial : Copied memory strings 0 ⟨state, allocHeapStart⟩ [] := by
    refine ⟨filled, isStart, Nat.le_of_eq isEnd, rfl, lower _ _ (Nat.le_refl _), ?_⟩
    intro index _ below
    cases below
  rcases copied_loop packed fits clean initial strings.length (Nat.le_refl _) with
    ⟨progress, blocks, looped, isCopied⟩
  refine ⟨(arrayBlock strings).payload, progress.state, arrayBlock strings :: blocks, ?_,
    fun index below less => ?_, isCopied.packed, isCopied.filled.tiled⟩
  · unfold bootstrap
    rw [if_neg (not_not_intro rfl), allocated, Option.bind_some]
    simp only
    have isArray : (allocInitialise memory (marked 0 strings).length
        (allocHeapStart + 4096)).heap.start + headerSize = (arrayBlock strings).payload := rfl
    rw [isArray, looped, Option.map_some]
  · rcases isCopied.copied index below less with ⟨block, -, -, pointer, argument⟩
    rw [pointer]
    exact argument

end Dbos.Bootstrap
