import Dbos.Kernel.Memory.HeapSafety
import Dbos.Kernel.Memory.KernelPages

/-! # The heap behind the page tables

`memory_heap.c` again, with every access to a header or a payload through the page tables in
use and with the growth of the heap through `set_page_table_entry`. `Dbos.Heap` has the same
functions over a flat memory. -/

namespace Dbos.PagedHeap

open Paging (Phys Memory)
open Paging.KernelAccess
open Heap (KernHeap headerSize pageByteLen kernelHeapInitAddr toInt totalSize pagesFor)
open ByteMemory (space)

/-! ## The functions -/

structure State where
  memory : Memory
  phys : Phys
  heap : KernHeap

def getSize (memory : Memory) (cr3 item : Nat) : Option Nat := loadWord memory cr3 item

def getNext (memory : Memory) (cr3 item : Nat) : Option Nat := loadWord memory cr3 (item + 4)

def getPresent (memory : Memory) (cr3 item : Nat) : Option Bool :=
  (load memory cr3 (item + 8)).map fun byte => byte.toNat % 2 = 1

def setSize (memory : Memory) (cr3 item size : Nat) : Option Memory :=
  storeWord memory cr3 item size

def setNext (memory : Memory) (cr3 item next : Nat) : Option Memory :=
  storeWord memory cr3 (item + 4) next

def setPresent (memory : Memory) (cr3 item : Nat) (present : Bool) : Option Memory := do
  let byte ← load memory cr3 (item + 8)
  store memory cr3 (item + 8) (.ofNat (byte.toNat / 2 * 2 + present.toNat))

/-- One round of the loop of `increase_heap`. -/
def increaseHeapPage (cr3 : Nat) (state : State) : Option State := do
  let (heapPhys, phys) := state.phys.allocPage
  let machine ← Paging.Window.setPageTableEntry cr3 { memory := state.memory, phys } (cr3 * 4096)
    state.heap.heapEnd (heapPhys * 4096) 1 0
  return { memory := machine.memory, phys := machine.phys, heap := Heap.increaseHeapPage state.heap }

def increaseHeapPages (cr3 : Nat) : Nat → State → Option State
  | 0, state => some state
  | pages + 1, state => (increaseHeapPage cr3 state).bind (increaseHeapPages cr3 pages)

def increaseHeap (cr3 : Nat) (state : State) (bytes : Nat) : Option State :=
  increaseHeapPages cr3 (pagesFor bytes) state

def initialiseHeap (cr3 : Nat) (machine : Paging.Machine) : Option State := do
  let (heapInitPhys, phys) := machine.phys.allocPage
  let machine ← Paging.Window.setPageTableEntry cr3 { machine with phys } (cr3 * 4096)
    kernelHeapInitAddr (heapInitPhys * 4096) 1 0
  return { memory := machine.memory, phys := machine.phys, heap := (Heap.initialiseHeap fun _ => 0).heap }

def kernFree (cr3 : Nat) (state : State) (object : Nat) : Option State := do
  let memory ← setPresent state.memory cr3 ((object + space - headerSize) % space) false
  return { state with memory }

/-- The loop of `kern_malloc` over the blocks. -/
def findItem (memory : Memory) (cr3 size : Nat) : Nat → Nat → Option Nat
  | 0, _ => none
  | fuel + 1, item => do
      let next ← getNext memory cr3 item
      if next = 0 then return item
      else
        let itemSize ← getSize memory cr3 item
        let present ← getPresent memory cr3 item
        if toInt itemSize ≥ toInt size ∧ present = false then return item
        else findItem memory cr3 size fuel next

/-- Where `kern_malloc` ends: the payload is cleared. -/
def clear (cr3 : Nat) (state : State) (item : Nat) : Option (Nat × State) := do
  let addr := (item + headerSize) % space
  let size ← getSize state.memory cr3 item
  let memory ← memset8 cr3 addr 0 size state.memory
  return (addr, { state with memory })

/-- The part of `kern_malloc` that grows the heap if the end of the new block is not below its
end. -/
def makeRoom (cr3 : Nat) (state : State) (headdr totalSize : Nat) : Option State :=
  if headdr < state.heap.heapEnd then some state else increaseHeap cr3 state totalSize

/-- The part of `kern_malloc` that writes the new block. -/
def writeBlock (cr3 : Nat) (state : State) (item hsaddr size : Nat) : Option (Nat × State) := do
  let memory ← setNext state.memory cr3 item hsaddr
  let memory ← setSize memory cr3 hsaddr size
  let memory ← setNext memory cr3 hsaddr 0
  let memory ← setPresent memory cr3 hsaddr true
  clear cr3 { state with memory } hsaddr

/-- A new block behind the last one. -/
def append (cr3 : Nat) (state : State) (item size : Nat) : Option (Nat × State) := do
  let itemSize ← getSize state.memory cr3 item
  let hsaddr := (item + headerSize + itemSize) % space
  let headdr := (hsaddr + totalSize size) % space
  let state ← makeRoom cr3 state headdr (totalSize size)
  if headdr < state.heap.heapEnd then writeBlock cr3 state item hsaddr size
  else return (0, state)

/-- A free block in the middle, which is split if what is left is large enough. -/
def reuse (cr3 : Nat) (state : State) (item size : Nat) : Option (Nat × State) := do
  let itemSize ← getSize state.memory cr3 item
  let diff := toInt ((itemSize + space - size) % space)
  if diff ≥ headerSize + 1 then
    let itemNext ← getNext state.memory cr3 item
    let memory ← setSize state.memory cr3 item size
    let itemSize ← getSize memory cr3 item
    let sibling := (item + headerSize + itemSize) % space
    let memory ← setPresent memory cr3 item true
    let memory ← setNext memory cr3 item sibling
    let memory ← setSize memory cr3 sibling (diff - headerSize).toNat
    let memory ← setPresent memory cr3 sibling false
    let memory ← setNext memory cr3 sibling itemNext
    clear cr3 { state with memory } item
  else
    let memory ← setPresent state.memory cr3 item true
    clear cr3 { state with memory } item

/-- `kern_malloc`. A walk of more steps than there are addresses does not end. -/
def kernMalloc (cr3 : Nat) (state : State) (size : Nat) : Option (Nat × State) :=
  if state.heap.head = 0 then do
    let item := state.heap.start
    let memory ← setSize state.memory cr3 item size
    let memory ← setNext memory cr3 item 0
    let memory ← setPresent memory cr3 item true
    clear cr3 { state with memory, heap := { state.heap with head := item } } item
  else do
    let item ← findItem state.memory cr3 size space state.heap.head
    let next ← getNext state.memory cr3 item
    if next = 0 then append cr3 state item size else reuse cr3 state item size

open Heap (Block Linked Tiles Whole firstOr)

/-! ## The functions on a range of pages -/

section View

variable {memory next : Memory} {cr3 first last item : Nat} {flat : ByteMemory.Memory}

theorem getSize_eq (view : View memory cr3 first last next flat) (low : first ≤ item)
    (high : item + headerSize ≤ last) : getSize next cr3 item = some (Heap.getSize flat item) := by
  unfold headerSize at high
  exact view.loadWord low (by omega)

theorem getNext_eq (view : View memory cr3 first last next flat) (low : first ≤ item)
    (high : item + headerSize ≤ last) : getNext next cr3 item = some (Heap.getNext flat item) := by
  unfold headerSize at high
  exact view.loadWord (by omega) (by omega)

theorem getPresent_eq (view : View memory cr3 first last next flat) (low : first ≤ item)
    (high : item + headerSize ≤ last) :
    getPresent next cr3 item = some (Heap.getPresent flat item) := by
  unfold headerSize at high
  unfold getPresent
  rw [view.shows (item + 8) (by omega) (by omega)]
  rfl

variable (backed : Backed memory cr3 first last) (view : View memory cr3 first last next flat)
  (low : first ≤ item) (high : item + headerSize ≤ last)
include backed view low high

theorem setSize_view (size : Nat) : ∃ after, setSize next cr3 item size = some after ∧
    View memory cr3 first last after (Heap.setSize flat item size) := by
  unfold headerSize at high
  exact view.storeWord backed low (by omega) size

theorem setNext_view (target : Nat) : ∃ after, setNext next cr3 item target = some after ∧
    View memory cr3 first last after (Heap.setNext flat item target) := by
  unfold headerSize at high
  exact view.storeWord backed (by omega) (by omega) target

theorem setPresent_view (present : Bool) :
    ∃ after, setPresent next cr3 item present = some after ∧
      View memory cr3 first last after (Heap.setPresent flat item present) := by
  unfold headerSize at high
  have byte := view.shows (item + 8) (by omega) (by omega)
  rcases view.store backed (show first ≤ item + 8 by omega) (by omega) (.ofNat
    ((ByteMemory.load flat (item + 8)).toNat / 2 * 2 + present.toNat)) with ⟨after, stored, isView⟩
  refine ⟨after, ?_, isView⟩
  unfold setPresent
  rw [byte]
  exact stored

end View

/-- A call that comes to the same as one on the flat memory. -/
def Matches (memory : Memory) (cr3 first last : Nat) (phys : Phys)
    (result : Option (Nat × State)) (flat : Nat × Heap.State) : Prop :=
  ∃ next, result = some (flat.1, { memory := next, phys, heap := flat.2.heap }) ∧
    View memory cr3 first last next flat.2.memory

section Calls

variable {memory next : Memory} {cr3 first last item : Nat} {flat : ByteMemory.Memory}
  (phys : Phys) (heap : KernHeap)

theorem clear_matches (backed : Backed memory cr3 first last)
    (view : View memory cr3 first last next flat) (low : first ≤ item)
    (high : item + headerSize + Heap.getSize flat item ≤ last) :
    Matches memory cr3 first last phys (clear cr3 ⟨next, phys, heap⟩ item)
      (Heap.clear ⟨flat, heap⟩ item) := by
  have bounded := backed.bounded
  have kernelHalf := backed.kernelHalf
  have address : (item + headerSize) % space = item + headerSize := Nat.mod_eq_of_lt (by omega)
  rcases view.memset8 backed (show first ≤ item + headerSize by omega) 0 high with
    ⟨after, cleared, isView⟩
  refine ⟨after, ?_, ?_⟩
  · unfold clear Heap.clear
    rw [getSize_eq view low (by omega)]
    simp only [address, Option.bind_eq_bind, Option.bind_some, cleared]
    rfl
  · unfold Heap.clear
    simp only [address]
    exact isView

theorem findItem_eq (view : View memory cr3 first last next flat) {start stop : Nat}
    {blocks : List Block} (linked : Linked flat 0 blocks) (tiles : Tiles start blocks stop)
    (low : first ≤ start) (high : stop ≤ last) (nonempty : blocks ≠ []) (size fuel : Nat) :
    findItem next cr3 size fuel (firstOr 0 blocks) =
      Heap.findItem flat size fuel (firstOr 0 blocks) := by
  induction fuel generalizing start blocks with
  | zero => rfl
  | succ fuel induction =>
      cases blocks with
      | nil => exact absurd rfl nonempty
      | cons block blocks =>
          have bounds := tiles.bounds (show block ∈ block :: blocks by simp)
          have blockLow : first ≤ block.address := by omega
          have blockHigh : block.address + headerSize ≤ last := by
            unfold Block.stop at bounds
            omega
          have isNext := linked.1.next
          unfold findItem Heap.findItem firstOr
          simp only [getNext_eq view blockLow blockHigh, getSize_eq view blockLow blockHigh,
            getPresent_eq view blockLow blockHigh, Option.bind_eq_bind, Option.bind_some]
          by_cases isLast : Heap.getNext flat block.address = 0
          · rw [if_pos isLast, if_pos isLast]
            rfl
          · rw [if_neg isLast, if_neg isLast]
            have more : blocks ≠ [] := by
              rintro rfl
              exact isLast isNext
            have later := tiles.2
            have stopLow : first ≤ block.stop := by
              unfold Block.stop
              omega
            rw [isNext, induction linked.2 later stopLow more]
            rfl

end Calls

open Heap in
theorem splitUp_at (memory : ByteMemory.Memory) {block : Block} {size next : Nat}
    (bound : block.address + headerSize + size + headerSize ≤ space) :
    Block.At (splitUp memory block size next) (block.address + headerSize + size)
      ⟨block.address, size, true⟩ := by
  have itemBound : block.address + headerSize ≤ space := by omega
  have siblingSmall : block.address + headerSize + size < space := by
    unfold headerSize at bound ⊢
    omega
  have written := at_of_rewritten memory itemBound true (show size < space by omega) siblingSmall
  exact written.congr (sameOn_rewritten bound itemBound (.inl (Nat.le_add_right _ _)))

section Calls

variable {memory next : Memory} {cr3 first last size : Nat} {flat : ByteMemory.Memory}
  (phys : Phys) (heap : KernHeap)

theorem kernMalloc_first_matches (backed : Backed memory cr3 first last)
    (view : View memory cr3 first last next flat) (empty : heap.head = 0)
    (low : first ≤ heap.start) (high : heap.start + headerSize + size ≤ last) :
    ∃ result, Heap.kernMalloc ⟨flat, heap⟩ size = some result ∧
      Matches memory cr3 first last phys (kernMalloc cr3 ⟨next, phys, heap⟩ size) result := by
  have bounded := backed.bounded
  have kernelHalf := backed.kernelHalf
  rcases setSize_view backed view low (by omega) size with ⟨next0, stored0, view0⟩
  rcases setNext_view backed view0 low (by omega) 0 with ⟨next1, stored1, view1⟩
  rcases setPresent_view backed view1 low (by omega) true with ⟨next2, stored2, view2⟩
  have written := Heap.at_of_written flat (show heap.start + headerSize ≤ space by omega) true
    (show size < space by omega) (show 0 < space by decide)
  have cleared := clear_matches phys { heap with head := heap.start } backed view2 low
    (by rw [written.size]; exact high)
  unfold kernMalloc Heap.kernMalloc
  simp only [empty, if_true, stored0, stored1, stored2, Option.bind_eq_bind, Option.bind_some,
    Option.some.injEq, exists_eq_left']
  exact cleared

theorem writeBlock_matches (backed : Backed memory cr3 first last)
    (view : View memory cr3 first last next flat) {block : Block} (low : first ≤ block.address)
    (high : block.stop + headerSize + size ≤ last) :
    Matches memory cr3 first last phys
      (writeBlock cr3 ⟨next, phys, heap⟩ block.address block.stop size)
      (Heap.clear ⟨Heap.appended flat block size, heap⟩ block.stop) := by
  have bounded := backed.bounded
  have kernelHalf := backed.kernelHalf
  have stop : block.address + headerSize ≤ block.stop := Nat.le_add_right _ _
  rcases setNext_view backed view low (by omega) block.stop with ⟨next0, stored0, view0⟩
  rcases setSize_view backed view0 (show first ≤ block.stop by omega) (by omega) size with
    ⟨next1, stored1, view1⟩
  rcases setNext_view backed view1 (show first ≤ block.stop by omega) (by omega) 0 with
    ⟨next2, stored2, view2⟩
  rcases setPresent_view backed view2 (show first ≤ block.stop by omega) (by omega) true with
    ⟨next3, stored3, view3⟩
  have written := Heap.at_of_written (Heap.setNext flat block.address block.stop)
    (show block.stop + headerSize ≤ space by omega) true (show size < space by omega)
    (show 0 < space by decide)
  have isSize : Heap.getSize (Heap.appended flat block size) block.stop = size := written.size
  unfold writeBlock
  simp only [stored0, stored1, stored2, stored3, Option.bind_eq_bind, Option.bind_some]
  exact clear_matches phys heap backed view3 (by omega) (by rw [isSize]; exact high)

theorem reuse_matches (backed : Backed memory cr3 first last)
    (view : View memory cr3 first last next flat) {block : Block} {target : Nat}
    (blockAt : block.At flat target) (small : block.size < 2 ^ 31) (low : first ≤ block.address)
    (high : block.stop ≤ last) (enough : size ≤ block.size) :
    Matches memory cr3 first last phys (reuse cr3 ⟨next, phys, heap⟩ block.address size)
      (Heap.reuse ⟨flat, heap⟩ block.address size) := by
  have bounded := backed.bounded
  have kernelHalf := backed.kernelHalf
  unfold Block.stop at high
  have diff : toInt ((block.size + space - size) % space) = ((block.size - size : Nat) : Int) := by
    rw [show block.size + space - size = (block.size - size) + space by omega,
      Nat.add_mod_right, Nat.mod_eq_of_lt (by unfold space; omega)]
    exact Heap.toInt_of_lt (by omega)
  have itemBound : block.address + headerSize ≤ space := by omega
  have condition : ((block.size - size : Nat) : Int) ≥ (headerSize : Int) + 1 ↔
      headerSize + 1 ≤ block.size - size := by omega
  have left : ((block.size - size : Nat) - (headerSize : Int)).toNat =
      block.size - size - headerSize := by omega
  rw [Heap.reuse_eq blockAt small (show block.stop < space by unfold Block.stop; omega) enough]
  unfold reuse
  rw [getSize_eq view low (show block.address + headerSize ≤ last by omega), blockAt.size,
    Option.bind_eq_bind, Option.bind_some]
  simp only [diff, condition, left]
  by_cases large : headerSize + 1 ≤ block.size - size
  · rw [if_pos large, if_pos large]
    have isSize : Heap.getSize (Heap.setSize flat block.address size) block.address = size :=
      Heap.getSize_setSize itemBound (by omega)
    have sibling : (block.address + headerSize + size) % space = block.address + headerSize + size :=
      Nat.mod_eq_of_lt (by omega)
    rcases setSize_view backed view low (by omega) size with ⟨next0, stored0, view0⟩
    rcases setPresent_view backed view0 low (by omega) true with ⟨next1, stored1, view1⟩
    rcases setNext_view backed view1 low (by omega) (block.address + headerSize + size) with
      ⟨next2, stored2, view2⟩
    rcases setSize_view backed view2 (show first ≤ block.address + headerSize + size by omega)
      (by omega) (block.size - size - headerSize) with ⟨next3, stored3, view3⟩
    rcases setPresent_view backed view3 (show first ≤ block.address + headerSize + size by omega)
      (by omega) false with ⟨next4, stored4, view4⟩
    rcases setNext_view backed view4 (show first ≤ block.address + headerSize + size by omega)
      (by omega) target with ⟨next5, stored5, view5⟩
    simp only [getNext_eq view low (show block.address + headerSize ≤ last by omega), blockAt.next,
      stored0, getSize_eq view0 low (show block.address + headerSize ≤ last by omega), isSize,
      sibling, stored1, stored2, stored3, stored4, stored5, Option.bind_eq_bind, Option.bind_some]
    have isWritten : Heap.getSize (Heap.splitUp flat block size target) block.address = size :=
      (splitUp_at flat (show block.address + headerSize + size + headerSize ≤ space by omega)).size
    refine clear_matches phys heap backed view5 low ?_
    rw [isWritten]
    omega
  · rw [if_neg large, if_neg large]
    rcases setPresent_view backed view low (by omega) true with ⟨next0, stored0, view0⟩
    simp only [stored0, Option.bind_eq_bind, Option.bind_some]
    refine clear_matches phys heap backed view0 low ?_
    rw [Heap.getSize_setPresent itemBound, blockAt.size]
    exact high

end Calls

/-! ## Growth -/

open Paging.KernelPages (Layout Extended heapPage tablesPage)

section Growth

variable {kept : Set Nat} {cr3 kernelTable : Nat} {state next : State}

theorem ok_of_increaseHeapPage (grown : increaseHeapPage cr3 state = some next)
    (ok : next.phys.Ok) : state.phys.Ok := by
  unfold increaseHeapPage at grown
  rcases Option.bind_eq_some_iff.mp grown with ⟨machine, isMachine, isNext⟩
  cases isNext
  exact Phys.ok_of_allocPage (Paging.KernelPages.ok_of_setPageTableEntry isMachine ok)

theorem ok_of_increaseHeapPages {pages : Nat} (grown : increaseHeapPages cr3 pages state = some next)
    (ok : next.phys.Ok) : state.phys.Ok := by
  induction pages generalizing state with
  | zero =>
      cases grown
      exact ok
  | succ pages induction =>
      rcases Option.bind_eq_some_iff.mp grown with ⟨middle, isMiddle, rest⟩
      exact ok_of_increaseHeapPage isMiddle (induction rest)

theorem increaseHeapPages_heap {pages : Nat}
    (grown : increaseHeapPages cr3 pages state = some next) :
    next.heap = Heap.increaseHeapPage^[pages] state.heap := by
  induction pages generalizing state with
  | zero =>
      cases grown
      rfl
  | succ pages induction =>
      rcases Option.bind_eq_some_iff.mp grown with ⟨middle, isMiddle, rest⟩
      rcases Option.bind_eq_some_iff.mp isMiddle with ⟨machine, -, isNext⟩
      cases isNext
      rw [induction rest, Function.iterate_succ_apply]

theorem increaseHeapPage_extended
    (layout : Layout kept cr3 kernelTable ⟨state.memory, state.phys⟩ (state.heap.heapEnd / 4096))
    (aligned : state.heap.heapEnd % 4096 = 0)
    (room : state.heap.heapEnd + pageByteLen ≤ tablesPage * 4096)
    (grown : increaseHeapPage cr3 state = some next) (ok : next.phys.Ok) :
    next.heap.heapEnd = state.heap.heapEnd + pageByteLen ∧
      Extended kept cr3 kernelTable ⟨state.memory, state.phys⟩ (state.heap.heapEnd / 4096)
        ⟨next.memory, next.phys⟩ (next.heap.heapEnd / 4096) := by
  unfold increaseHeapPage at grown
  rcases Option.bind_eq_some_iff.mp grown with ⟨machine, isMachine, isNext⟩
  cases isNext
  unfold pageByteLen tablesPage at *
  have isEnd : (Heap.increaseHeapPage state.heap).heapEnd = state.heap.heapEnd + 4096 :=
    Nat.mod_eq_of_lt (by unfold space Heap.pageByteLen; omega)
  have isLast : state.heap.heapEnd / 4096 * 4096 = state.heap.heapEnd := by omega
  refine ⟨isEnd, ?_⟩
  simp only [isEnd]
  rw [show (state.heap.heapEnd + 4096) / 4096 = state.heap.heapEnd / 4096 + 1 by omega]
  refine layout.extended ?_ ?_ ok
  · unfold tablesPage
    omega
  · rw [isLast]
    exact isMachine

theorem increaseHeapPages_extended {pages : Nat}
    (layout : Layout kept cr3 kernelTable ⟨state.memory, state.phys⟩ (state.heap.heapEnd / 4096))
    (aligned : state.heap.heapEnd % 4096 = 0)
    (room : state.heap.heapEnd + pages * pageByteLen ≤ tablesPage * 4096)
    (grown : increaseHeapPages cr3 pages state = some next) (ok : next.phys.Ok) :
    next.heap.heapEnd % 4096 = 0 ∧
      Extended kept cr3 kernelTable ⟨state.memory, state.phys⟩ (state.heap.heapEnd / 4096)
        ⟨next.memory, next.phys⟩ (next.heap.heapEnd / 4096) := by
  induction pages generalizing state with
  | zero =>
      cases grown
      exact ⟨aligned, layout.extended_refl⟩
  | succ pages induction =>
      rcases Option.bind_eq_some_iff.mp grown with ⟨middle, isMiddle, rest⟩
      rw [Nat.succ_mul] at room
      rcases increaseHeapPage_extended layout aligned (by omega) isMiddle
        (ok_of_increaseHeapPages rest ok) with ⟨isEnd, first⟩
      have middleAligned : middle.heap.heapEnd % 4096 = 0 := by
        rw [isEnd]
        unfold pageByteLen
        omega
      rcases induction first.layout middleAligned (by omega) rest with ⟨nextAligned, second⟩
      exact ⟨nextAligned, second.trans first⟩

theorem increaseHeapPage_shows
    (layout : Layout kept cr3 kernelTable ⟨state.memory, state.phys⟩ (state.heap.heapEnd / 4096))
    (aligned : state.heap.heapEnd % 4096 = 0)
    (room : state.heap.heapEnd + pageByteLen ≤ tablesPage * 4096)
    (grown : increaseHeapPage cr3 state = some next) (ok : next.phys.Ok) :
    ∃ table index, Paging.Window.walk next.memory cr3 Paging.Window.windowPage = some table ∧
      Paging.KernelPages.UsedAs kept next.memory cr3 (next.heap.heapEnd / 4096) table
        (.table index) := by
  rcases Option.bind_eq_some_iff.mp grown with ⟨machine, isMachine, isNext⟩
  cases isNext
  unfold pageByteLen tablesPage at room
  have isLast : state.heap.heapEnd / 4096 * 4096 = state.heap.heapEnd := by omega
  have below : state.heap.heapEnd / 4096 < tablesPage := by
    unfold tablesPage
    omega
  have isEntry : Paging.Window.setPageTableEntry cr3 ⟨state.memory, state.phys.allocPage.2⟩
      (cr3 * 4096) (state.heap.heapEnd / 4096 * 4096) (state.phys.allocPage.1 * 4096) 1 0 =
        some machine := by
    rw [isLast]
    exact isMachine
  rcases layout.shows_table below isEntry ok with ⟨table, shown, isTable⟩
  exact ⟨table, _, shown, isTable⟩

theorem increaseHeapPages_shows {pages : Nat} (positive : 0 < pages)
    (layout : Layout kept cr3 kernelTable ⟨state.memory, state.phys⟩ (state.heap.heapEnd / 4096))
    (aligned : state.heap.heapEnd % 4096 = 0)
    (room : state.heap.heapEnd + pages * pageByteLen ≤ tablesPage * 4096)
    (grown : increaseHeapPages cr3 pages state = some next) (ok : next.phys.Ok) :
    ∃ table index, Paging.Window.walk next.memory cr3 Paging.Window.windowPage = some table ∧
      Paging.KernelPages.UsedAs kept next.memory cr3 (next.heap.heapEnd / 4096) table
        (.table index) := by
  induction pages generalizing state with
  | zero => exact absurd positive (Nat.lt_irrefl 0)
  | succ pages induction =>
      rcases Option.bind_eq_some_iff.mp grown with ⟨middle, isMiddle, rest⟩
      rw [Nat.succ_mul] at room
      have middleOk := ok_of_increaseHeapPages rest ok
      by_cases isLast : pages = 0
      · subst isLast
        cases rest
        exact increaseHeapPage_shows layout aligned (by omega) isMiddle middleOk
      · rcases increaseHeapPage_extended layout aligned (by omega) isMiddle middleOk with
          ⟨isEnd, extended⟩
        have middleAligned : middle.heap.heapEnd % 4096 = 0 := by
          rw [isEnd]
          unfold pageByteLen
          omega
        exact induction (Nat.pos_of_ne_zero isLast) extended.layout middleAligned (by omega) rest

/-- The frame allocator can still hand out so many frames. -/
def HasFrames (phys : Phys) (count : Nat) : Prop := ((fun phys => phys.allocPage.2)^[count] phys).Ok

instance (phys : Phys) (count : Nat) : Decidable (HasFrames phys count) :=
  inferInstanceAs (Decidable (((fun phys => phys.allocPage.2)^[count] phys).failed = false ∧
    ((fun phys => phys.allocPage.2)^[count] phys).wrapped = false))

theorem HasFrames.ok {phys : Phys} {count : Nat} (frames : HasFrames phys count) : phys.Ok := by
  induction count generalizing phys with
  | zero => exact frames
  | succ count induction => exact Phys.ok_of_allocPage (induction frames)

theorem HasFrames.fewer {phys : Phys} {count other : Nat} (frames : HasFrames phys count)
    (fewer : other ≤ count) : HasFrames phys other := by
  unfold HasFrames at *
  rw [← Nat.sub_add_cancel fewer, Function.iterate_add_apply] at frames
  exact HasFrames.ok frames

theorem increaseHeapPage_returns {count : Nat}
    (layout : Layout kept cr3 kernelTable ⟨state.memory, state.phys⟩ (state.heap.heapEnd / 4096))
    (aligned : state.heap.heapEnd % 4096 = 0)
    (room : state.heap.heapEnd + pageByteLen ≤ tablesPage * 4096)
    (frames : HasFrames state.phys (count + 2)) :
    ∃ next, increaseHeapPage cr3 state = some next ∧ HasFrames next.phys count := by
  unfold pageByteLen tablesPage at room
  have isLast : state.heap.heapEnd / 4096 * 4096 = state.heap.heapEnd := by omega
  have two : HasFrames state.phys 2 := frames.fewer (Nat.le_add_left _ _)
  have below : state.heap.heapEnd / 4096 < tablesPage := by
    unfold tablesPage
    omega
  rcases layout.grows below two with ⟨machine, isMachine, isPhys⟩
  rw [isLast] at isMachine
  refine ⟨⟨machine.memory, machine.phys, Heap.increaseHeapPage state.heap⟩, ?_, ?_⟩
  · unfold increaseHeapPage
    show (Paging.Window.setPageTableEntry cr3 ⟨state.memory, state.phys.allocPage.2⟩ (cr3 * 4096)
      state.heap.heapEnd (state.phys.allocPage.1 * 4096) 1 0).bind _ = _
    simp only at isMachine
    rw [isMachine]
    rfl
  · rcases isPhys with isPhys | isPhys
    · simp only [isPhys]
      exact HasFrames.fewer (show HasFrames state.phys.allocPage.2 (count + 1) from frames)
        (Nat.le_succ _)
    · simp only [isPhys]
      exact frames

theorem increaseHeapPages_returns {pages : Nat}
    (layout : Layout kept cr3 kernelTable ⟨state.memory, state.phys⟩ (state.heap.heapEnd / 4096))
    (aligned : state.heap.heapEnd % 4096 = 0)
    (room : state.heap.heapEnd + pages * pageByteLen ≤ tablesPage * 4096)
    (frames : HasFrames state.phys (2 * pages)) :
    ∃ next, increaseHeapPages cr3 pages state = some next ∧ next.phys.Ok := by
  induction pages generalizing state with
  | zero => exact ⟨state, rfl, frames⟩
  | succ pages induction =>
      rw [Nat.succ_mul] at room
      rcases increaseHeapPage_returns layout aligned (by omega) frames with
        ⟨middle, isMiddle, middleFrames⟩
      rcases increaseHeapPage_extended layout aligned (by omega) isMiddle middleFrames.ok with
        ⟨isEnd, extended⟩
      have middleAligned : middle.heap.heapEnd % 4096 = 0 := by
        rw [isEnd]
        unfold pageByteLen
        omega
      rcases induction extended.layout middleAligned (by omega) middleFrames with
        ⟨next, isNext, ok⟩
      refine ⟨next, ?_, ok⟩
      unfold increaseHeapPages
      rw [isMiddle]
      exact isNext

end Growth

/-! ## `kern_malloc` -/

/-- The page tables carry a heap with these bytes. -/
structure Carries (kept : Set Nat) (cr3 kernelTable : Nat) (state : State)
    (flat : ByteMemory.Memory) : Prop where
  layout : Layout kept cr3 kernelTable ⟨state.memory, state.phys⟩ (state.heap.heapEnd / 4096)
  start : state.heap.start = kernelHeapInitAddr
  aligned : state.heap.heapEnd % 4096 = 0
  shows : ∀ address, state.heap.start ≤ address → address < state.heap.heapEnd →
    load state.memory cr3 address = some (ByteMemory.load flat address)

/-- The size of a request that the heap can be asked for. -/
structure Request (heap : KernHeap) (size : Nat) : Prop where
  small : size + headerSize < 2 ^ 31
  first : heap.head = 0 → headerSize + size ≤ pageByteLen
  fits : heap.heapEnd + totalSize size < space

/-- The call returns, without having run out of frames or of addresses. -/
structure Serves (cr3 : Nat) (state : State) (size pointer : Nat) (next : State) : Prop where
  request : Request state.heap size
  result : kernMalloc cr3 state size = some (pointer, next)
  ok : next.phys.Ok
  larger : state.heap.heapEnd ≤ next.heap.heapEnd
  below : next.heap.heapEnd ≤ tablesPage * 4096

section Malloc

variable {kept : Set Nat} {cr3 kernelTable : Nat} {state next : State} {flat : ByteMemory.Memory}

theorem Carries.ends (carries : Carries kept cr3 kernelTable state flat) :
    heapPage * 4096 = state.heap.start ∧ state.heap.heapEnd / 4096 * 4096 = state.heap.heapEnd := by
  have aligned := carries.aligned
  refine ⟨?_, by omega⟩
  rw [carries.start]
  rfl

theorem Carries.backed (carries : Carries kept cr3 kernelTable state flat) :
    Backed state.memory cr3 state.heap.start state.heap.heapEnd := by
  have backed := carries.layout.backed
  rwa [carries.ends.1, carries.ends.2] at backed

theorem Carries.view (carries : Carries kept cr3 kernelTable state flat) :
    View state.memory cr3 state.heap.start state.heap.heapEnd state.memory flat :=
  ⟨fun _ _ => rfl, carries.shows⟩

theorem Carries.written (carries : Carries kept cr3 kernelTable state flat) {memory : Memory}
    {heap : KernHeap} {other : ByteMemory.Memory}
    (view : View state.memory cr3 state.heap.start state.heap.heapEnd memory other)
    (start : heap.start = state.heap.start) (heapEnd : heap.heapEnd = state.heap.heapEnd) :
    Carries kept cr3 kernelTable ⟨memory, state.phys, heap⟩ other := by
  have paged := view
  rw [← carries.ends.1, ← carries.ends.2] at paged
  refine ⟨?_, start.trans carries.start, ?_, ?_⟩
  · simp only [heapEnd]
    exact carries.layout.view paged
  · simp only [heapEnd]
    exact carries.aligned
  · simp only [start, heapEnd]
    exact view.shows

/-- The frames that nobody is to touch, and the pages between the window and the heap. -/
structure Keeps (kept : Set Nat) (cr3 : Nat) (memory next : Memory) : Prop where
  frames : ∀ frame ∈ kept, next frame = memory frame
  walk : ∀ page, Paging.Window.windowPage < page → page < heapPage →
    Paging.Window.walk next cr3 page = Paging.Window.walk memory cr3 page

theorem Keeps.trans {memory middle last : Memory} (second : Keeps kept cr3 middle last)
    (first : Keeps kept cr3 memory middle) : Keeps kept cr3 memory last :=
  ⟨fun frame isKept => (second.frames frame isKept).trans (first.frames frame isKept),
    fun page above below => (second.walk page above below).trans (first.walk page above below)⟩

theorem Carries.keeps (carries : Carries kept cr3 kernelTable state flat) {memory : Memory}
    {other : ByteMemory.Memory}
    (view : View state.memory cr3 state.heap.start state.heap.heapEnd memory other) :
    Keeps kept cr3 state.memory memory := by
  refine ⟨fun frame isKept => view.elsewhere frame fun backs => ?_, fun page above below => ?_⟩
  · rw [← carries.ends.1, ← carries.ends.2] at backs
    rcases Paging.KernelPages.exists_page_of_backs kept backs with ⟨page, isPage⟩
    have use := carries.layout.alone frame (.page page) (.kept frame) isPage ⟨isKept, rfl⟩
    cases use
  · unfold Paging.Window.windowPage at above
    unfold heapPage at below
    exact view.walk_eq carries.backed (by omega) (by unfold Paging.frameCount; omega)

/-- The window shows what it has shown, and the directory is the same. -/
structure Unmoved (cr3 : Nat) (memory next : Memory) : Prop where
  shown : Paging.Window.walk next cr3 Paging.Window.windowPage =
    Paging.Window.walk memory cr3 Paging.Window.windowPage
  directory : next cr3 = memory cr3

theorem Carries.unmoved (carries : Carries kept cr3 kernelTable state flat) {memory : Memory}
    {other : ByteMemory.Memory}
    (view : View state.memory cr3 state.heap.start state.heap.heapEnd memory other) :
    Unmoved cr3 state.memory memory :=
  ⟨view.walk_eq carries.backed (by decide) (by decide),
    view.elsewhere cr3 fun backs => (carries.backed.plain backs).notDirectory rfl⟩

/-- The window shows what it has shown, or a page table if the heap has been given pages. -/
def WindowAfter (kept : Set Nat) (cr3 : Nat) (state next : State) : Prop :=
  next.heap.heapEnd = state.heap.heapEnd ∧
      Paging.Window.walk next.memory cr3 Paging.Window.windowPage =
        Paging.Window.walk state.memory cr3 Paging.Window.windowPage ∨
    state.heap.heapEnd < next.heap.heapEnd ∧ ∃ table index,
      Paging.Window.walk next.memory cr3 Paging.Window.windowPage = some table ∧
        Paging.KernelPages.UsedAs kept next.memory cr3 (next.heap.heapEnd / 4096) table (.table index)

theorem WindowAfter.unmoved {grown : State} (after : WindowAfter kept cr3 state grown)
    (unmoved : Unmoved cr3 grown.memory next.memory)
    (heapEnd : next.heap.heapEnd = grown.heap.heapEnd) : WindowAfter kept cr3 state next := by
  rcases after with ⟨same, shown⟩ | ⟨larger, table, index, shown, low, high, notNull, isTable⟩
  · exact .inl ⟨heapEnd.trans same, unmoved.shown.trans shown⟩
  · refine .inr ⟨heapEnd ▸ larger, table, index, unmoved.shown.trans shown, low, high, notNull, ?_⟩
    rw [unmoved.directory]
    exact isTable

theorem Unmoved.after (unmoved : Unmoved cr3 state.memory next.memory)
    (heapEnd : next.heap.heapEnd = state.heap.heapEnd) : WindowAfter kept cr3 state next :=
  .inl ⟨heapEnd, unmoved.shown⟩

/-- The heap has been given pages, which hold whatever is in their frames. -/
theorem Carries.extended (carries : Carries kept cr3 kernelTable state flat) {grown : State}
    (extended : Extended kept cr3 kernelTable ⟨state.memory, state.phys⟩ (state.heap.heapEnd / 4096)
      ⟨grown.memory, grown.phys⟩ (grown.heap.heapEnd / 4096))
    (start : grown.heap.start = state.heap.start) (aligned : grown.heap.heapEnd % 4096 = 0) :
    ∃ grownFlat, Carries kept cr3 kernelTable grown grownFlat ∧
      ByteMemory.SameOn 0 state.heap.heapEnd grownFlat flat ∧
      Keeps kept cr3 state.memory grown.memory := by
  have grownEnd : grown.heap.heapEnd / 4096 * 4096 = grown.heap.heapEnd :=
    Nat.div_mul_cancel (Nat.dvd_of_mod_eq_zero aligned)
  have isEnd := carries.ends.2
  have isStart := carries.ends.1
  have layout : Layout kept cr3 kernelTable ⟨grown.memory, grown.phys⟩ (grown.heap.heapEnd / 4096) :=
    extended.layout
  have backed := layout.backed
  rw [isStart, grownEnd] at backed
  have larger : state.heap.heapEnd ≤ grown.heap.heapEnd := by
    rw [← isEnd, ← grownEnd]
    exact Nat.mul_le_mul_right _ extended.larger
  have bounded := backed.bounded
  have old : ∀ address, state.heap.start ≤ address → address < state.heap.heapEnd →
      load grown.memory cr3 address = load state.memory cr3 address := by
    intro address low high
    rcases carries.backed.page low high with ⟨small, -, -⟩
    have page : heapPage ≤ address / 4096 ∧ address / 4096 < state.heap.heapEnd / 4096 :=
      Paging.KernelPages.page_of_address (isStart ▸ low) (isEnd.symm ▸ high)
    rcases page with ⟨above, below⟩
    have above' : Paging.Window.windowPage < address / 4096 :=
      Nat.lt_of_lt_of_le (by decide) above
    unfold load
    rw [small, extended.walk _ above' below]
    rcases carries.backed.mapped address low high with ⟨frame, found, -⟩
    rw [found, Option.map_some, Option.map_some,
      byteAt_congr (extended.data frame (.page (address / 4096)) ⟨above, below, found⟩ trivial)]
  refine ⟨fun address => if address < state.heap.heapEnd then flat address
    else (load grown.memory cr3 address).getD 0, ⟨layout, start.trans carries.start, aligned,
      fun address low high => ?_⟩, fun address _ below => ?_, fun frame isKept => ?_,
      fun page above below => ?_⟩
  · rw [start] at low
    have small : address % space = address := Nat.mod_eq_of_lt (by omega)
    unfold ByteMemory.load
    simp only [small]
    by_cases isOld : address < state.heap.heapEnd
    · rw [if_pos isOld, old address low isOld, carries.shows address low isOld]
      unfold ByteMemory.load
      rw [small]
    · rw [if_neg isOld]
      rcases backed.mapped address low high with ⟨frame, found, -⟩
      unfold load
      rw [small, found]
      rfl
  · have small : address % space = address := Nat.mod_eq_of_lt (by omega)
    unfold ByteMemory.load
    simp only [small]
    exact if_pos below
  · exact extended.data frame (.kept frame) ⟨isKept, rfl⟩ trivial
  · exact extended.walk page above (Nat.lt_of_lt_of_le below carries.layout.lower)

theorem clear_result {item pointer : Nat} {state next : State}
    (cleared : clear cr3 state item = some (pointer, next)) :
    pointer = (item + headerSize) % space ∧ next.heap = state.heap ∧ next.phys = state.phys := by
  unfold clear at cleared
  rcases Option.bind_eq_some_iff.mp cleared with ⟨size, -, cleared⟩
  rcases Option.bind_eq_some_iff.mp cleared with ⟨memory, -, isNext⟩
  cases isNext
  exact ⟨rfl, rfl, rfl⟩

/-- What a call comes to that does what the flat one does, and leaves the heap where it is. -/
theorem Carries.matched (carries : Carries kept cr3 kernelTable state flat)
    {call : Option (Nat × State)} {result : Nat × Heap.State}
    (isMatched : Matches state.memory cr3 state.heap.start state.heap.heapEnd state.phys call result)
    (start : result.2.heap.start = state.heap.start)
    (heapEnd : result.2.heap.heapEnd = state.heap.heapEnd) :
    ∃ pointer next nextFlat, call = some (pointer, next) ∧ next.heap = result.2.heap ∧
      next.phys = state.phys ∧ result = (pointer, ⟨nextFlat, next.heap⟩) ∧
      Carries kept cr3 kernelTable next nextFlat ∧ Keeps kept cr3 state.memory next.memory ∧
      Unmoved cr3 state.memory next.memory := by
  rcases isMatched with ⟨memory, isResult, view⟩
  exact ⟨_, _, _, isResult, rfl, rfl, rfl, carries.written view start heapEnd, carries.keeps view,
    carries.unmoved view⟩

theorem clear_heap (state : Heap.State) (item : Nat) :
    (Heap.clear state item).2.heap = state.heap := by
  have cleared : (Heap.clear state item).2 =
      ⟨ByteMemory.fill state.memory ((item + headerSize) % space) 0
        (Heap.getSize state.memory item), state.heap⟩ := rfl
  simp only [cleared]

end Malloc

section Malloc

variable {kept : Set Nat} {cr3 kernelTable : Nat} {state next : State} {flat : ByteMemory.Memory}
  {size pointer : Nat} {blocks : List Block}

/-- What the call does is what the flat one does, over pages that may have been added. -/
structure Simulated (kept : Set Nat) (cr3 kernelTable : Nat) (state : State)
    (flat : ByteMemory.Memory) (size pointer : Nat) (next : State)
    (grownFlat nextFlat : ByteMemory.Memory) : Prop where
  old : ByteMemory.SameOn 0 state.heap.heapEnd grownFlat flat
  result : Heap.kernMalloc ⟨grownFlat, state.heap⟩ size = some (pointer, ⟨nextFlat, next.heap⟩)
  carries : Carries kept cr3 kernelTable next nextFlat
  keeps : Keeps kept cr3 state.memory next.memory
  window : WindowAfter kept cr3 state next

theorem Keeps.refl (memory : Memory) : Keeps kept cr3 memory memory :=
  ⟨fun _ _ => rfl, fun _ _ _ => rfl⟩

theorem kernMalloc_first (carries : Carries kept cr3 kernelTable state flat)
    (empty : state.heap.head = 0)
    (room : state.heap.start + headerSize + size ≤ state.heap.heapEnd) :
    ∃ pointer next nextFlat, kernMalloc cr3 state size = some (pointer, next) ∧
      next.phys = state.phys ∧ next.heap.heapEnd = state.heap.heapEnd ∧
      Simulated kept cr3 kernelTable state flat size pointer next flat nextFlat := by
  rcases kernMalloc_first_matches state.phys state.heap carries.backed carries.view empty
    (Nat.le_refl _) room with ⟨result, isFlat, isMatched⟩
  have isHeap : result.2.heap = { state.heap with head := state.heap.start } := by
    unfold Heap.kernMalloc at isFlat
    rw [if_pos empty, Option.some_inj] at isFlat
    rw [← isFlat, clear_heap]
  rcases carries.matched isMatched (by rw [isHeap]) (by rw [isHeap]) with
    ⟨pointer, next, nextFlat, isResult, nextHeap, isPhys, rfl, nextCarries, keeps, unmoved⟩
  have heapEnd : next.heap.heapEnd = state.heap.heapEnd := by rw [nextHeap, isHeap]
  exact ⟨pointer, next, nextFlat, isResult, isPhys, heapEnd, fun _ _ _ => rfl, isFlat, nextCarries,
    keeps, unmoved.after heapEnd⟩

theorem writeBlock_result {item hsaddr : Nat}
    (written : writeBlock cr3 state item hsaddr size = some (pointer, next)) :
    pointer = (hsaddr + headerSize) % space ∧ next.heap = state.heap ∧ next.phys = state.phys := by
  unfold writeBlock at written
  rcases Option.bind_eq_some_iff.mp written with ⟨memory0, -, written⟩
  rcases Option.bind_eq_some_iff.mp written with ⟨memory1, -, written⟩
  rcases Option.bind_eq_some_iff.mp written with ⟨memory2, -, written⟩
  rcases Option.bind_eq_some_iff.mp written with ⟨memory3, -, written⟩
  have cleared := clear_result written
  exact cleared

theorem makeRoom_carries (carries : Carries kept cr3 kernelTable state flat) {grown : State}
    {headdr : Nat} (small : size + headerSize < 2 ^ 31)
    (isGrown : makeRoom cr3 state headdr (totalSize size) = some grown) (ok : grown.phys.Ok)
    (larger : state.heap.heapEnd ≤ grown.heap.heapEnd)
    (below : grown.heap.heapEnd ≤ tablesPage * 4096) :
    grown.heap = (if headdr < state.heap.heapEnd then state.heap
        else Heap.increaseHeap state.heap (totalSize size)) ∧
      ∃ grownFlat, Carries kept cr3 kernelTable grown grownFlat ∧
        ByteMemory.SameOn 0 state.heap.heapEnd grownFlat flat ∧
        Keeps kept cr3 state.memory grown.memory ∧ WindowAfter kept cr3 state grown := by
  unfold makeRoom at isGrown
  by_cases room : headdr < state.heap.heapEnd
  · rw [if_pos room] at isGrown ⊢
    cases isGrown
    exact ⟨rfl, flat, carries, fun _ _ _ => rfl, .refl _, .inl ⟨rfl, rfl⟩⟩
  · rw [if_neg room] at isGrown ⊢
    have isHeap := increaseHeapPages_heap isGrown
    have bounded := carries.backed.bounded
    have pages := Heap.lt_pagesFor small
    rcases Heap.iterate_increaseHeapPage (pagesFor (totalSize size)) bounded with
      ⟨isEnd, isStart, -⟩
    rw [← isHeap] at isEnd isStart
    have fits : state.heap.heapEnd + pagesFor (totalSize size) * pageByteLen ≤ tablesPage * 4096 := by
      unfold space at *
      omega
    rcases increaseHeapPages_extended carries.layout carries.aligned fits isGrown ok with
      ⟨aligned, extended⟩
    rcases carries.extended extended isStart aligned with ⟨grownFlat, isCarried, old, keeps⟩
    have positive : 0 < pagesFor (totalSize size) := by
      by_contra none
      rw [Nat.eq_zero_of_not_pos none, Nat.zero_mul] at pages
      exact absurd pages.1 (Nat.not_lt_zero _)
    refine ⟨isHeap, grownFlat, isCarried, old, keeps, .inr ⟨?_, ?_⟩⟩
    · rw [isEnd, Nat.mod_eq_of_lt (by unfold tablesPage at fits; unfold space; omega)]
      exact Nat.lt_add_of_pos_right (Nat.mul_pos positive (by decide))
    · exact increaseHeapPages_shows positive carries.layout carries.aligned fits isGrown ok

/-- A block behind the last one, in a heap that has been given room. -/
theorem append_grown (carries : Carries kept cr3 kernelTable state flat)
    (whole : Whole ⟨flat, state.heap⟩ blocks) {block : Block} (member : block ∈ blocks)
    {target : Nat} (blockAt : block.At flat target) (request : Request state.heap size)
    {grown : State}
    (isGrown : makeRoom cr3 state (block.stop + totalSize size) (totalSize size) = some grown)
    (ok : grown.phys.Ok) (larger : state.heap.heapEnd ≤ grown.heap.heapEnd)
    (below : grown.heap.heapEnd ≤ tablesPage * 4096) :
    ∃ pointer next grownFlat nextFlat,
      append cr3 state block.address size = some (pointer, next) ∧
      next.heap = grown.heap ∧ next.phys = grown.phys ∧
      ByteMemory.SameOn 0 state.heap.heapEnd grownFlat flat ∧
      Heap.append ⟨grownFlat, state.heap⟩ block.address size = (pointer, ⟨nextFlat, next.heap⟩) ∧
      Carries kept cr3 kernelTable next nextFlat ∧ Keeps kept cr3 state.memory next.memory ∧
      WindowAfter kept cr3 state next := by
  have bounds := whole.bounds member
  have bounded := carries.backed.bounded
  have fits := request.fits
  simp only at bounds
  have header : block.address + headerSize ≤ state.heap.heapEnd := by
    unfold Block.stop at bounds
    omega
  have payload : block.payload ≤ state.heap.heapEnd := header
  have stopTotal : block.stop + totalSize size < space := by omega
  have hsaddr : (block.address + headerSize + block.size) % space = block.stop :=
    Nat.mod_eq_of_lt (show block.stop < space by omega)
  rcases makeRoom_carries carries request.small isGrown ok larger below with
    ⟨isGrownHeap, grownFlat, grownCarries, old, keeps, window⟩
  rcases Heap.grown_spec request.small bounded
    (show block.stop + totalSize size ≤ state.heap.heapEnd + totalSize size by omega)
    (isGrownHeap ▸ larger) with ⟨_, rfl, headdr, -, -, start, -⟩
  rw [← isGrownHeap] at headdr start
  have total := Heap.totalSize_eq request.small
  have grownAt := blockAt.congr (old.mono (Nat.zero_le _) payload)
  have low : grown.heap.start ≤ block.address := start ▸ bounds.1
  have isCall : append cr3 state block.address size =
      writeBlock cr3 grown block.address block.stop size := by
    unfold append
    rw [getSize_eq carries.view bounds.1 header, blockAt.size, Option.bind_eq_bind,
      Option.bind_some]
    simp only [hsaddr, Nat.mod_eq_of_lt stopTotal]
    rw [isGrown, Option.bind_eq_bind, Option.bind_some, if_pos headdr]
  have isHeap := clear_heap ⟨Heap.appended grownFlat block size, grown.heap⟩ block.stop
  rcases grownCarries.matched (writeBlock_matches grown.phys grown.heap grownCarries.backed
    grownCarries.view low (show block.stop + headerSize + size ≤ grown.heap.heapEnd by omega))
    (congrArg KernHeap.start isHeap) (congrArg KernHeap.heapEnd isHeap) with
    ⟨pointer, next, nextFlat, isResult, nextHeap, isPhys, isFlat, nextCarries, nextKeeps, unmoved⟩
  refine ⟨pointer, next, grownFlat, nextFlat, isCall.trans isResult, nextHeap.trans isHeap, isPhys,
    old, ?_, nextCarries, nextKeeps.trans keeps,
    window.unmoved unmoved (congrArg KernHeap.heapEnd (nextHeap.trans isHeap))⟩
  rw [Heap.append_eq grownAt.size stopTotal]
  simp only
  rw [← isGrownHeap, if_pos headdr]
  exact isFlat

end Malloc

section Malloc

variable {kept : Set Nat} {cr3 kernelTable : Nat} {state next : State} {flat : ByteMemory.Memory}
  {size pointer : Nat} {blocks : List Block}

theorem whole_congr {heap : KernHeap} {other : ByteMemory.Memory} (whole : Whole ⟨flat, heap⟩ blocks)
    (same : ByteMemory.SameOn 0 heap.heapEnd other flat) : Whole ⟨other, heap⟩ blocks := by
  rcases whole.tiled with ⟨head, linked, last, tiles, below⟩
  refine ⟨whole.positive, ⟨head, linked.congr fun block member => ?_, last, tiles, below⟩,
    whole.bounded, whole.small⟩
  have bounds := (whole.bounds member).2
  refine same.mono (Nat.zero_le _) (Nat.le_trans ?_ bounds)
  exact Nat.le_add_right _ _

theorem Carries.congr (carries : Carries kept cr3 kernelTable state flat)
    {other : ByteMemory.Memory} (same : ByteMemory.SameOn 0 state.heap.heapEnd other flat) :
    Carries kept cr3 kernelTable state other := by
  refine ⟨carries.layout, carries.start, carries.aligned, fun address low high => ?_⟩
  rw [carries.shows address low high, same address (Nat.zero_le _) high]

theorem Carries.findItem (carries : Carries kept cr3 kernelTable state flat)
    (whole : Whole ⟨flat, state.heap⟩ blocks) (nonempty : blocks ≠ []) (size : Nat) :
    findItem state.memory cr3 size space state.heap.head =
      Heap.findItem flat size space state.heap.head := by
  rcases whole.tiled with ⟨isHead, linked, last, tiles, below⟩
  simp only at isHead below
  rw [isHead]
  exact findItem_eq carries.view linked tiles (Nat.le_refl _) below nonempty size space

theorem Carries.kernMalloc_eq (carries : Carries kept cr3 kernelTable state flat)
    (whole : Whole ⟨flat, state.heap⟩ blocks) (notEmpty : state.heap.head ≠ 0) (size : Nat) :
    ∃ block ∈ blocks, ∃ target, block.At flat target ∧
      Heap.findItem flat size space state.heap.head = some block.address ∧
      (Heap.getNext flat block.address ≠ 0 → block.Accepted size) ∧
      kernMalloc cr3 state size = if Heap.getNext flat block.address = 0
        then append cr3 state block.address size else reuse cr3 state block.address size := by
  have nonempty : blocks ≠ [] := fun isNil => notEmpty (whole.head_eq_zero_iff.mpr isNil)
  rcases whole.findItem nonempty size with ⟨before, block, after, rfl, found, isLast, -, accepted⟩
  have member : block ∈ before ++ block :: after := by simp
  have bounds := whole.bounds member
  simp only at found isLast bounds
  have header : block.address + headerSize ≤ state.heap.heapEnd := by
    unfold Block.stop at bounds
    omega
  refine ⟨block, member, _, (Heap.linked_append.mp whole.tiled.2.1).2.1, found,
    fun notLast => accepted fun isNil => notLast (isLast.mpr isNil), ?_⟩
  unfold kernMalloc
  rw [if_neg notEmpty, carries.findItem whole nonempty, found, Option.bind_eq_bind,
    Option.bind_some, getNext_eq carries.view bounds.1 header, Option.bind_some]

theorem reuse_heap {state : Heap.State} {block : Block} {target : Nat}
    (blockAt : block.At state.memory target) (small : block.size < 2 ^ 31)
    (bound : block.stop < space) (enough : size ≤ block.size) :
    (Heap.reuse state block.address size).2.heap = state.heap := by
  rw [Heap.reuse_eq blockAt small bound enough]
  by_cases large : headerSize + 1 ≤ block.size - size
  · rw [if_pos large, clear_heap]
  · rw [if_neg large, clear_heap]

theorem reuse_simulated (carries : Carries kept cr3 kernelTable state flat)
    (whole : Whole ⟨flat, state.heap⟩ blocks) {block : Block} (member : block ∈ blocks)
    {target : Nat} (blockAt : block.At flat target) (enough : size ≤ block.size) :
    ∃ pointer next nextFlat, reuse cr3 state block.address size = some (pointer, next) ∧
      next.heap = state.heap ∧ next.phys = state.phys ∧
      Heap.reuse ⟨flat, state.heap⟩ block.address size = (pointer, ⟨nextFlat, next.heap⟩) ∧
      Carries kept cr3 kernelTable next nextFlat ∧ Keeps kept cr3 state.memory next.memory ∧
      WindowAfter kept cr3 state next := by
  have bounds := whole.bounds member
  have flatAt : block.At (Heap.State.mk flat state.heap).memory target := blockAt
  have isHeap := reuse_heap flatAt (whole.small block member)
    (Nat.lt_of_le_of_lt bounds.2 carries.backed.bounded) enough
  rcases carries.matched (reuse_matches state.phys state.heap carries.backed carries.view blockAt
    (whole.small block member) bounds.1 bounds.2 enough) (congrArg KernHeap.start isHeap)
    (congrArg KernHeap.heapEnd isHeap) with
    ⟨pointer, next, nextFlat, isResult, nextHeap, isPhys, isFlat, nextCarries, keeps, unmoved⟩
  exact ⟨pointer, next, nextFlat, isResult, nextHeap.trans isHeap, isPhys, isFlat, nextCarries, keeps,
    unmoved.after (congrArg KernHeap.heapEnd (nextHeap.trans isHeap))⟩

theorem enough_of_accepted {block : Block} (request : Request state.heap size)
    (accepted : block.Accepted size) : size ≤ block.size := by
  have small := request.small
  have large := accepted.1
  rw [Heap.toInt_of_lt (show size < 2 ^ 31 by omega)] at large
  exact Int.ofNat_le.mp large

theorem exists_grown (carries : Carries kept cr3 kernelTable state flat)
    (whole : Whole ⟨flat, state.heap⟩ blocks) {block : Block} (member : block ∈ blocks)
    {target : Nat} (blockAt : block.At flat target) (request : Request state.heap size)
    (isResult : append cr3 state block.address size = some (pointer, next)) :
    ∃ grown, makeRoom cr3 state (block.stop + totalSize size) (totalSize size) = some grown ∧
      next.heap = grown.heap ∧ next.phys = grown.phys := by
  have bounds := whole.bounds member
  have bounded := carries.backed.bounded
  have fits := request.fits
  simp only at bounds
  have header : block.address + headerSize ≤ state.heap.heapEnd := by
    unfold Block.stop at bounds
    omega
  have hsaddr : (block.address + headerSize + block.size) % space = block.stop :=
    Nat.mod_eq_of_lt (show block.stop < space by omega)
  have stopTotal : block.stop + totalSize size < space := by omega
  unfold append at isResult
  rw [getSize_eq carries.view bounds.1 header, blockAt.size, Option.bind_eq_bind,
    Option.bind_some] at isResult
  simp only [hsaddr, Nat.mod_eq_of_lt stopTotal] at isResult
  rcases Option.bind_eq_some_iff.mp isResult with ⟨grown, isGrown, isResult⟩
  refine ⟨grown, isGrown, ?_⟩
  split at isResult
  · exact (writeBlock_result isResult).2
  · cases isResult
    exact ⟨rfl, rfl⟩

theorem kernMalloc_simulated (carries : Carries kept cr3 kernelTable state flat)
    (sound : Heap.Sound ⟨flat, state.heap⟩ blocks) (serves : Serves cr3 state size pointer next) :
    ∃ grownFlat nextFlat,
      Simulated kept cr3 kernelTable state flat size pointer next grownFlat nextFlat := by
  have whole := sound.whole
  have isResult := serves.result
  by_cases empty : state.heap.head = 0
  · rcases kernMalloc_first carries empty (sound.first serves.request.first empty) with
      ⟨_, _, nextFlat, isFirst, -, -, simulated⟩
    rw [isResult, Option.some_inj, Prod.mk.injEq] at isFirst
    rcases isFirst with ⟨rfl, rfl⟩
    exact ⟨flat, nextFlat, simulated⟩
  rcases carries.kernMalloc_eq whole empty size with
    ⟨block, member, target, blockAt, found, accepted, isCall⟩
  rw [isCall] at isResult
  have header : block.address + headerSize ≤ state.heap.heapEnd := by
    have bounds := whole.bounds member
    unfold Block.stop at bounds
    simp only at bounds
    omega
  by_cases last : Heap.getNext flat block.address = 0
  · rw [if_pos last] at isResult
    rcases exists_grown carries whole member blockAt serves.request isResult with
      ⟨grown, isGrown, isHeap, isPhys⟩
    rcases append_grown carries whole member blockAt serves.request isGrown (isPhys ▸ serves.ok)
      (isHeap ▸ serves.larger) (isHeap ▸ serves.below) with
      ⟨_, _, grownFlat, nextFlat, isSame, -, -, old, isFlat, nextCarries, keeps, window⟩
    rw [isResult, Option.some_inj, Prod.mk.injEq] at isSame
    rcases isSame with ⟨rfl, rfl⟩
    have nonempty : blocks ≠ [] := List.ne_nil_of_mem member
    have grownFound := (carries.congr old).findItem (whole_congr whole old) nonempty size
    rw [carries.findItem whole nonempty, found] at grownFound
    have grownLast : Heap.getNext grownFlat block.address = 0 := by
      rw [← last]
      unfold headerSize at header
      exact old.loadWord (Nat.zero_le _) (by omega)
    refine ⟨grownFlat, nextFlat, old, ?_, nextCarries, keeps, window⟩
    unfold Heap.kernMalloc
    rw [if_neg empty]
    simp only
    rw [← grownFound, Option.map_some, if_pos grownLast, isFlat]
  · rw [if_neg last] at isResult
    rcases reuse_simulated carries whole member blockAt
      (enough_of_accepted serves.request (accepted last)) with
      ⟨_, _, nextFlat, isSame, -, -, isFlat, nextCarries, keeps, window⟩
    rw [isResult, Option.some_inj, Prod.mk.injEq] at isSame
    rcases isSame with ⟨rfl, rfl⟩
    refine ⟨flat, nextFlat, fun _ _ _ => rfl, ?_, nextCarries, keeps, window⟩
    unfold Heap.kernMalloc
    rw [if_neg empty]
    simp only
    rw [found, Option.map_some, if_neg last, isFlat]

/-- There are frames and addresses for the request, however much the heap has to grow. -/
structure Affords (state : State) (size : Nat) : Prop where
  request : Request state.heap size
  room : state.heap.heapEnd + pagesFor (totalSize size) * pageByteLen ≤ tablesPage * 4096
  frames : HasFrames state.phys (2 * pagesFor (totalSize size))

theorem makeRoom_returns (carries : Carries kept cr3 kernelTable state flat)
    (affords : Affords state size) (headdr : Nat) :
    ∃ grown, makeRoom cr3 state headdr (totalSize size) = some grown ∧ grown.phys.Ok ∧
      state.heap.heapEnd ≤ grown.heap.heapEnd ∧ grown.heap.heapEnd ≤ tablesPage * 4096 := by
  have room := affords.room
  have upper := carries.layout.upper
  have isEnd := carries.ends.2
  unfold makeRoom
  by_cases fits : headdr < state.heap.heapEnd
  · rw [if_pos fits]
    exact ⟨state, rfl, affords.frames.ok, Nat.le_refl _, isEnd ▸ Nat.mul_le_mul_right _ upper⟩
  · rw [if_neg fits]
    rcases increaseHeapPages_returns carries.layout carries.aligned room affords.frames with
      ⟨grown, isGrown, ok⟩
    have tables : tablesPage * 4096 < space := by decide
    have isHeap := increaseHeapPages_heap isGrown
    rcases Heap.iterate_increaseHeapPage (pagesFor (totalSize size)) carries.backed.bounded with
      ⟨grownEnd, -, -⟩
    rw [← isHeap, Nat.mod_eq_of_lt (by omega)] at grownEnd
    exact ⟨grown, isGrown, ok, by omega, by omega⟩

theorem kernMalloc_returns (carries : Carries kept cr3 kernelTable state flat)
    (sound : Heap.Sound ⟨flat, state.heap⟩ blocks) (affords : Affords state size) :
    ∃ pointer next, Serves cr3 state size pointer next := by
  have whole := sound.whole
  have request := affords.request
  have ok := affords.frames.ok
  have below : state.heap.heapEnd ≤ tablesPage * 4096 :=
    carries.ends.2 ▸ Nat.mul_le_mul_right _ carries.layout.upper
  by_cases empty : state.heap.head = 0
  · rcases kernMalloc_first carries empty (sound.first request.first empty) with
      ⟨pointer, next, -, isResult, isPhys, isEnd, -⟩
    exact ⟨pointer, next, request, isResult, isPhys ▸ ok, isEnd ▸ Nat.le_refl _, isEnd ▸ below⟩
  rcases carries.kernMalloc_eq whole empty size with
    ⟨block, member, target, blockAt, found, accepted, isCall⟩
  by_cases last : Heap.getNext flat block.address = 0
  · rw [if_pos last] at isCall
    rcases makeRoom_returns carries affords (block.stop + totalSize size) with
      ⟨grown, isGrown, grownOk, larger, grownBelow⟩
    rcases append_grown carries whole member blockAt request isGrown grownOk larger grownBelow with
      ⟨pointer, next, -, -, isResult, isHeap, isPhys, -⟩
    exact ⟨pointer, next, request, isCall.trans isResult, isPhys ▸ grownOk, isHeap ▸ larger,
      isHeap ▸ grownBelow⟩
  · rw [if_neg last] at isCall
    rcases reuse_simulated carries whole member blockAt
      (enough_of_accepted request (accepted last)) with
      ⟨pointer, next, -, isResult, isHeap, isPhys, -⟩
    exact ⟨pointer, next, request, isCall.trans isResult, isPhys ▸ ok, isHeap ▸ Nat.le_refl _,
      isHeap ▸ below⟩

end Malloc

end Dbos.PagedHeap
