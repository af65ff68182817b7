import Mathlib.Logic.Function.Iterate
import Dbos.Foundation.ByteMemory
import Dbos.Foundation.Execution

/-! # The kernel heap

`memory_heap.c`. The headers of the blocks lie in the memory that is given out. -/

namespace Dbos.Heap

open Dbos.ByteMemory

def pageByteLen : Nat := 4096

def kernelHeapInitAddr : Nat := 0xD0000000

/-- The `int` that a word stands for. -/
def toInt (word : Nat) : Int := if word < 2 ^ 31 then word else (word : Int) - space

/-! ## Headers

`kalloc_t` is packed: `size` at 0, `next` at 4 and the bit `present` at 8. -/

/-- `sizeof(kalloc_t)`. -/
def headerSize : Nat := 9

def getSize (memory : Memory) (item : Nat) : Nat := loadWord memory item

def getNext (memory : Memory) (item : Nat) : Nat := loadWord memory (item + 4)

def getPresent (memory : Memory) (item : Nat) : Bool := (load memory (item + 8)).toNat % 2 = 1

def setSize (memory : Memory) (item size : Nat) : Memory := storeWord memory item size

def setNext (memory : Memory) (item next : Nat) : Memory := storeWord memory (item + 4) next

/-- The other bits of the byte stay as they are. -/
def setPresent (memory : Memory) (item : Nat) (present : Bool) : Memory :=
  let byte := (load memory (item + 8)).toNat
  store memory (item + 8) (.ofNat (byte / 2 * 2 + present.toNat))

/-! ## The heap -/

/-- `kern_heap_t`. -/
structure KernHeap where
  allocatedSize : Nat
  start : Nat
  heapEnd : Nat
  head : Nat
deriving DecidableEq, Repr

structure State where
  memory : Memory
  heap : KernHeap

/-- `initialise_heap`, over whatever the memory holds. -/
def initialiseHeap (memory : Memory) : State where
  memory := memory
  heap :=
    { allocatedSize := pageByteLen
      start := kernelHeapInitAddr
      heapEnd := kernelHeapInitAddr + pageByteLen
      head := 0 }

def kernFree (state : State) (object : Nat) : State :=
  { state with
    memory := setPresent state.memory ((object + space - headerSize) % space) false }

/-- One round of the loop of `increase_heap`. -/
def increaseHeapPage (heap : KernHeap) : KernHeap :=
  { heap with
    heapEnd := (heap.heapEnd + pageByteLen) % space
    allocatedSize := heap.allocatedSize + pageByteLen }

def pagesFor (bytes : Nat) : Nat :=
  if bytes % pageByteLen > 0 then bytes / pageByteLen + 1 else bytes / pageByteLen

def increaseHeap (heap : KernHeap) (bytes : Nat) : KernHeap := increaseHeapPage^[pagesFor bytes] heap

/-- The size of the block with its header, in steps of 8 bytes. -/
def totalSize (size : Nat) : Nat := ((size + 7) % space / 8 * 8 + headerSize) % space

/-- The loop of `kern_malloc` over the blocks. -/
def findItem (memory : Memory) (size : Nat) : Nat → Nat → Option Nat
  | 0, _ => none
  | fuel + 1, item =>
      if getNext memory item = 0 then some item
      else if toInt (getSize memory item) ≥ toInt size ∧ getPresent memory item = false then
        some item
      else findItem memory size fuel (getNext memory item)

/-- Where `kern_malloc` ends: the payload is cleared. -/
def clear (state : State) (item : Nat) : Nat × State :=
  let addr := (item + headerSize) % space
  (addr, { state with memory := fill state.memory addr 0 (getSize state.memory item) })

/-- A new block behind the last one. -/
def append (state : State) (item size : Nat) : Nat × State :=
  let hsaddr := (item + headerSize + getSize state.memory item) % space
  let headdr := (hsaddr + totalSize size) % space
  let heap :=
    if headdr < state.heap.heapEnd then state.heap
    else increaseHeap state.heap (totalSize size)
  if headdr < heap.heapEnd then
    let memory := setNext state.memory item hsaddr
    let memory := setPresent (setNext (setSize memory hsaddr size) hsaddr 0) hsaddr true
    clear { memory, heap } hsaddr
  else (0, { state with heap })

/-- A free block in the middle, which is split if what is left is large enough. -/
def reuse (state : State) (item size : Nat) : Nat × State :=
  let memory := state.memory
  let diff := toInt ((getSize memory item + space - size) % space)
  if diff ≥ headerSize + 1 then
    let itemNext := getNext memory item
    let memory := setSize memory item size
    let sibling := (item + headerSize + getSize memory item) % space
    let memory := setNext (setPresent memory item true) item sibling
    let memory := setSize memory sibling (diff - headerSize).toNat
    let memory := setNext (setPresent memory sibling false) sibling itemNext
    clear { state with memory } item
  else clear { state with memory := setPresent memory item true } item

/-- `kern_malloc`. A walk of more steps than there are addresses has come back to
where it has been and does not end. -/
def kernMalloc (state : State) (size : Nat) : Option (Nat × State) :=
  if state.heap.head = 0 then
    let item := state.heap.start
    let memory := setSize state.memory item size
    let memory := setPresent (setNext memory item 0) item true
    some (clear { memory, heap := { state.heap with head := item } } item)
  else
    (findItem state.memory size space state.heap.head).map fun item =>
      if getNext state.memory item = 0 then append state item size else reuse state item size

/-! ## Runs -/

/-- The heap with what its callers know: every pointer they ever got, and the
payloads they still use, with the size they asked for. -/
structure Machine where
  state : State
  returned : List Nat
  live : List (Nat × Nat)

inductive Event where
  | malloc (size : Nat)
  | free (object : Nat)
  | write (address : Nat) (value : UInt8)

def step (machine : Machine) : Event → Option Machine
  | .malloc size =>
      (kernMalloc machine.state size).map fun (pointer, state) =>
        if pointer = 0 then { machine with state }
        else
          { state
            returned := pointer :: machine.returned
            live := (pointer, size) :: machine.live }
  | .free object =>
      some
        { state := kernFree machine.state object
          returned := machine.returned
          live := machine.live.filter fun payload => payload.1 ≠ object }
  | .write address value =>
      some
        { machine with
          state := { machine.state with
            memory := store machine.state.memory address value } }

/-- What the callers promise: small requests, the first of which fits the first
page, no growth past the end of the address space, frees of pointers they got and
writes to payloads they use. -/
def Allowed (machine : Machine) : Event → Prop
  | .malloc size =>
      size + headerSize < 2 ^ 31 ∧
        (machine.state.heap.head = 0 → headerSize + size ≤ pageByteLen) ∧
        ∀ result ∈ kernMalloc machine.state size,
          machine.state.heap.heapEnd ≤ result.2.heap.heapEnd
  | .free object => object ∈ machine.returned
  | .write address _ =>
      ∃ payload ∈ machine.live, payload.1 ≤ address ∧ address < payload.1 + payload.2

instance (machine : Machine) : ∀ event, Decidable (Allowed machine event)
  | .malloc size => inferInstanceAs (Decidable (size + headerSize < 2 ^ 31 ∧
      (machine.state.heap.head = 0 → headerSize + size ≤ pageByteLen) ∧
      ∀ result ∈ kernMalloc machine.state size,
        machine.state.heap.heapEnd ≤ result.2.heap.heapEnd))
  | .free object => inferInstanceAs (Decidable (object ∈ machine.returned))
  | .write address _ => inferInstanceAs (Decidable (∃ payload ∈ machine.live,
      payload.1 ≤ address ∧ address < payload.1 + payload.2))

def boot (memory : Memory) : Machine where
  state := initialiseHeap memory
  returned := []
  live := []

end Dbos.Heap
