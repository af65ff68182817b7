import Dbos.Libraries.Realloc

/-! # The heap of a program

Runs of `malloc` and `free` from the heap that the loader leaves behind, whose first bytes are
the arguments. Where the blocks lie depends on the first request, which is not compared with
the end of the heap, and on sums that may wrap around. -/

namespace Dbos.Bootstrap

open Dbos.ByteMemory Dbos.Heap Dbos.Execution

/-! ## Runs -/

/-- The calls of a program, and its own writes. -/
def userStep (machine : Machine) : Event → Option Machine
  | .malloc size =>
      (allocAllocate machine.state size).map fun (pointer, state) =>
        if pointer = 0 then { machine with state }
        else
          { state
            returned := pointer :: machine.returned
            live := (pointer, size) :: machine.live }
  | .free object =>
      some
        { state := allocFree machine.state object
          returned := machine.returned
          live := machine.live.filter fun payload => payload.1 ≠ object }
  | .write address value =>
      some
        { machine with
          state := { machine.state with
            memory := store machine.state.memory address value } }

/-- After `alloc_initialise`, with one page of which the arguments take the beginning. -/
def userBoot (memory : Memory) (used : Nat) : Machine where
  state := allocInitialise memory used (allocHeapStart + pageByteLen)
  returned := []
  live := []

/-- Requests below `2 ^ 30`, frees of `NULL` or of pointers that were given out, and writes to
payloads in use. -/
def UserAllowed (machine : Machine) : Event → Prop
  | .malloc size => size < 2 ^ 30
  | .free object => object = 0 ∨ object ∈ machine.returned
  | .write address _ =>
      ∃ payload ∈ machine.live, payload.1 ≤ address ∧ address < payload.1 + payload.2

instance (machine : Machine) : ∀ event, Decidable (UserAllowed machine event)
  | .malloc size => inferInstanceAs (Decidable (size < 2 ^ 30))
  | .free object => inferInstanceAs (Decidable (object = 0 ∨ object ∈ machine.returned))
  | .write address _ => inferInstanceAs (Decidable (∃ payload ∈ machine.live,
      payload.1 ≤ address ∧ address < payload.1 + payload.2))

/-- Every block that was given out lies inside the heap with its header, and those in use
have the size that was asked for. -/
def AllInside (machine : Machine) : Prop :=
  (∀ pointer ∈ machine.returned, InHeap machine.state 0 pointer) ∧
    ∀ payload ∈ machine.live, InHeap machine.state payload.2 payload.1

/-! ## The condition on a step -/

/-- A request that comes behind the last block does not wrap around. -/
def BehindLast (state : State) (size : Nat) : Prop :=
  ∀ item ∈ findItem state.memory size space state.heap.head, getNext state.memory item = 0 →
    item + headerSize + getSize state.memory item + roundedSize size < space ∧
      HasRoom state (item + headerSize + getSize state.memory item) size

instance (state : State) (size : Nat) : Decidable (BehindLast state size) :=
  inferInstanceAs (Decidable (∀ item ∈ findItem state.memory size space state.heap.head,
    getNext state.memory item = 0 →
      item + headerSize + getSize state.memory item + roundedSize size < space ∧
        HasRoom state (item + headerSize + getSize state.memory item) size))

/-- The first block fits between the arguments and the end of the heap, and a later one that
is appended has room. -/
def StaysInside (machine : Machine) : Event → Prop
  | .malloc size =>
      if machine.state.heap.head = 0 then
        machine.state.heap.start + headerSize + size ≤ machine.state.heap.heapEnd
      else BehindLast machine.state size
  | _ => True

instance (machine : Machine) : ∀ event, Decidable (StaysInside machine event)
  | .malloc size => inferInstanceAs (Decidable (if machine.state.heap.head = 0 then
      machine.state.heap.start + headerSize + size ≤ machine.state.heap.heapEnd
      else BehindLast machine.state size))
  | .free _ => .isTrue trivial
  | .write _ _ => .isTrue trivial

/-! ## One step -/

section Malloc

variable {state : State} {size : Nat}

theorem heap_clear (memory : Memory) (heap : KernHeap) (item : Nat) :
    (clear ⟨memory, heap⟩ item).2.heap = heap := rfl

theorem heap_append (state : State) (item size : Nat) :
    (append state item size).2.heap =
      if ((item + headerSize + getSize state.memory item) % space + totalSize size) % space <
          state.heap.heapEnd then state.heap
      else increaseHeap state.heap (totalSize size) := by
  unfold append
  simp only
  generalize (if ((item + headerSize + getSize state.memory item) % space + totalSize size) %
    space < state.heap.heapEnd then state.heap else increaseHeap state.heap (totalSize size)) = heap
  split <;> rfl

theorem append_notWrapped {item : Nat} (bounded : state.heap.heapEnd < space)
    (fits : item + headerSize + getSize state.memory item + roundedSize size < space)
    (room : HasRoom state (item + headerSize + getSize state.memory item) size) :
    state.heap.heapEnd ≤ (append state item size).2.heap.heapEnd := by
  have total : totalSize size = roundedSize size := by
    rw [totalSize_mod, Nat.mod_eq_of_lt (by omega)]
  rw [heap_append]
  split
  case isTrue => exact Nat.le_refl _
  case isFalse full =>
    rw [Nat.mod_eq_of_lt (show item + headerSize + getSize state.memory item < space by omega),
      total, Nat.mod_eq_of_lt fits] at full
    unfold increaseHeap
    rw [(iterate_increaseHeapPage _ bounded).1, total,
      Nat.mod_eq_of_lt (room.resolve_left full).2]
    exact Nat.le_add_right _ _

theorem kernMalloc_notWrapped (bounded : state.heap.heapEnd < space)
    (behind : state.heap.head ≠ 0 → BehindLast state size) :
    ∀ result ∈ kernMalloc state size, state.heap.heapEnd ≤ result.2.heap.heapEnd := by
  intro result isResult
  by_cases isNull : state.heap.head = 0
  · simp only [kernMalloc, if_pos isNull, Option.mem_def, Option.some.injEq] at isResult
    have isHeap : result.2.heap = { state.heap with head := state.heap.start } := by
      rw [← isResult, heap_clear]
    exact Nat.le_of_eq (congrArg KernHeap.heapEnd isHeap).symm
  · simp only [kernMalloc, if_neg isNull, Option.mem_def, Option.map_eq_some_iff] at isResult
    rcases isResult with ⟨item, found, isCase⟩
    by_cases isLast : getNext state.memory item = 0
    · rw [if_pos isLast] at isCase
      rw [← isCase]
      rcases behind isNull item found isLast with ⟨fits, room⟩
      exact append_notWrapped bounded fits room
    · rw [if_neg isLast] at isCase
      rcases reuse_eq_clear state item size with ⟨memory, isReuse⟩
      have isHeap : result.2.heap = state.heap := by rw [← isCase, isReuse, heap_clear]
      exact Nat.le_of_eq (congrArg KernHeap.heapEnd isHeap).symm

theorem allocAllocate_granted {blocks : List Block} (whole : Whole state blocks)
    (small : size < 2 ^ 30)
    (inside : if state.heap.head = 0 then
        state.heap.start + headerSize + size ≤ state.heap.heapEnd
      else BehindLast state size) :
    ∃ result after granted, allocAllocate state size = some result ∧
      Granted state result.2 blocks after size result.1 granted := by
  have behind : state.heap.head ≠ 0 → BehindLast state size := by
    intro notNull
    rwa [if_neg notNull] at inside
  rw [allocAllocate_eq (by unfold headerSize; omega)]
  apply kernMalloc_granted whole (by unfold headerSize; omega)
  · intro isNull
    rwa [if_pos isNull] at inside
  · exact kernMalloc_notWrapped whole.bounded behind
  · intro notNull item found isLast
    have fits := (behind notNull item found isLast).1
    rw [totalSize_mod, Nat.mod_eq_of_lt (by omega)]
    exact fits

end Malloc

theorem held_free_null {machine : Machine} {blocks : List Block} (held : Held machine blocks) :
    Held
      { state := allocFree machine.state 0
        returned := machine.returned
        live := machine.live.filter fun payload => payload.1 ≠ 0 } blocks := by
  have bounded := held.whole.bounded
  have freed := @Held.write machine blocks held
    (setPresent machine.state.memory (space - headerSize) false) ?_
  · refine ⟨freed.whole, freed.returned, fun payload isLive => ?_⟩
    exact freed.live payload (List.mem_of_mem_filter isLive)
  · intro block member
    have bounds := (held.whole.bounds member).2
    apply sameOn_setPresent (by decide)
    · unfold Block.payload Block.stop at *
      omega
    · unfold Block.payload Block.stop headerSize space at *
      omega

theorem userStep_held (machine : Machine) (event : Event) (next : Machine)
    (held : ∃ blocks, Held machine blocks)
    (guarded : UserAllowed machine event ∧ StaysInside machine event)
    (stepped : userStep machine event = some next) : ∃ blocks, Held next blocks := by
  rcases held with ⟨blocks, held⟩
  cases event with
  | malloc size =>
      rcases allocAllocate_granted held.whole guarded.1 guarded.2 with
        ⟨result, after, block, isResult, granted⟩
      have notNull : result.1 ≠ 0 := by
        rw [granted.pointer]
        unfold Block.payload headerSize
        omega
      unfold userStep at stepped
      simp only [isResult, Option.map_some, notNull, if_false, Option.some_inj] at stepped
      subst stepped
      exact ⟨after, held.malloc granted⟩
  | free object =>
      cases stepped
      rcases guarded.1 with rfl | isReturned
      · exact ⟨blocks, held_free_null held⟩
      · rcases held.free isReturned with ⟨before, block, after, -, -, freed⟩
        exact ⟨_, freed⟩
  | write address value =>
      cases stepped
      exact ⟨blocks, held.write fun _ member => held.store_payload guarded.1 value member⟩

/-! ## Whole runs -/

theorem userBoot_held {used : Nat} (memory : Memory) (atMost : used ≤ pageByteLen) :
    Held (userBoot memory used) [] := by
  refine ⟨⟨?_, ⟨rfl, trivial, _, rfl, ?_⟩, ?_, by simp⟩, by simp [userBoot], by simp [userBoot]⟩
  · show 0 < allocHeapStart + used
    unfold allocHeapStart
    omega
  · show allocHeapStart + used ≤ allocHeapStart + pageByteLen
    omega
  · show allocHeapStart + pageByteLen < space
    decide

/-- In every run in which the first block fits and no later one wraps around, all blocks lie
inside the heap. -/
theorem allInside_of_run {memory : Memory} {used : Nat} {events : List Event} {machine : Machine}
    (atMost : used ≤ pageByteLen)
    (admissible : Admissible userStep
      (fun machine event => UserAllowed machine event ∧ StaysInside machine event)
      (userBoot memory used) events)
    (reached : run userStep (userBoot memory used) events = some machine) : AllInside machine := by
  rcases run_preserves userStep_held ⟨[], userBoot_held memory atMost⟩ admissible reached with
    ⟨blocks, held⟩
  constructor
  · intro pointer isReturned
    rcases held.returned pointer isReturned with ⟨block, member, isPayload⟩
    exact .of_member held.whole member isPayload (Nat.zero_le _)
  · intro payload isLive
    rcases held.live payload isLive with ⟨block, member, isPayload, enough, -⟩
    exact .of_member held.whole member isPayload enough

/-- Requests with growth, a free and one that splits the free block. -/
def growing : List Event :=
  [.malloc 40, .malloc 5000, .write 0x50000049 7, .free 0x50000049, .free 0, .malloc 16]

theorem allInside_of_run_growing : ∃ machine,
    run userStep (userBoot (fun _ => 0xFF) 64) growing = some machine ∧ AllInside machine := by
  rcases Option.isSome_iff_exists.mp
    (show (run userStep (userBoot (fun _ => 0xFF) 64) growing).isSome by decide +kernel) with
    ⟨machine, reached⟩
  exact ⟨machine, reached, allInside_of_run (by decide) (by decide +kernel) reached⟩

/-- The first block is longer than the page. -/
theorem not_allInside : ∃ machine,
    Admissible userStep UserAllowed (userBoot (fun _ => 0) 64) [.malloc 5000] ∧
      run userStep (userBoot (fun _ => 0) 64) [.malloc 5000] = some machine ∧
      ¬AllInside machine := by
  rcases Option.isSome_iff_exists.mp
    (show (run userStep (userBoot (fun _ => 0) 64) [.malloc 5000]).isSome by decide +kernel) with
    ⟨machine, reached⟩
  refine ⟨machine, by decide +kernel, reached, fun inside => ?_⟩
  have fields : ∀ machine ∈ run userStep (userBoot (fun _ => 0) 64) [.malloc 5000],
      machine.live = [(0x50000049, 5000)] ∧ machine.state.heap.heapEnd = 0x50001000 := by
    decide +kernel
  rcases fields machine reached with ⟨isLive, isEnd⟩
  have inHeap := inside.2 (0x50000049, 5000) (by rw [isLive]; simp)
  have enough := inHeap.enough
  have below := inHeap.below
  simp only [isEnd] at enough below
  omega

end Dbos.Bootstrap
