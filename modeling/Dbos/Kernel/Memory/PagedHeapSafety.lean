import Dbos.Kernel.Memory.PagedHeap

/-! # Safety of the heap behind the page tables

What the callers of `kern_malloc` and `kern_free` find in their blocks after every run, in which
others may move the window onto physical memory. -/

namespace Dbos.PagedHeap

open Dbos.Execution
open Paging (Memory)
open Paging.KernelAccess
open Paging.KernelPages (Layout heapPage tablesPage)
open Heap (Block headerSize pageByteLen kernelHeapInitAddr totalSize)
open ByteMemory (space)

/-! ## Runs -/

/-- The heap with what its callers know, and with the byte that they have to find at each address
of a block that they use. -/
structure Machine where
  state : State
  returned : List Nat
  live : List (Nat × Nat)
  contents : Nat → UInt8

inductive Event where
  | malloc (size : Nat)
  | free (object : Nat)
  | write (address : Nat) (value : UInt8)
  | map (physical : Nat)

def step (cr3 : Nat) (machine : Machine) : Event → Option Machine
  | .malloc size =>
      (kernMalloc cr3 machine.state size).map fun (pointer, state) =>
        if pointer = 0 then { machine with state }
        else
          { state
            returned := pointer :: machine.returned
            live := (pointer, size) :: machine.live
            contents := fun address => if pointer ≤ address ∧ address < pointer + size then 0
              else machine.contents address }
  | .free object =>
      (kernFree cr3 machine.state object).map fun state =>
        { machine with
          state
          live := machine.live.filter fun payload => payload.1 ≠ object }
  | .write address value =>
      (store machine.state.memory cr3 address value).map fun memory =>
        { machine with
          state := { machine.state with memory }
          contents := Function.update machine.contents address value }
  | .map physical =>
      (Paging.Window.tempMapPage cr3 machine.state.memory physical).map fun memory =>
        { machine with state := { machine.state with memory } }

/-- What the callers promise, and that a request does not take the last frame or the addresses
of the page tables. -/
def Allowed (cr3 : Nat) (machine : Machine) : Event → Prop
  | .malloc size =>
      Request machine.state.heap size ∧ ∀ result ∈ kernMalloc cr3 machine.state size,
        result.2.phys.Ok ∧ machine.state.heap.heapEnd ≤ result.2.heap.heapEnd ∧
          result.2.heap.heapEnd ≤ tablesPage * 4096
  | .free object => object ∈ machine.returned
  | .write address _ =>
      ∃ payload ∈ machine.live, payload.1 ≤ address ∧ address < payload.1 + payload.2
  | .map _ => True

/-- The same, with the frames and the addresses that there have to be before a request. -/
def Possible (machine : Machine) : Event → Prop
  | .malloc size => Affords machine.state size
  | .free object => object ∈ machine.returned
  | .write address _ =>
      ∃ payload ∈ machine.live, payload.1 ≤ address ∧ address < payload.1 + payload.2
  | .map _ => True

/-- What `initialise_heap` leaves. Nobody has got a block. -/
def boot (state : State) : Machine := ⟨state, [], [], fun _ => 0⟩

/-! ## The invariant -/

/-- The callers and the heap, where the memory is flat. -/
def Machine.flatten (machine : Machine) (flat : ByteMemory.Memory) : Heap.Machine :=
  ⟨⟨flat, machine.state.heap⟩, machine.returned, machine.live⟩

def Inside (payload : Nat × Nat) (address : Nat) : Prop :=
  payload.1 ≤ address ∧ address < payload.1 + payload.2

def Apart (payload other : Nat × Nat) : Prop :=
  payload.1 + payload.2 ≤ other.1 ∨ other.1 + other.2 ≤ payload.1

structure Invariant (kept : Set Nat) (cr3 kernelTable : Nat) (memory : Memory) (machine : Machine)
    (flat : ByteMemory.Memory) (blocks : List Block) : Prop where
  carries : Carries kept cr3 kernelTable machine.state flat
  heap : Heap.Invariant (machine.flatten flat) blocks
  holds : ∀ payload ∈ machine.live, ∀ address, Inside payload address →
    ByteMemory.load flat address = machine.contents address
  apart : machine.live.Pairwise Apart
  keeps : Keeps kept cr3 memory machine.state.memory

section Invariant

variable {kept : Set Nat} {cr3 kernelTable : Nat} {memory : Memory} {machine : Machine}
  {flat : ByteMemory.Memory} {blocks : List Block}

theorem Invariant.congr (invariant : Invariant kept cr3 kernelTable memory machine flat blocks)
    {other : ByteMemory.Memory}
    (same : ByteMemory.SameOn 0 machine.state.heap.heapEnd other flat) :
    Invariant kept cr3 kernelTable memory machine other blocks := by
  have sound := invariant.heap.sound
  have held := invariant.heap.held
  have whole : Heap.Whole ⟨other, machine.state.heap⟩ blocks := whole_congr held.whole same
  refine ⟨invariant.carries.congr same,
    ⟨⟨sound.start, whole.tiled, sound.firstPage, sound.bounded⟩, whole, held.returned, held.live⟩,
    fun payload isLive address inside => ?_, invariant.apart, invariant.keeps⟩
  rcases held.live payload isLive with ⟨block, member, isPayload, smaller, -⟩
  have bounds := (held.whole.bounds member).2
  rw [same address (Nat.zero_le _) ?_]
  · exact invariant.holds payload isLive address inside
  · rcases inside with ⟨-, less⟩
    unfold Block.payload Block.stop at *
    exact Nat.lt_of_lt_of_le less (by rw [isPayload]; exact Nat.le_trans (by omega) bounds)

theorem fitsBelow_of_request {state : Heap.State} (whole : Heap.Whole state blocks) {size : Nat}
    (request : Request state.heap size) : Heap.FitsBelow state size := by
  intro notEmpty item isItem isLast
  have nonempty : blocks ≠ [] := fun isNil => notEmpty (whole.head_eq_zero_iff.mpr isNil)
  rcases whole.findItem nonempty size with ⟨before, block, after, rfl, found, -, -, -⟩
  have member : block ∈ before ++ block :: after := by simp
  have bounds := (whole.bounds member).2
  have isBlock : item = block.address := Option.some_inj.mp (isItem.symm.trans found)
  have blockAt := (Heap.linked_append.mp whole.tiled.2.1).2.1
  have fits := request.fits
  rw [isBlock, blockAt.size]
  unfold Block.stop at bounds
  omega

theorem Invariant.step_malloc (invariant : Invariant kept cr3 kernelTable memory machine flat blocks)
    {size pointer : Nat} {next : State} (serves : Serves cr3 machine.state size pointer next) :
    pointer ≠ 0 ∧ WindowAfter kept cr3 machine.state next ∧ ∃ nextFlat after, Invariant kept cr3 kernelTable memory
      ⟨next, pointer :: machine.returned, (pointer, size) :: machine.live, fun address =>
        if pointer ≤ address ∧ address < pointer + size then 0 else machine.contents address⟩
      nextFlat after := by
  rcases kernMalloc_simulated invariant.carries invariant.heap.sound serves with
    ⟨grownFlat, nextFlat, simulated⟩
  have grown := invariant.congr simulated.old
  have request := serves.request
  have allowed : Heap.Allowed (machine.flatten grownFlat) (.malloc size) := by
    refine ⟨request.small, request.first, fun result isResult => ?_⟩
    rw [Option.mem_def.mp isResult |>.symm.trans simulated.result |> Option.some_inj.mp]
    exact serves.larger
  have fits := fitsBelow_of_request grown.heap.held.whole request
  have isFlat : Heap.kernMalloc (machine.flatten grownFlat).state size =
      some (pointer, ⟨nextFlat, next.heap⟩) := simulated.result
  rcases Heap.kernMalloc_served grown.heap allowed fits with
    ⟨_, _, after, block, isResult, served⟩
  rw [isFlat, Option.some_inj, Prod.mk.injEq] at isResult
  rcases isResult with ⟨rfl, rfl⟩
  have notNull : pointer ≠ 0 := by
    rw [served.isPayload]
    unfold Block.payload headerSize
    omega
  have stepped : Heap.step (machine.flatten grownFlat) (.malloc size) =
      some ⟨⟨nextFlat, next.heap⟩, pointer :: machine.returned, (pointer, size) :: machine.live⟩ := by
    unfold Heap.step
    simp only [isFlat, Option.map_some, if_neg notNull]
    rfl
  rcases Heap.step_malloc_invariant grown.heap allowed fits stepped with ⟨nextBlocks, isInvariant⟩
  have enough := served.enough
  refine ⟨notNull, simulated.window, nextFlat, nextBlocks, simulated.carries, isInvariant, ?_, ?_,
    simulated.keeps.trans invariant.keeps⟩
  · intro payload isLive address inside
    unfold Inside at inside
    rcases List.mem_cons.mp isLive with rfl | old
    · have zero := served.zero (address - pointer) (by omega)
      rw [Nat.add_sub_cancel' inside.1] at zero
      exact zero.trans (if_pos inside).symm
    · have apart := served.payloads payload old
      have same := served.kept payload old (address - payload.1) (by omega)
      rw [Nat.add_sub_cancel' inside.1] at same
      have holds := grown.holds payload old address inside
      exact same.trans (holds.trans (if_neg (by omega)).symm)
  · refine List.pairwise_cons.mpr ⟨fun other isLive => ?_, invariant.apart⟩
    have apart := served.payloads other isLive
    unfold Apart
    omega

theorem Invariant.step_free (invariant : Invariant kept cr3 kernelTable memory machine flat blocks)
    {object : Nat} (isReturned : object ∈ machine.returned) :
    ∃ state, kernFree cr3 machine.state object = some state ∧ ∃ nextFlat after,
      Invariant kept cr3 kernelTable memory
        { machine with
          state
          live := machine.live.filter fun payload => payload.1 ≠ object }
        nextFlat after := by
  have held := invariant.heap.held
  rcases held.returned object isReturned with ⟨block, member, rfl⟩
  have bounds := held.whole.bounds member
  rcases Heap.kernFree_eq held.whole member with ⟨isFreed, itemBound⟩
  have bounded := invariant.carries.backed.bounded
  have isItem : (block.payload + space - headerSize) % space = block.address := by
    unfold Block.payload
    rw [show block.address + headerSize + space - headerSize = block.address + space by omega,
      Nat.add_mod_right]
    exact Nat.mod_eq_of_lt (by unfold headerSize at itemBound; omega)
  have header : block.address + headerSize ≤ machine.state.heap.heapEnd := by
    have stop := bounds.2
    unfold Block.stop at stop
    exact Nat.le_trans (Nat.le_add_right _ _) stop
  rcases setPresent_view invariant.carries.backed invariant.carries.view bounds.1 header false with
    ⟨next, isNext, view⟩
  refine ⟨{ machine.state with memory := next }, ?_, ?_⟩
  · unfold kernFree
    rw [isItem, isNext]
    rfl
  rcases Heap.step_free_invariant invariant.heap isReturned with ⟨after, isInvariant⟩
  rw [isFreed] at isInvariant
  refine ⟨Heap.setPresent flat block.address false, after,
    invariant.carries.written view rfl rfl, isInvariant, ?_, invariant.apart.filter _,
    (invariant.carries.keeps view).trans invariant.keeps⟩
  intro payload isLive address inside
  have old := (List.mem_filter.mp isLive).1
  rw [← invariant.holds payload old address inside]
  rcases held.live payload old with ⟨other, otherMember, isPayload, smaller, -⟩
  have otherBounds : other.stop ≤ machine.state.heap.heapEnd := (held.whole.bounds otherMember).2
  rcases held.whole.tiled with ⟨-, -, last, tiles, -⟩
  unfold Inside at inside
  have apart : other.address = block.address ∨ other.stop ≤ block.address ∨
      block.stop ≤ other.address := by
    by_cases same : other.address = block.address
    · exact .inl same
    · exact .inr (tiles.disjoint member otherMember same)
  unfold Block.payload Block.stop headerSize at *
  have same : ByteMemory.SameOn address (address + 1) (Heap.setPresent flat block.address false) flat :=
    Heap.sameOn_setPresent itemBound (by omega) (by omega)
  exact same address (Nat.le_refl _) (Nat.lt_succ_self _)

theorem Invariant.within (invariant : Invariant kept cr3 kernelTable memory machine flat blocks)
    {payload : Nat × Nat} (isLive : payload ∈ machine.live) :
    machine.state.heap.start ≤ payload.1 ∧ payload.1 + payload.2 ≤ machine.state.heap.heapEnd := by
  have held := invariant.heap.held
  rcases held.live payload isLive with ⟨block, member, isPayload, smaller, -⟩
  have low : machine.state.heap.start ≤ block.address := (held.whole.bounds member).1
  have high : block.stop ≤ machine.state.heap.heapEnd := (held.whole.bounds member).2
  unfold Block.payload Block.stop at *
  omega

theorem Invariant.range (invariant : Invariant kept cr3 kernelTable memory machine flat blocks)
    {payload : Nat × Nat} (isLive : payload ∈ machine.live) {address : Nat}
    (inside : Inside payload address) :
    machine.state.heap.start ≤ address ∧ address < machine.state.heap.heapEnd := by
  have within := invariant.within isLive
  unfold Inside at inside
  omega

theorem Invariant.step_write (invariant : Invariant kept cr3 kernelTable memory machine flat blocks)
    {address : Nat} (allowed : ∃ payload ∈ machine.live, Inside payload address) (value : UInt8) :
    ∃ next, store machine.state.memory cr3 address value = some next ∧ ∃ nextFlat,
      Invariant kept cr3 kernelTable memory
        { machine with
          state := { machine.state with memory := next }
          contents := Function.update machine.contents address value }
        nextFlat blocks := by
  have bounded := invariant.carries.backed.bounded
  rcases allowed with ⟨payload, isLive, inside⟩
  rcases invariant.range isLive inside with ⟨low, high⟩
  rcases invariant.carries.view.store invariant.carries.backed low high value with
    ⟨next, isNext, view⟩
  refine ⟨next, isNext, ByteMemory.store flat address value,
    invariant.carries.written view rfl rfl,
    Heap.step_write_invariant invariant.heap ⟨payload, isLive, inside⟩ value, ?_, invariant.apart,
    (invariant.carries.keeps view).trans invariant.keeps⟩
  intro other otherLive place otherInside
  have below := (invariant.range otherLive otherInside).2
  simp only
  by_cases same : place = address
  · rw [same, ByteMemory.load_store_self, Function.update_self]
  · rw [ByteMemory.load_store_of_ne (by omega) (by omega) same, Function.update_of_ne same]
    exact invariant.holds other otherLive place otherInside

theorem Carries.showing {state : State} (carries : Carries kept cr3 kernelTable state flat)
    (frame : Nat) :
    Carries kept cr3 kernelTable
        { state with memory := Paging.Window.showing kernelTable state.memory frame } flat ∧
      Keeps kept cr3 state.memory (Paging.Window.showing kernelTable state.memory frame) := by
  have layout := carries.layout
  have upper := layout.upper
  have lower := layout.lower
  have elsewhere : ∀ other use, Paging.KernelPages.UsedAs kept state.memory cr3
      (state.heap.heapEnd / 4096) other use → use ≠ .table 768 →
      Paging.Window.showing kernelTable state.memory frame other = state.memory other := by
    intro other use isUse different
    have notKernel := layout.ne_of_use isUse layout.isKernelTable different
    funext place
    exact Paging.Window.showing_of_ne _ _ (.inl notKernel)
  refine ⟨⟨layout.showing frame, carries.start, carries.aligned, fun address low high => ?_⟩,
    fun other isKept => ?_, fun page above below => ?_⟩
  · have page : heapPage ≤ address / 4096 ∧ address / 4096 < state.heap.heapEnd / 4096 :=
      Paging.KernelPages.page_of_address (carries.ends.1 ▸ low) (carries.ends.2.symm ▸ high)
    rcases carries.backed.page low high with ⟨small, -, -⟩
    rcases layout.pages _ page.1 page.2 with ⟨backing, found⟩
    rw [← carries.shows address low high]
    unfold load
    rw [small, layout.walk_showing frame (Nat.lt_of_lt_of_le (by decide) page.1)
      (Nat.lt_of_lt_of_le page.2 upper)]
    simp only at found
    rw [found, Option.map_some, Option.map_some,
      byteAt_congr (elsewhere backing (.page (address / 4096)) ⟨page.1, page.2, found⟩ (by simp))]
  · exact elsewhere other (.kept other) ⟨isKept, rfl⟩ (by simp)
  · exact layout.walk_showing frame above
      (Nat.lt_of_lt_of_le (Nat.lt_of_lt_of_le below lower) upper)

theorem tempMapPage_eq_showing {memory : Memory}
    (ready : Paging.Window.Ready memory cr3 kernelTable) (physical : Nat) :
    Paging.Window.tempMapPage cr3 memory physical =
      some (Paging.Window.showing kernelTable memory (physical / 4096)) := by
  rw [← Paging.Window.tempMapPage_eq ready (physical / 4096)]
  unfold Paging.Window.tempMapPage
  rw [Nat.mul_div_cancel _ (by decide)]

theorem Invariant.step_map (invariant : Invariant kept cr3 kernelTable memory machine flat blocks)
    (physical : Nat) :
    ∃ next, Paging.Window.tempMapPage cr3 machine.state.memory physical = some next ∧
      Invariant kept cr3 kernelTable memory
        { machine with state := { machine.state with memory := next } } flat blocks := by
  rcases invariant.carries.showing (physical / 4096) with ⟨carries, keeps⟩
  exact ⟨_, tempMapPage_eq_showing invariant.carries.layout.ready physical, carries, invariant.heap,
    invariant.holds, invariant.apart, keeps.trans invariant.keeps⟩

theorem Invariant.answers (invariant : Invariant kept cr3 kernelTable memory machine flat blocks)
    {event : Event} (possible : Possible machine event) :
    Allowed cr3 machine event ∧ ∃ next, step cr3 machine event = some next := by
  cases event with
  | malloc size =>
      rcases kernMalloc_returns invariant.carries invariant.heap.sound possible with
        ⟨pointer, next, serves⟩
      refine ⟨⟨serves.request, fun result isResult => ?_⟩, ?_⟩
      · rw [Option.some_inj.mp ((Option.mem_def.mp isResult).symm.trans serves.result)]
        exact ⟨serves.ok, serves.larger, serves.below⟩
      · unfold step
        simp only [serves.result, Option.map_some]
        exact ⟨_, rfl⟩
  | free object =>
      rcases invariant.step_free possible with ⟨state, isState, -⟩
      refine ⟨possible, ?_⟩
      unfold step
      simp only [isState, Option.map_some]
      exact ⟨_, rfl⟩
  | write address value =>
      rcases invariant.step_write possible value with ⟨next, isNext, -⟩
      refine ⟨possible, ?_⟩
      unfold step
      simp only [isNext, Option.map_some]
      exact ⟨_, rfl⟩
  | map physical =>
      rcases invariant.step_map physical with ⟨next, isNext, -⟩
      refine ⟨trivial, ?_⟩
      unfold step
      simp only [isNext, Option.map_some]
      exact ⟨_, rfl⟩

end Invariant

theorem step_invariant {kept : Set Nat} {cr3 kernelTable : Nat} {memory : Memory}
    (machine : Machine) (event : Event) (next : Machine)
    (invariant : ∃ flat blocks, Invariant kept cr3 kernelTable memory machine flat blocks)
    (allowed : Allowed cr3 machine event) (stepped : step cr3 machine event = some next) :
    ∃ flat blocks, Invariant kept cr3 kernelTable memory next flat blocks := by
  rcases invariant with ⟨flat, blocks, invariant⟩
  cases event with
  | malloc size =>
      rcases Option.map_eq_some_iff.mp stepped with ⟨⟨pointer, state⟩, isResult, rfl⟩
      rcases allowed.2 _ isResult with ⟨ok, larger, below⟩
      rcases invariant.step_malloc ⟨allowed.1, isResult, ok, larger, below⟩ with
        ⟨notNull, -, nextFlat, after, isInvariant⟩
      simp only [if_neg notNull]
      exact ⟨nextFlat, after, isInvariant⟩
  | free object =>
      rcases Option.map_eq_some_iff.mp stepped with ⟨state, isState, rfl⟩
      rcases invariant.step_free allowed with ⟨other, isOther, nextFlat, after, isInvariant⟩
      rw [isState, Option.some_inj] at isOther
      exact ⟨nextFlat, after, isOther ▸ isInvariant⟩
  | write address value =>
      rcases Option.map_eq_some_iff.mp stepped with ⟨written, isWritten, rfl⟩
      rcases invariant.step_write allowed value with ⟨other, isOther, nextFlat, isInvariant⟩
      rw [isWritten, Option.some_inj] at isOther
      exact ⟨nextFlat, blocks, isOther ▸ isInvariant⟩
  | map physical =>
      rcases Option.map_eq_some_iff.mp stepped with ⟨mapped, isMapped, rfl⟩
      rcases invariant.step_map physical with ⟨other, isOther, isInvariant⟩
      rw [isMapped, Option.some_inj] at isOther
      exact ⟨flat, blocks, isOther ▸ isInvariant⟩

theorem Invariant.next {kept : Set Nat} {cr3 kernelTable : Nat} {memory : Memory}
    {machine : Machine} {flat : ByteMemory.Memory} {blocks : List Block}
    (invariant : Invariant kept cr3 kernelTable memory machine flat blocks) {event : Event}
    (possible : Possible machine event) :
    ∃ next, step cr3 machine event = some next ∧ Allowed cr3 machine event ∧
      ∃ flat blocks, Invariant kept cr3 kernelTable memory next flat blocks := by
  rcases invariant.answers possible with ⟨allowed, next, stepped⟩
  exact ⟨next, stepped, allowed, step_invariant machine event next ⟨flat, blocks, invariant⟩ allowed
    stepped⟩

/-! ## Every run -/

theorem initialiseHeap_invariant {kept : Set Nat} {cr3 kernelTable : Nat}
    {machine : Paging.Machine} {state : State}
    (layout : Layout kept cr3 kernelTable machine heapPage)
    (isState : initialiseHeap cr3 machine = some state) (ok : state.phys.Ok) :
    ∃ flat, Invariant kept cr3 kernelTable machine.memory (boot state) flat [] := by
  rcases Option.bind_eq_some_iff.mp isState with ⟨next, isNext, isSome⟩
  cases isSome
  have isEntry : Paging.Window.setPageTableEntry cr3 ⟨machine.memory, machine.phys.allocPage.2⟩
      (cr3 * 4096) (heapPage * 4096) (machine.phys.allocPage.1 * 4096) 1 0 = some next := isNext
  have extended := layout.extended (by decide) isEntry ok
  have keeps : Keeps kept cr3 machine.memory next.memory :=
    ⟨fun frame isKept => extended.data frame (.kept frame) ⟨isKept, rfl⟩ trivial, extended.walk⟩
  have backed := extended.layout.backed
  have isEnd : (kernelHeapInitAddr + pageByteLen) / 4096 = heapPage + 1 := by decide
  have isLayout : Layout kept cr3 kernelTable ⟨next.memory, next.phys⟩
      ((kernelHeapInitAddr + pageByteLen) / 4096) := by
    rw [isEnd]
    exact extended.layout
  refine ⟨fun address => (load next.memory cr3 address).getD 0,
    ⟨isLayout, rfl, show (kernelHeapInitAddr + pageByteLen) % 4096 = 0 by decide,
      fun address low high => ?_⟩, Heap.boot_invariant _,
    fun payload isLive => absurd isLive List.not_mem_nil, List.Pairwise.nil, keeps⟩
  have bounded := backed.bounded
  rcases backed.mapped address low high with ⟨frame, found, -⟩
  rcases backed.page low high with ⟨small, -, -⟩
  show load next.memory cr3 address = some ((load next.memory cr3 (address % space)).getD 0)
  rw [small]
  unfold load
  rw [small, found]
  rfl

/-- A state that a run leads to from `initialise_heap`, in page tables that end where the heap
begins. The frames in `kept` belong to others. -/
structure Reached (kept : Set Nat) (cr3 kernelTable : Nat) (start : Paging.Machine)
    (machine : Machine) : Prop where
  layout : Layout kept cr3 kernelTable start heapPage
  reached : ∃ state events, initialiseHeap cr3 start = some state ∧ state.phys.Ok ∧
    Admissible (step cr3) (Allowed cr3) (boot state) events ∧
    run (step cr3) (boot state) events = some machine

section Reached

variable {kept : Set Nat} {cr3 kernelTable : Nat} {start : Paging.Machine} {machine : Machine}

theorem Reached.invariant (reached : Reached kept cr3 kernelTable start machine) :
    ∃ flat blocks, Invariant kept cr3 kernelTable start.memory machine flat blocks := by
  rcases reached with ⟨layout, state, events, isState, ok, admissible, reached⟩
  rcases initialiseHeap_invariant layout isState ok with ⟨flat, initial⟩
  exact run_preserves step_invariant ⟨flat, [], initial⟩ admissible reached

/-- What the callers of the heap and the owners of the other frames rely on. -/
structure Safe (kept : Set Nat) (cr3 : Nat) (memory : Memory) (machine : Machine) : Prop where
  bytes : ∀ payload ∈ machine.live, ∀ address, Inside payload address →
    load machine.state.memory cr3 address = some (machine.contents address)
  apart : machine.live.Pairwise Apart
  frames : ∀ frame ∈ kept, machine.state.memory frame = memory frame
  answers : ∀ event, Possible machine event →
    Allowed cr3 machine event ∧ ∃ next, step cr3 machine event = some next

/-- After every run, the callers find in their blocks what they have written there, no two
blocks meet, the frames of others are what they were, and no event that is possible faults. -/
theorem heap_safe (reached : Reached kept cr3 kernelTable start machine) :
    Safe kept cr3 start.memory machine := by
  rcases reached.invariant with ⟨flat, blocks, invariant⟩
  refine ⟨fun payload isLive address inside => ?_, invariant.apart, invariant.keeps.frames,
    fun _ possible => invariant.answers possible⟩
  rcases invariant.range isLive inside with ⟨low, high⟩
  rw [invariant.carries.shows address low high, invariant.holds payload isLive address inside]

end Reached

/-! ### A machine with one directory -/

open Paging.Window (oneDirectory)

/-- A directory with one table in the kernel half, which has the entry of the window. -/
theorem layout_of_oneTable {kept : Set Nat} {cr3 kernelTable : Nat} {machine : Paging.Machine}
    (ready : Paging.Window.Ready machine.memory cr3 kernelTable) (valid : machine.phys.Valid)
    (directory : cr3 ≠ 0 ∧ cr3 < Paging.frameCount ∧ cr3 ∉ kept)
    (table : kernelTable ≠ 0 ∧ kernelTable ≠ cr3 ∧ kernelTable ∉ kept)
    (missing : ∀ index < 1023, index ≠ 768 → machine.memory cr3 index = 0)
    (occupied : ∀ frame, frame = cr3 ∨ frame = kernelTable ∨ frame ∈ kept →
      Paging.KernelPages.Occupied machine.phys frame) :
    Layout kept cr3 kernelTable machine heapPage := by
  have uses : ∀ frame use, Paging.KernelPages.UsedAs kept machine.memory cr3 heapPage frame use →
      use = .directory ∧ frame = cr3 ∨ use = .table 768 ∧ frame = kernelTable ∨
        use = .kept frame ∧ frame ∈ kept := by
    intro frame use isUse
    cases use with
    | directory => exact .inl ⟨rfl, isUse⟩
    | table index =>
        rcases isUse with ⟨low, high, notNull, rfl⟩
        by_cases isKernel : index = 768
        · subst isKernel
          exact .inr (.inl ⟨rfl, ready.kernelEntry.2⟩)
        · rw [missing index high isKernel] at notNull
          exact absurd rfl notNull
    | page page =>
        rcases isUse with ⟨low, high, -⟩
        exact absurd high (Nat.not_lt.mpr low)
    | kept other =>
        rcases isUse with ⟨isKept, rfl⟩
        exact .inr (.inr ⟨rfl, isKept⟩)
  refine ⟨ready, valid, directory.1, directory.2.1, Nat.le_refl _, by decide,
    fun index low high => ?_, fun page low high => absurd high (Nat.not_lt.mpr low),
    fun frame use other isUse isOther => ?_, fun frame use isUse => occupied frame ?_⟩
  · by_cases isKernel : index = 768
    · subst isKernel
      rw [ready.kernelEntry.1, ready.kernelEntry.2]
      exact iff_of_true rfl table.1
    · rw [missing index high isKernel]
      decide
  · rcases uses frame use isUse with ⟨rfl, rfl⟩ | ⟨rfl, rfl⟩ | ⟨rfl, isKept⟩ <;>
      rcases uses _ other isOther with ⟨rfl, same⟩ | ⟨rfl, same⟩ | ⟨rfl, isOtherKept⟩ <;> grind
  · exact (uses frame use isUse).imp And.right (Or.imp And.right And.right)

theorem layout_oneDirectory : Layout {0} 1 2 oneDirectory heapPage := by
  refine layout_of_oneTable ⟨by decide, by decide, by decide⟩
    ⟨by decide, by decide, by simp [oneDirectory]⟩ ⟨by decide, by decide, by simp⟩
    ⟨by decide, by decide, by simp⟩ (fun index high => Paging.Window.oneDirectory_entry high) ?_
  rintro frame (rfl | rfl | rfl) _ <;> decide

theorem initialiseHeap_oneDirectory : ∃ state, initialiseHeap 1 oneDirectory = some state ∧
    HasFrames state.phys 2 ∧ state.heap.heapEnd = 0xD0001000 := by
  have evaluated : ((initialiseHeap 1 oneDirectory).any fun state =>
      HasFrames state.phys 2 ∧ state.heap.heapEnd = 0xD0001000) = true := by
    decide +kernel
  rcases (Option.any_eq_true _ _).mp evaluated with ⟨state, isState, facts⟩
  exact ⟨state, isState, of_decide_eq_true facts⟩

theorem affords_of_hasFrames {state : State} (frames : HasFrames state.phys 2)
    (isEnd : state.heap.heapEnd = 0xD0001000) {size : Nat} (small : size ≤ 40) :
    Affords state size := by
  have isSmall : size + headerSize < 2 ^ 31 := by
    unfold headerSize
    omega
  have total : 0 < totalSize size ∧ totalSize size ≤ 49 := by
    rw [Heap.totalSize_eq isSmall]
    unfold headerSize
    omega
  have pages : Heap.pagesFor (totalSize size) = 1 := by
    unfold Heap.pagesFor pageByteLen
    split <;> omega
  refine ⟨⟨isSmall, fun _ => ?_, ?_⟩, ?_, ?_⟩
  · unfold headerSize pageByteLen
    omega
  · rw [isEnd]
    unfold space
    omega
  · rw [isEnd, pages]
    decide
  · rw [pages]
    exact frames

theorem reached_oneDirectory : ∃ state pointer machine,
    run (step 1) (boot state) [.malloc 40, .map 0x5000, .write pointer 7] = some machine ∧
      Reached {0} 1 2 oneDirectory machine ∧ (pointer, 40) ∈ machine.live := by
  rcases initialiseHeap_oneDirectory with ⟨state, isState, frames, isEnd⟩
  have affords : Affords state 40 := affords_of_hasFrames frames isEnd (Nat.le_refl _)
  have ok := affords.frames.ok
  rcases initialiseHeap_invariant layout_oneDirectory isState ok with ⟨flat, initial⟩
  have grants : Possible (boot state) (.malloc 40) := affords
  rcases initial.next grants with ⟨granted, isGranted, mayGrant, _, _, inGranted⟩
  rcases Option.map_eq_some_iff.mp isGranted with ⟨⟨pointer, next⟩, isResult, isNext⟩
  rcases mayGrant.2 _ isResult with ⟨nextOk, larger, below⟩
  have notNull := (initial.step_malloc ⟨affords.request, isResult, nextOk, larger, below⟩).1
  simp only [if_neg notNull] at isNext
  have maps : Possible granted (.map 0x5000) := trivial
  rcases inGranted.next maps with ⟨mapped, isMapped, mayMap, _, _, inMapped⟩
  rcases Option.map_eq_some_iff.mp isMapped with ⟨_, -, isShown⟩
  have isLive : (pointer, 40) ∈ mapped.live := by
    rw [← isShown, ← isNext]
    exact List.mem_singleton_self _
  have writes : Possible mapped (.write pointer 7) :=
    ⟨_, isLive, Nat.le_refl _, Nat.lt_add_of_pos_right (Nat.succ_pos 39)⟩
  rcases inMapped.next writes with ⟨written, isWritten, mayWrite, -⟩
  rcases Option.map_eq_some_iff.mp isWritten with ⟨_, -, isStored⟩
  have reached : run (step 1) (boot state) [.malloc 40, .map 0x5000, .write pointer 7] =
      some written := by
    rw [run_cons, isGranted, Option.bind_some, run_cons, isMapped, Option.bind_some, run_cons,
      isWritten, Option.bind_some, run_nil]
  have admissible : Admissible (step 1) (Allowed 1) (boot state)
      [.malloc 40, .map 0x5000, .write pointer 7] :=
    .cons mayGrant isGranted (.cons mayMap isMapped (.cons mayWrite isWritten trivial))
  refine ⟨state, pointer, written, reached,
    ⟨layout_oneDirectory, state, _, isState, ok, admissible, reached⟩, ?_⟩
  rw [← isStored]
  exact isLive

theorem heap_safe_oneDirectory : ∃ state pointer machine,
    run (step 1) (boot state) [.malloc 40, .map 0x5000, .write pointer 7] = some machine ∧
      (pointer, 40) ∈ machine.live ∧ Safe {0} 1 oneDirectory.memory machine := by
  rcases reached_oneDirectory with ⟨state, pointer, machine, isRun, reached, isLive⟩
  exact ⟨state, pointer, machine, isRun, isLive, heap_safe reached⟩

end Dbos.PagedHeap
