import Mathlib.Algebra.Ring.Int.Defs
import Mathlib.Data.Finset.Card
import Dbos.Foundation.Execution
import Dbos.Kernel.Memory.FrameNumbers

/-! # Runs of the physical allocator

Every sequence of calls to `memory_phys.c` after `init_phys_memory`. Nothing ever
gets into the free list, so `alloc_phys_page` always searches the table. -/

namespace Dbos.Paging.Phys

open Dbos.Loop Dbos.Execution

/-- What the boot loader reports: at most 640 KiB of lower memory, and upper memory
that ends at 4 GiB at the latest. -/
structure Multiboot where
  memoryLower : Nat
  memoryUpper : Nat
  lastModEnd : Nat
  lower : memoryLower ≤ 640
  upper : 1024 + memoryUpper ≤ 0x400000

/-- The calls of the allocator, with their addresses. -/
inductive Call where
  | allocAddr (addr : Nat)
  | allocPage
  | free (addr : Nat)
  | increaseRefcount (addr : Nat)
  | decreaseRefcount (addr : Nat)
deriving DecidableEq

/-- All functions align their address first. -/
def call (phys : Phys) : Call → Phys
  | .allocAddr addr => phys.allocAddr (addr / 4096)
  | .allocPage => phys.allocPage.2
  | .free addr => phys.free (addr / 4096)
  | .increaseRefcount addr => phys.increaseRefcount (addr / 4096)
  | .decreaseRefcount addr => phys.decreaseRefcount (addr / 4096)

theorem getAlloc_eq (phys : Phys) (addr : Nat) :
    phys.getAlloc addr = phys.addrToIndex (addr / 4096) := by
  have isPage : 4096 * (addr / 4096) / 4096 = addr / 4096 := Nat.mul_div_cancel_left _ (by decide)
  have above : 0x100000 ≤ 4096 * (addr / 4096) ↔ 0x100 ≤ addr / 4096 := by omega
  have distance : (4096 * (addr / 4096) - 0x100000) / 4096 = addr / 4096 - 0x100 := by omega
  unfold getAlloc addressToIndex addrToIndex
  simp only [alignPage_eq, isPage, above, distance, Nat.mul_comm (addr / 4096)]

theorem valid_sized (info : Multiboot) (behind : Nat → Nat) :
    (sized info.memoryLower info.memoryUpper behind).Valid := by
  have lower := info.lower
  have upper := info.upper
  have smallUpper : info.memoryUpper * 1024 < addressCount := by
    unfold addressCount
    omega
  have small : info.memoryLower * 1024 < addressCount :=
    Nat.lt_of_le_of_lt (Nat.mul_le_mul_right 1024 lower) (by decide)
  refine ⟨?_, ?_, ?_⟩
  · unfold sized
    simp only [Nat.mod_eq_of_lt small]
    omega
  · unfold sized
    simp only [Nat.mod_eq_of_lt smallUpper]
    omega
  · intro entry member
    exact List.eq_of_mem_replicate member

theorem allocPage_cases {phys : Phys} (valid : phys.Valid) :
    (∃ index < phys.totalUsablePages, phys.allocations index = 0 ∧
        (∀ earlier < index, phys.allocations earlier ≠ 0) ∧
        phys.allocPage.1 = phys.indexToAddr index ∧
        phys.allocPage.2.allocations = Function.update phys.allocations index 1) ∨
      (∀ index < phys.totalUsablePages, phys.allocations index ≠ 0) ∧ phys.allocPage.1 = 0 ∧
        phys.allocPage.2.allocations = phys.allocations := by
  unfold allocPage
  simp only [firstFreed_of_valid valid]
  cases found : (List.range phys.totalUsablePages).find? fun index =>
      phys.allocations index = 0 with
  | some index =>
      rw [List.find?_range_eq_some] at found
      rcases found with ⟨zero, bound, earlier⟩
      refine .inl ⟨index, List.mem_range.mp bound, of_decide_eq_true zero, ?_, rfl, rfl⟩
      intro slot below isZero
      have notZero := earlier slot below
      simp [isZero] at notZero
  | none =>
      rw [List.find?_range_eq_none] at found
      refine .inr ⟨fun index bound isZero => ?_, rfl, rfl⟩
      have notZero := found index bound
      simp [isZero] at notZero

theorem allocPage_same {phys : Phys} (valid : phys.Valid) : SameFrames phys.allocPage.2 phys := by
  unfold allocPage
  simp only [firstFreed_of_valid valid]
  split <;> exact ⟨rfl, rfl, rfl⟩

theorem call_same {phys : Phys} (valid : phys.Valid) (call : Call) :
    SameFrames (phys.call call) phys := by
  cases call with
  | allocAddr addr => exact allocAddr_same phys _
  | allocPage => exact allocPage_same valid
  | free addr =>
      unfold Phys.call free
      simp only
      split <;> exact ⟨rfl, rfl, rfl⟩
  | increaseRefcount addr =>
      unfold Phys.call increaseRefcount
      simp only
      split
      · exact ⟨rfl, rfl, rfl⟩
      · split <;> exact ⟨rfl, rfl, rfl⟩
  | decreaseRefcount addr =>
      unfold Phys.call decreaseRefcount
      simp only
      split
      · exact ⟨rfl, rfl, rfl⟩
      · split <;> exact ⟨rfl, rfl, rfl⟩

theorem valid_call {phys : Phys} (valid : phys.Valid) (call : Call) : (phys.call call).Valid :=
  (call_same valid call).valid valid

theorem valid_calls {phys : Phys} (valid : phys.Valid) (calls : List Call) :
    (calls.foldl Phys.call phys).Valid := by
  induction calls generalizing phys with
  | nil => exact valid
  | cons call calls induction => exact induction (valid_call valid call)

/-- The state after `init_phys_memory` and some calls. -/
def after (info : Multiboot) (behind : Nat → Nat) (calls : List Call) : Phys :=
  calls.foldl Phys.call
    (initPhysMemory info.memoryLower info.memoryUpper info.lastModEnd behind)

theorem valid_after (info : Multiboot) (behind : Nat → Nat) (calls : List Call) :
    (after info behind calls).Valid :=
  valid_calls ((initPhysMemory_same _ _ _ _).valid (valid_sized info behind)) calls

/-! ## Exclusive and complete -/

/-- What `alloc_phys_page` returns, as an address. -/
def allocPhysPage (phys : Phys) : Nat := 4096 * phys.allocPage.1

/-- The address is new: its count goes from 0 to 1, and nothing else changes. -/
structure Fresh (phys : Phys) (addr : Nat) (next : Phys) : Prop where
  notZero : addr ≠ 0
  aligned : addr % 4096 = 0
  bound : addr < addressCount
  free : phys.getRefcount (addr / 4096) = 0
  taken : next.getRefcount (addr / 4096) = 1
  others : ∀ index, phys.getAlloc addr ≠ some index →
    next.allocations index = phys.allocations index

theorem indexToAddr_lt {phys : Phys} (valid : phys.Valid) (index : Nat) :
    phys.indexToAddr index < frameCount := by
  have lower := valid.lower
  unfold indexToAddr
  split
  case isTrue low =>
    unfold totalUsableLowerPages at low
    unfold frameCount
    omega
  case isFalse => exact Nat.mod_lt _ (by decide)

theorem getRefcount_of_index {phys : Phys} {frame index count : Nat}
    (isIndex : phys.addrToIndex frame = some index) (isCount : phys.allocations index = count) :
    phys.getRefcount frame = count := by
  unfold getRefcount
  simp only [isIndex, isCount]

theorem fresh_allocPage {phys : Phys} (valid : phys.Valid) (kept : phys.getRefcount 0 ≠ 0) :
    Fresh phys phys.allocPhysPage phys.allocPage.2 ∨ phys.allocPhysPage = 0 ∧
      ∀ index < phys.totalUsablePages, phys.allocations index ≠ 0 := by
  rcases allocPage_cases valid with ⟨index, bound, zero, -, isFrame, isTable⟩ | ⟨full, isZero, -⟩
  · have isIndex := addrToIndex_indexToAddr valid bound
    have isNext : phys.allocPage.2.addrToIndex (phys.indexToAddr index) = some index := by
      have same := allocPage_same valid
      unfold addrToIndex totalUsableLowerPages at isIndex ⊢
      rw [same.lower]
      exact isIndex
    have isPage : phys.allocPhysPage / 4096 = phys.indexToAddr index := by
      unfold allocPhysPage
      rw [isFrame]
      omega
    have notZero : phys.indexToAddr index ≠ 0 := by
      intro isZero
      rw [isZero] at isIndex
      exact kept (getRefcount_of_index isIndex zero)
    have small := indexToAddr_lt valid index
    refine .inl ⟨?_, ?_, ?_, ?_, ?_, ?_⟩
    · omega
    · unfold allocPhysPage
      omega
    · unfold frameCount at small
      unfold addressCount
      omega
    · rw [isPage]
      exact getRefcount_of_index isIndex zero
    · rw [isPage]
      refine getRefcount_of_index isNext ?_
      rw [isTable, Function.update_self]
    · intro other different
      rw [getAlloc_eq, isPage, isIndex] at different
      rw [isTable, Function.update_of_ne]
      rintro rfl
      exact different rfl
  · refine .inr ⟨?_, full⟩
    unfold allocPhysPage
    rw [isZero]

/-- After every sequence of calls that leaves frame 0 allocated, `alloc_phys_page`
returns a new frame, or 0 if there is none. -/
theorem allocPage_exclusive (info : Multiboot) (behind : Nat → Nat) (calls : List Call)
    (kept : (after info behind calls).getRefcount 0 ≠ 0) :
    Fresh (after info behind calls) (after info behind calls).allocPhysPage
        ((after info behind calls).call .allocPage) ∨
      (after info behind calls).allocPhysPage = 0 ∧
        ∀ index < (after info behind calls).totalUsablePages,
          (after info behind calls).allocations index ≠ 0 :=
  fresh_allocPage (valid_after info behind calls) kept

/-- 2 MiB of memory, with the kernel in the first half of the upper one. -/
def smallMultiboot : Multiboot := ⟨640, 1024, 0x180000, by decide, by decide⟩

theorem allocPage_exclusive_reserved :
    Fresh (after smallMultiboot (fun _ => 0) [.allocAddr 0]) 0x1000
      ((after smallMultiboot (fun _ => 0) [.allocAddr 0]).call .allocPage) := by
  have kept : (after smallMultiboot (fun _ => 0) [.allocAddr 0]).getRefcount 0 ≠ 0 := by
    decide +kernel
  have isAddr : (after smallMultiboot (fun _ => 0) [.allocAddr 0]).allocPhysPage = 0x1000 := by
    decide +kernel
  rcases allocPage_exclusive smallMultiboot (fun _ => 0) [.allocAddr 0] kept with fresh | ⟨isZero, -⟩
  · rwa [isAddr] at fresh
  · rw [isAddr] at isZero
    cases isZero

/-! ## Reference counts -/

/-- A call that changes the count of a frame. -/
inductive Change where
  | increase
  | decrease
deriving DecidableEq

/-- The call for the frame. -/
def change (phys : Phys) (frame : Nat) : Change → Phys
  | .increase => phys.increaseRefcount frame
  | .decrease => phys.decreaseRefcount frame

def changes (phys : Phys) (frame : Nat) (list : List Change) : Phys :=
  list.foldl (fun phys change => phys.change frame change) phys

def net (list : List Change) : Int :=
  (list.map fun | .increase => (1 : Int) | .decrease => -1).sum

theorem net_concat (list : List Change) (change : Change) :
    net (list ++ [change]) = net list + net [change] := by
  unfold net
  rw [List.map_append, List.sum_append]

theorem change_allocations {phys : Phys} {frame index : Nat}
    (isIndex : phys.addrToIndex frame = some index) (change : Change) :
    (phys.change frame change).addrToIndex frame = some index ∧
      (phys.change frame change).allocations index =
        match change with
        | .increase =>
            if phys.allocations index = 0 then 0 else (phys.allocations index + 1) % 256
        | .decrease => phys.allocations index - 1 := by
  cases change with
  | increase =>
      unfold Phys.change increaseRefcount
      simp only [isIndex]
      by_cases isZero : phys.allocations index = 0
      · rw [if_neg (by omega)]
        simp only [isZero, if_true]
        exact ⟨isIndex, trivial⟩
      · rw [if_pos (by omega)]
        simp only [isZero, if_false]
        exact ⟨isIndex, Function.update_self _ _ _⟩
  | decrease =>
      unfold Phys.change decreaseRefcount
      simp only [isIndex]
      by_cases isZero : phys.allocations index = 0
      · rw [if_neg (by omega)]
        exact ⟨isIndex, by omega⟩
      · rw [if_pos (by omega)]
        exact ⟨isIndex, Function.update_self _ _ _⟩

def Fits (list : List Change) : Prop := ∀ start, start <+: list → net start ≤ 254

theorem changes_allocations {phys : Phys} {frame index : Nat}
    (isIndex : phys.addrToIndex frame = some index) (one : phys.allocations index = 1)
    {list : List Change} (counted : ∀ start, start <+: list → 0 ≤ net start) :
    (phys.changes frame list).addrToIndex frame = some index ∧
      (Fits list → ((phys.changes frame list).allocations index : Int) = 1 + net list) ∧
      (¬Fits list → (phys.changes frame list).allocations index = 0) := by
  induction list using List.reverseRecOn with
  | nil =>
      refine ⟨isIndex, fun _ => ?_, fun fails => absurd ?_ fails⟩
      · unfold changes net
        simp [one]
      · intro start isStart
        rw [List.prefix_nil.mp isStart]
        decide
  | append_singleton list change induction =>
      have before := induction fun start isStart =>
        counted start (isStart.trans (List.prefix_append _ _))
      rcases before with ⟨stillIndex, fits, fails⟩
      have isChange : phys.changes frame (list ++ [change]) =
          (phys.changes frame list).change frame change := by
        unfold changes
        rw [List.foldl_append]
        rfl
      have next := change_allocations stillIndex change
      rw [← isChange] at next
      have fits_concat : Fits (list ++ [change]) ↔
          Fits list ∧ net (list ++ [change]) ≤ 254 := by
        unfold Fits
        simp only [List.prefix_concat_iff, forall_eq_or_imp]
        exact And.comm
      have whole := counted _ (List.prefix_refl _)
      have shorter := counted _ (List.prefix_append list [change])
      refine ⟨next.1, ?_, ?_⟩
      · rw [fits_concat, net_concat]
        rintro ⟨fitsBefore, small⟩
        have count := fits fitsBefore
        rw [net_concat] at whole
        rw [next.2]
        cases change with
        | increase =>
            have isOne : net [Change.increase] = 1 := rfl
            simp only
            rw [if_neg (by omega), Nat.mod_eq_of_lt (by omega)]
            omega
        | decrease =>
            have isOne : net [Change.decrease] = -1 := rfl
            simp only
            omega
      · rw [fits_concat, net_concat, next.2]
        intro wrong
        by_cases fitsBefore : Fits list
        · have count := fits fitsBefore
          have fitsLast : net list ≤ 254 := fitsBefore _ (List.prefix_refl _)
          have large : ¬net list + net [change] ≤ 254 := fun small => wrong ⟨fitsBefore, small⟩
          cases change with
          | increase =>
              have isOne : net [Change.increase] = 1 := rfl
              have isFull : (phys.changes frame list).allocations index = 255 := by omega
              simp [isFull]
          | decrease =>
              have isOne : net [Change.decrease] = -1 := rfl
              omega
        · have count := fails fitsBefore
          cases change with
          | increase => simp [count]
          | decrease => simp [count]

theorem exists_index_of_getRefcount {phys : Phys} {frame : Nat}
    (isCount : phys.getRefcount frame = 1) :
    ∃ index, phys.addrToIndex frame = some index ∧ phys.allocations index = 1 := by
  unfold getRefcount at isCount
  cases isIndex : phys.addrToIndex frame with
  | none =>
      simp only [isIndex] at isCount
      omega
  | some index =>
      simp only [isIndex] at isCount
      exact ⟨index, rfl, by omega⟩

/-- The count of a frame is exact as long as it has not been more than 255. -/
theorem getRefcount_exact_iff {phys : Phys} {frame : Nat} (allocated : phys.getRefcount frame = 1)
    {list : List Change} (counted : ∀ start, start <+: list → 0 ≤ net start) :
    (phys.changes frame list).getRefcount frame = 1 + net list ↔ Fits list := by
  rcases exists_index_of_getRefcount allocated with ⟨index, isIndex, one⟩
  rcases changes_allocations isIndex one counted with ⟨stillIndex, fits, fails⟩
  have isCount : (phys.changes frame list).getRefcount frame =
      (phys.changes frame list).allocations index := getRefcount_of_index stillIndex rfl
  rw [isCount]
  constructor
  · intro exact
    by_contra wrong
    have isZero := fails wrong
    have positive := counted list (List.prefix_refl _)
    omega
  · exact fits

def reservedZero : Phys := after smallMultiboot (fun _ => 0) [.allocAddr 0]

/-- A frame is shared by two clones, and one of them ends. -/
def sharedTwice : List Change := [.increase, .increase, .decrease]

theorem net_sharedTwice {start : List Change} (isStart : start <+: sharedTwice) :
    0 ≤ net start ∧ net start ≤ 254 := by
  have every : ∀ start ∈ sharedTwice.inits, 0 ≤ net start ∧ net start ≤ 254 := by decide
  exact every start ((List.mem_inits _ _).mpr isStart)

theorem getRefcount_exact_sharedTwice :
    (reservedZero.changes 0 sharedTwice).getRefcount 0 = 1 + net sharedTwice := by
  have allocated : reservedZero.getRefcount 0 = 1 := by decide +kernel
  exact (getRefcount_exact_iff allocated fun _ isStart => (net_sharedTwice isStart).1).mpr
    fun _ isStart => (net_sharedTwice isStart).2

theorem net_replicate_increase (count : Nat) :
    net (List.replicate count .increase) = count := by
  induction count with
  | zero => rfl
  | succ count induction =>
      rw [List.replicate_succ', net_concat, induction]
      rfl

/-- The count of a frame that is shared 255 times more reads as free. -/
theorem getRefcount_not_exact : reservedZero.getRefcount 0 = 1 ∧
    (∀ start, start <+: List.replicate 255 Change.increase → 0 ≤ net start) ∧
    (reservedZero.changes 0 (List.replicate 255 .increase)).getRefcount 0 ≠
      1 + net (List.replicate 255 .increase) := by
  refine ⟨by decide +kernel, fun start isStart => ?_, by decide +kernel⟩
  rw [(List.prefix_replicate_iff.mp isStart).2, net_replicate_increase]
  omega

/-! ## Recycling -/

/-- The allocator with the frames that have been freed and not handed out since. -/
structure Recycler where
  phys : Phys
  freed : Finset Nat

/-- A call, and what it does to the freed frames. -/
def Recycler.step (state : Recycler) (call : Call) : Option Recycler :=
  let freed :=
    match call with
    | .free addr =>
        if (state.phys.getAlloc addr).isSome then insert (addr / 4096) state.freed
        else state.freed
    | .allocPage => state.freed.erase state.phys.allocPage.1
    | .allocAddr addr =>
        if state.phys.getRefcount (addr / 4096) = 0 then state.freed.erase (addr / 4096)
        else state.freed
    | .increaseRefcount _ => state.freed
    | .decreaseRefcount _ => state.freed
  some { phys := state.phys.call call, freed }

def Recycler.start (info : Multiboot) (behind : Nat → Nat) : Recycler where
  phys := after info behind []
  freed := ∅

/-- If there is a freed frame, `alloc_phys_page` returns one. -/
def Recycler.Recycles (state : Recycler) (call : Call) : Prop :=
  call = .allocPage → state.freed.Nonempty →
    (∃ index < state.phys.totalUsablePages, state.phys.allocations index = 0) ∧
      state.phys.allocPage.1 ∈ state.freed

/-- If there is a freed frame, the first free slot of the table belongs to one. -/
def Recycler.LowestFreed (state : Recycler) (call : Call) : Prop :=
  call = .allocPage → state.freed.Nonempty →
    ∃ index < state.phys.totalUsablePages, state.phys.allocations index = 0 ∧
      (∀ earlier < index, state.phys.allocations earlier ≠ 0) ∧
      state.phys.indexToAddr index ∈ state.freed

theorem Recycler.recycles_iff {state : Recycler} (valid : state.phys.Valid) (call : Call) :
    state.Recycles call ↔ state.LowestFreed call := by
  unfold Recycles LowestFreed
  refine imp_congr_right fun _ => imp_congr_right fun _ => ?_
  rcases allocPage_cases valid with ⟨index, bound, zero, earlier, isFrame, -⟩ | ⟨full, -, -⟩
  · rw [isFrame]
    constructor
    · rintro ⟨-, isFreed⟩
      exact ⟨index, bound, zero, earlier, isFreed⟩
    · rintro ⟨other, -, otherZero, otherEarlier, isFreed⟩
      have same : other = index := by
        rcases Nat.lt_trichotomy other index with less | same | greater
        · exact absurd otherZero (earlier other less)
        · exact same
        · exact absurd zero (otherEarlier index greater)
      exact ⟨⟨index, bound, zero⟩, same ▸ isFreed⟩
  · constructor
    · rintro ⟨⟨index, bound, zero⟩, -⟩
      exact absurd zero (full index bound)
    · rintro ⟨index, bound, zero, -⟩
      exact absurd zero (full index bound)

/-- A run hands out freed frames first exactly if at every allocation the first free slot
happens to be one of theirs. -/
theorem recycled_iff (info : Multiboot) (behind : Nat → Nat) (calls : List Call) :
    Admissible Recycler.step Recycler.Recycles (Recycler.start info behind) calls ↔
      Admissible Recycler.step Recycler.LowestFreed (Recycler.start info behind) calls := by
  have total : (run Recycler.step (Recycler.start info behind) calls).isSome = true :=
    run_isSome (fun _ _ => rfl) _ _
  rcases Option.isSome_iff_exists.mp total with ⟨final, reached⟩
  have preserved : ∀ (state : Recycler) call next, state.phys.Valid →
      state.step call = some next → next.phys.Valid := by
    intro state call next valid stepped
    cases stepped
    exact valid_call valid call
  exact admissible_congr preserved
    (fun state call next valid _ => state.recycles_iff valid call)
    (valid_after info behind []) reached

/-- A frame is reserved and freed, and another one is handed out. -/
def freeAndAllocate : List Call := [.allocAddr 0, .allocAddr 0x50000, .free 0x50000, .allocPage]

theorem recycled_fails :
    (run Recycler.step (Recycler.start smallMultiboot fun _ => 0) freeAndAllocate).isSome = true ∧
      ¬Admissible Recycler.step Recycler.Recycles (Recycler.start smallMultiboot fun _ => 0)
        freeAndAllocate := by
  have evaluated : ((run Recycler.step (Recycler.start smallMultiboot fun _ => 0)
      [.allocAddr 0, .allocAddr 0x50000, .free 0x50000]).map fun state =>
        (state.freed, state.phys.allocPage.1)) = some ({0x50}, 1) := by
    decide +kernel
  rcases Option.map_eq_some_iff.mp evaluated with ⟨state, reached, values⟩
  rw [Prod.mk.injEq] at values
  refine ⟨run_isSome (fun state call => rfl) _ _, fun admissible => ?_⟩
  have isSplit : freeAndAllocate =
      [.allocAddr 0, .allocAddr 0x50000, .free 0x50000] ++ [.allocPage] := rfl
  rw [isSplit] at admissible
  have recycles := (admissible.append reached).2.1 rfl
  rw [values.1, values.2] at recycles
  exact absurd (recycles (Finset.singleton_nonempty _)).2 (by decide)

/-! ## What is reserved at boot -/

/-- The loop of `initialise_memory` that allocates everything below the table. -/
def initialiseMemory (info : Multiboot) (behind : Nat → Nat) : Phys :=
  loop (allocationsAddress info.lastModEnd / 4096) (fun phys frame => phys.allocAddr frame)
    (initPhysMemory info.memoryLower info.memoryUpper info.lastModEnd behind)

def reservedEnd (info : Multiboot) : Nat :=
  allocationsAddress info.lastModEnd + info.memoryUpper * 1024 / 4096 + info.memoryLower * 1024 / 4096

def Taken (phys : Phys) (first count : Nat) : Prop :=
  ∀ page < count, ∀ index, phys.addrToIndex (first + page) = some index →
    phys.allocations index ≠ 0

theorem allocAddr_addrToIndex (phys : Phys) (frame other : Nat) :
    (phys.allocAddr frame).addrToIndex other = phys.addrToIndex other := by
  unfold addrToIndex totalUsableLowerPages
  rw [(allocAddr_same phys frame).lower]

theorem allocAddr_notZero {phys : Phys} {frame index : Nat}
    (taken : phys.allocations index ≠ 0 ∨ phys.addrToIndex frame = some index) :
    (phys.allocAddr frame).allocations index ≠ 0 := by
  unfold allocAddr
  cases isIndex : phys.addrToIndex frame with
  | none =>
      rw [isIndex] at taken
      exact taken.resolve_right fun none => by cases none
  | some slot =>
      rw [isIndex, Option.some.injEq] at taken
      simp only
      by_cases same : index = slot
      · subst same
        split
        · unfold setCount
          simp
        · assumption
      · have notZero := taken.resolve_right fun isSlot => same isSlot.symm
        split
        · unfold setCount
          simp only [Function.update_of_ne same]
          exact notZero
        · exact notZero

theorem taken_loop (phys : Phys) (first count : Nat) :
    Taken (loop count (fun phys page => phys.allocAddr (first + page)) phys) first count ∧
      (∀ index, phys.allocations index ≠ 0 →
        (loop count (fun phys page => phys.allocAddr (first + page)) phys).allocations index ≠ 0) ∧
      SameFrames (loop count (fun phys page => phys.allocAddr (first + page)) phys) phys := by
  refine loop_invariant (motive := fun count next => Taken next first count ∧
    (∀ index, phys.allocations index ≠ 0 → next.allocations index ≠ 0) ∧ SameFrames next phys) ?_ ?_
  · exact ⟨fun page less => absurd less (Nat.not_lt_zero _), fun _ taken => taken, rfl, rfl, rfl⟩
  · rintro count - next ⟨taken, kept, same⟩
    refine ⟨fun page less index isIndex => ?_, fun index notZero => ?_,
      (allocAddr_same next _).trans same⟩
    · rw [allocAddr_addrToIndex] at isIndex
      by_cases isLast : page = count
      · exact allocAddr_notZero (.inr (isLast ▸ isIndex))
      · exact allocAddr_notZero (.inl (taken page (by omega) index isIndex))
    · exact allocAddr_notZero (.inl (kept index notZero))

theorem SameFrames.addrToIndex_eq {phys other : Phys} (same : SameFrames phys other) (frame : Nat) :
    phys.addrToIndex frame = other.addrToIndex frame := by
  unfold addrToIndex totalUsableLowerPages
  rw [same.lower]

theorem taken_initialiseMemory (info : Multiboot) (behind : Nat → Nat)
    (below : reservedEnd info < 0x100000 + info.memoryUpper * 1024) :
    SameFrames (initialiseMemory info behind)
        (sized info.memoryLower info.memoryUpper behind) ∧
      ∀ frame, 4096 * frame < reservedEnd info → ∀ index,
        (initialiseMemory info behind).addrToIndex frame = some index →
          (initialiseMemory info behind).allocations index ≠ 0 := by
  have lower := info.lower
  have upper := info.upper
  have smallUpper : info.memoryUpper * 1024 < addressCount := by
    unfold addressCount
    omega
  have small : info.memoryLower * 1024 < addressCount :=
    Nat.lt_of_le_of_lt (Nat.mul_le_mul_right 1024 lower) (by decide)
  have size : (sized info.memoryLower info.memoryUpper behind).totalUsablePages =
      info.memoryUpper * 1024 / 4096 + info.memoryLower * 1024 / 4096 := by
    unfold sized totalUsablePages totalUsableLowerPages
    simp only [Nat.mod_eq_of_lt small, Nat.mod_eq_of_lt smallUpper]
  have isEnd : reservedEnd info = allocationsAddress info.lastModEnd +
      (sized info.memoryLower info.memoryUpper behind).totalUsablePages := by
    rw [size]
    unfold reservedEnd
    omega
  have aligned : allocationsAddress info.lastModEnd % 4096 = 0 := by
    unfold allocationsAddress addressCount
    rw [alignPage_eq]
    omega
  have noWrap : reservedEnd info < addressCount := by
    unfold addressCount
    omega
  rcases taken_loop (sized info.memoryLower info.memoryUpper behind)
    (allocationsAddress info.lastModEnd / 4096)
    ((reservedEnd info - allocationsAddress info.lastModEnd + 4095) / 4096) with
    ⟨tableTaken, -, tableSame⟩
  have isInit : initPhysMemory info.memoryLower info.memoryUpper info.lastModEnd behind =
      loop ((reservedEnd info - allocationsAddress info.lastModEnd + 4095) / 4096)
        (fun phys page => phys.allocAddr (allocationsAddress info.lastModEnd / 4096 + page))
        (sized info.memoryLower info.memoryUpper behind) := by
    unfold initPhysMemory
    simp only [← isEnd, Nat.mod_eq_of_lt noWrap]
  rw [← isInit] at tableTaken tableSame
  rcases taken_loop (initPhysMemory info.memoryLower info.memoryUpper info.lastModEnd behind) 0
    (allocationsAddress info.lastModEnd / 4096) with ⟨lowTaken, kept, lowSame⟩
  simp only [Nat.zero_add] at lowTaken kept lowSame
  have isMemory : loop (allocationsAddress info.lastModEnd / 4096)
      (fun phys frame => phys.allocAddr frame)
      (initPhysMemory info.memoryLower info.memoryUpper info.lastModEnd behind) =
        initialiseMemory info behind := rfl
  rw [isMemory] at lowTaken kept lowSame
  refine ⟨lowSame.trans tableSame, fun frame inside index isIndex => ?_⟩
  by_cases low : frame < allocationsAddress info.lastModEnd / 4096
  · refine lowTaken frame low index ?_
    rw [Nat.zero_add]
    exact isIndex
  · refine kept index (tableTaken (frame - allocationsAddress info.lastModEnd / 4096) ?_ index ?_)
    · omega
    · rw [Nat.add_sub_cancel' (by omega), ← lowSame.addrToIndex_eq]
      exact isIndex

/-- No frame below `limit` becomes free by the call. -/
def KeepsBelow (limit : Nat) (phys : Phys) (call : Call) : Prop :=
  ∀ frame, 4096 * frame < limit → phys.getRefcount frame ≠ 0 →
    (phys.call call).getRefcount frame ≠ 0

/-- A frame that `alloc_phys_page` hands out after boot does not overlap the memory up to
the end of the table. -/
theorem allocPage_aboveReserved (info : Multiboot) (behind : Nat → Nat)
    (below : reservedEnd info < 0x100000 + info.memoryUpper * 1024) {calls : List Call}
    {final : Phys}
    (admissible : Admissible (fun phys call => some (phys.call call))
      (KeepsBelow (reservedEnd info)) (initialiseMemory info behind) calls)
    (reached : run (fun phys call => some (phys.call call)) (initialiseMemory info behind) calls =
      some final) :
    reservedEnd info ≤ final.allocPhysPage ∨ final.allocPhysPage = 0 ∧
      ∀ index < final.totalUsablePages, final.allocations index ≠ 0 := by
  rcases taken_initialiseMemory info behind below with ⟨same, taken⟩
  have initial : (initialiseMemory info behind).Valid ∧
      ∀ frame, 4096 * frame < reservedEnd info →
        (initialiseMemory info behind).getRefcount frame ≠ 0 := by
    refine ⟨same.valid (valid_sized info behind), fun frame inside => ?_⟩
    cases isIndex : (initialiseMemory info behind).addrToIndex frame with
    | none =>
        unfold getRefcount
        simp [isIndex]
    | some index =>
        rw [getRefcount_of_index isIndex rfl]
        exact Int.natCast_ne_zero.mpr (taken frame inside index isIndex)
  have preserved : ∀ (phys : Phys) (call : Call) (next : Phys), (phys.Valid ∧
      ∀ frame, 4096 * frame < reservedEnd info → phys.getRefcount frame ≠ 0) →
      KeepsBelow (reservedEnd info) phys call → some (phys.call call) = some next →
      next.Valid ∧ ∀ frame, 4096 * frame < reservedEnd info → next.getRefcount frame ≠ 0 := by
    rintro phys call next ⟨valid, counted⟩ keeps isNext
    cases isNext
    exact ⟨valid_call valid call, fun frame inside => keeps frame inside (counted frame inside)⟩
  rcases run_preserves preserved initial admissible reached with ⟨valid, counted⟩
  rcases allocPage_cases valid with ⟨index, bound, zero, -, isFrame, -⟩ | ⟨full, isZero, -⟩
  · refine .inl ?_
    by_contra overlaps
    unfold allocPhysPage at overlaps
    rw [isFrame] at overlaps
    refine counted (final.indexToAddr index) (by omega) ?_
    exact getRefcount_of_index (addrToIndex_indexToAddr valid bound) zero
  · refine .inr ⟨?_, full⟩
    unfold allocPhysPage
    rw [isZero]

theorem keepsBelow_allocPage {phys : Phys} (valid : phys.Valid) (limit : Nat) :
    KeepsBelow limit phys .allocPage := by
  intro frame _ counted
  have sameIndex := (allocPage_same valid).addrToIndex_eq frame
  have isNext : phys.call .allocPage = phys.allocPage.2 := rfl
  rw [isNext]
  unfold getRefcount at counted ⊢
  rw [sameIndex]
  cases isIndex : phys.addrToIndex frame with
  | none => simp
  | some slot =>
      simp only [isIndex] at counted ⊢
      rcases allocPage_cases valid with ⟨index, -, -, -, -, isTable⟩ | ⟨-, -, isTable⟩
      · rw [isTable]
        by_cases same : slot = index
        · rw [same, Function.update_self]
          decide
        · rwa [Function.update_of_ne same]
      · rwa [isTable]

theorem allocPage_aboveReserved_second : ∃ final,
    run (fun phys call => some (phys.call call)) (initialiseMemory smallMultiboot fun _ => 0)
      [.allocPage] = some final ∧ reservedEnd smallMultiboot ≤ final.allocPhysPage := by
  have isBelow : reservedEnd smallMultiboot < 0x100000 + smallMultiboot.memoryUpper * 1024 := by
    decide
  have valid := (taken_initialiseMemory smallMultiboot (fun _ => 0) isBelow).1.valid
    (valid_sized smallMultiboot fun _ => 0)
  have admissible : Admissible (fun phys call => some (phys.call call))
      (KeepsBelow (reservedEnd smallMultiboot)) (initialiseMemory smallMultiboot fun _ => 0)
      [.allocPage] := ⟨keepsBelow_allocPage valid _, fun _ _ => trivial⟩
  have found : ((initialiseMemory smallMultiboot fun _ => 0).call .allocPage).allocPhysPage ≠ 0 := by
    decide +kernel
  refine ⟨_, rfl, ?_⟩
  have disjunction := allocPage_aboveReserved smallMultiboot (fun _ => 0) isBelow admissible rfl
  exact disjunction.resolve_right fun isZero => found isZero.1

end Dbos.Paging.Phys
