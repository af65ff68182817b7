import Dbos.Kernel.Memory.PagedHeapSafety

/-! # Copies of boot data

`copy_phys_to_virt` and `copy_phys_to_virt_string` of `memory_manager.c`. The window shows one
page. What lies beyond it is taken from the pages behind the window, and what `kern_malloc`
leaves in the window when it makes the heap larger is taken for the page. -/

namespace Dbos.PagedHeap

open Paging (Phys Memory)
open Paging.KernelAccess
open Paging.KernelPages (Layout Use UsedAs heapPage tablesPage)
open Paging.Window (windowPage walk)
open Heap (Block headerSize kernelHeapInitAddr)
open ByteMemory (space)

/-- The offset that both functions add to the address of the window, which is an `uint16_t`. -/
def pageOffset (src : Nat) : Nat :=
  if src ≠ Phys.alignPage src then (src - Phys.alignPage src) % 2 ^ 16 else 0

def tempMapped (src : Nat) : Nat := (0xC0000000 + pageOffset src) % space

def copyPhysToVirt (cr3 : Nat) (state : State) (src len : Nat) : Option (Nat × State) := do
  let (temp, state) ← kernMalloc cr3 state len
  let memory ← Paging.Window.tempMapPage cr3 state.memory src
  let memory ← memcpy8 cr3 temp (tempMapped src) len memory
  return (temp, { state with memory })

/-- `copy_phys_to_virt_string`. What is returned for a length of 0 is not set before. -/
def copyPhysToVirtString (cr3 : Nat) (state : State) (unset src : Nat) : Option (Nat × State) := do
  let memory ← Paging.Window.tempMapPage cr3 state.memory src
  let length ← strlen memory cr3 (tempMapped src)
  let len := (length + 1) % space
  if len ≠ 0 then
    let (temp, state) ← kernMalloc cr3 { state with memory } len
    let memory ← memcpy8 cr3 temp (tempMapped src) len state.memory
    return (temp, { state with memory })
  else return (unset, { state with memory })

/-! ## The data and their copies -/

/-- The bytes from a physical address on. -/
def dataAt (memory : Memory) (src : Nat) : Nat → UInt8 := fun i => physByte memory (src + i)

/-- The bytes at the virtual address are the ones that were at the physical address before. -/
def Copied (cr3 : Nat) (before after : Memory) (src len temp : Nat) : Prop :=
  ∀ i < len, load after cr3 (temp + i) = some (dataAt before src i)

/-- A string of this length at a physical address. -/
structure StringAt (memory : Memory) (src length : Nat) : Prop where
  chars : ∀ i < length, dataAt memory src i ≠ 0
  ends : dataAt memory src length = 0

/-- The pages between the window and the heap show frames that nobody is to touch. -/
def Behind (kept : Set Nat) (memory : Memory) (cr3 : Nat) : Prop :=
  ∀ page, windowPage < page → page < heapPage → ∀ frame, walk memory cr3 page = some frame →
    frame ∈ kept

/-! ## What the window shows -/

theorem pageOffset_eq (src : Nat) : pageOffset src = src % 4096 := by
  unfold pageOffset
  rw [Phys.alignPage_eq]
  split <;> omega

theorem tempMapped_eq (src : Nat) : tempMapped src = 0xC0000000 + src % 4096 := by
  unfold tempMapped space
  rw [pageOffset_eq]
  omega

section Window

variable {kept : Set Nat} {cr3 kernelTable src frame index address : Nat} {memory next : Memory}

theorem Behind.keeps (behind : Behind kept memory cr3) (keeps : Keeps kept cr3 memory next) :
    Behind kept next cr3 := by
  intro page above below frame found
  rw [keeps.walk page above below] at found
  exact behind page above below frame found

theorem load_behind (behind : Behind kept memory cr3) (keeps : Keeps kept cr3 memory next)
    (above : 0xC0001000 ≤ address) (below : address < kernelHeapInitAddr) :
    load next cr3 address = load memory cr3 address := by
  unfold kernelHeapInitAddr at below
  have small : address % space = address := Nat.mod_eq_of_lt (by unfold space; omega)
  have pageAbove : windowPage < address / 4096 := by
    unfold windowPage
    omega
  have pageBelow : address / 4096 < heapPage := by
    unfold heapPage
    omega
  unfold load
  rw [small, keeps.walk _ pageAbove pageBelow]
  cases found : walk memory cr3 (address / 4096) with
  | none => rfl
  | some frame =>
      rw [Option.map_some, Option.map_some,
        byteAt_congr (keeps.frames frame (behind _ pageAbove pageBelow frame found))]

theorem load_window (isShown : walk memory cr3 windowPage = some frame)
    (inPage : src % 4096 + index < 4096) :
    load memory cr3 (tempMapped src + index) = some (byteAt memory frame (src % 4096 + index)) := by
  have isPage : (tempMapped src + index) % space / 4096 = windowPage := by
    rw [tempMapped_eq]
    unfold windowPage space
    omega
  have isPlace : (tempMapped src + index) % 4096 = src % 4096 + index := by
    rw [tempMapped_eq]
    omega
  unfold load
  rw [isPage, isPlace, isShown, Option.map_some]

theorem byteAt_source (same : next (src / 4096) = memory (src / 4096))
    (inPage : src % 4096 + index < 4096) :
    byteAt next (src / 4096) (src % 4096 + index) = dataAt memory src index := by
  rw [byteAt_congr same]
  unfold dataAt physByte
  rw [show (src + index) / 4096 = src / 4096 by omega,
    show (src + index) % 4096 = src % 4096 + index by omega]

/-- Where the window shows the page of the data, the data appear as far as the page goes. -/
theorem appears_window {temp : Nat} (high : kernelHeapInitAddr ≤ temp)
    (isShown : walk next cr3 windowPage = some (src / 4096))
    (same : next (src / 4096) = memory (src / 4096)) (inPage : src % 4096 + index < 4096) :
    Appears next cr3 temp (tempMapped src) (dataAt memory src) index := by
  unfold Appears kernelHeapInitAddr at *
  have before : ¬temp ≤ tempMapped src + index := by
    rw [tempMapped_eq]
    omega
  rw [if_neg before, load_window isShown inPage, byteAt_source same inPage]

theorem beyond_of_reaches (reaches : kernelHeapInitAddr ≤ tempMapped src + index) :
    4096 ≤ src % 4096 + index := by
  rw [tempMapped_eq] at reaches
  unfold kernelHeapInitAddr at reaches
  omega

/-- Between the page of the window and the heap, the data appear as they did before. -/
theorem appears_behind {temp : Nat} (behind : Behind kept memory cr3)
    (keeps : Keeps kept cr3 memory next) (high : kernelHeapInitAddr ≤ temp)
    (beyond : 4096 ≤ src % 4096 + index) (below : tempMapped src + index < kernelHeapInitAddr)
    (bytes : Nat → UInt8) :
    Appears next cr3 temp (tempMapped src) bytes index ↔
      load memory cr3 (tempMapped src + index) = some (bytes index) := by
  have isAddress := tempMapped_eq src
  unfold Appears
  rw [if_neg (by omega), load_behind behind keeps (by omega) below]

end Window

/-! ## The copy -/

section Copy

variable {kept : Set Nat} {cr3 kernelTable : Nat} {state : State} {flat : ByteMemory.Memory}
  {src temp len frame : Nat} {use : Use}

theorem usedAs_kept (isKept : frame ∈ kept) {memory : Memory} {last : Nat} :
    UsedAs kept memory cr3 last frame (.kept frame) :=
  ⟨isKept, rfl⟩

theorem Carries.foreign (carries : Carries kept cr3 kernelTable state flat)
    (isUse : UsedAs kept state.memory cr3 (state.heap.heapEnd / 4096) frame use)
    (notPage : ∀ page, use ≠ .page page) :
    ¬Backs state.memory cr3 state.heap.start state.heap.heapEnd frame := by
  intro backs
  rw [← carries.ends.1, ← carries.ends.2] at backs
  rcases Paging.KernelPages.exists_page_of_backs kept backs with ⟨page, isPage⟩
  exact notPage page (carries.layout.alone frame use _ isUse isPage)

/-- A copy through the window has these bytes in the beginning exactly if everything up to the
heap is mapped and they appear there. -/
theorem Carries.copy_iff (carries : Carries kept cr3 kernelTable state flat)
    (behind : Behind kept state.memory cr3) (isShown : walk state.memory cr3 windowPage = some frame)
    (isUse : UsedAs kept state.memory cr3 (state.heap.heapEnd / 4096) frame use)
    (notPage : ∀ page, use ≠ .page page) (low : state.heap.start ≤ temp)
    (high : temp + len ≤ state.heap.heapEnd) {count : Nat} (enough : count ≤ len)
    (bytes : Nat → UInt8) :
    (∃ memory, memcpy8 cr3 temp (tempMapped src) len state.memory = some memory ∧
        ∀ i < count, load memory cr3 (temp + i) = some (bytes i)) ↔
      (∀ i < len, tempMapped src + i < state.heap.start →
        (load state.memory cr3 (tempMapped src + i)).isSome = true) ∧
      ∀ i < count, Appears state.memory cr3 temp (tempMapped src) bytes i := by
  have start := carries.start
  unfold kernelHeapInitAddr at start
  have isMapped := tempMapped_eq src
  refine carries.view.memcpy8_iff carries.backed low high (by omega) (by omega)
    (fun i less before other found => ?_) enough bytes
  by_cases inPage : src % 4096 + i < 4096
  · rw [show (tempMapped src + i) / 4096 = windowPage by unfold windowPage; omega, isShown,
      Option.some_inj] at found
    exact found ▸ carries.foreign isUse notPage
  · have isKept : other ∈ kept :=
      behind _ (by unfold windowPage; omega) (by unfold heapPage; omega) other found
    exact carries.foreign (usedAs_kept isKept) (by simp)

end Copy

section Calls

variable {kept : Set Nat} {cr3 kernelTable : Nat} {memory mapped : Memory} {machine : Machine}
  {flat : ByteMemory.Memory} {blocks : List Block} {src len temp : Nat} {next : State}

/-- What holds after `kern_malloc` has served a request. -/
structure Granted (kept : Set Nat) (cr3 kernelTable : Nat) (state : State) (len temp : Nat)
    (next : State) (flat : ByteMemory.Memory) : Prop where
  carries : Carries kept cr3 kernelTable next flat
  keeps : Keeps kept cr3 state.memory next.memory
  window : WindowAfter kept cr3 state next
  low : next.heap.start ≤ temp
  high : temp + len ≤ next.heap.heapEnd

theorem Invariant.granted (invariant : Invariant kept cr3 kernelTable memory machine flat blocks)
    (serves : Serves cr3 machine.state len temp next) :
    ∃ flat, Granted kept cr3 kernelTable machine.state len temp next flat := by
  have here : Invariant kept cr3 kernelTable machine.state.memory machine flat blocks :=
    ⟨invariant.carries, invariant.heap, invariant.holds, invariant.apart, .refl _⟩
  rcases here.step_malloc serves with ⟨-, window, nextFlat, _, after⟩
  have within := after.within List.mem_cons_self
  exact ⟨nextFlat, after.carries, after.keeps, window, within.1, within.2⟩

/-- What holds after `temp_map_page` has been called with the address of the data. -/
structure Shown (kept : Set Nat) (cr3 kernelTable : Nat) (state : State) (src : Nat)
    (mapped : Memory) (flat : ByteMemory.Memory) : Prop where
  isMapped : Paging.Window.tempMapPage cr3 state.memory src = some mapped
  carries : Carries kept cr3 kernelTable { state with memory := mapped } flat
  keeps : Keeps kept cr3 state.memory mapped
  shows : walk mapped cr3 windowPage = some (src / 4096)

theorem Carries.shown (carries : Carries kept cr3 kernelTable next flat) (small : src < space) :
    ∃ mapped, Shown kept cr3 kernelTable next src mapped flat := by
  have ready := carries.layout.ready
  rcases carries.showing (src / 4096) with ⟨after, keeps⟩
  unfold space at small
  exact ⟨_, tempMapPage_eq_showing ready src, after, keeps,
    Paging.Window.walk_showing ready (by unfold Paging.frameCount; omega)⟩

/-- Moving the window does not change what appears beyond it. -/
theorem Shown.appears_iff (shown : Shown kept cr3 kernelTable next src mapped flat)
    (carries : Carries kept cr3 kernelTable next flat) (behind : Behind kept next.memory cr3)
    (high : temp ≤ next.heap.heapEnd) {i : Nat} (beyond : 4096 ≤ src % 4096 + i)
    (bytes : Nat → UInt8) :
    Appears mapped cr3 temp (tempMapped src) bytes i ↔
      Appears next.memory cr3 temp (tempMapped src) bytes i := by
  have start := carries.start
  have isAddress := tempMapped_eq src
  unfold Appears
  by_cases reaches : temp ≤ tempMapped src + i
  · rw [if_pos reaches, if_pos reaches]
  · rw [if_neg reaches, if_neg reaches]
    by_cases inHeap : kernelHeapInitAddr ≤ tempMapped src + i
    · have inside : next.heap.start ≤ tempMapped src + i := start ▸ inHeap
      rw [carries.shows _ inside (by omega), shown.carries.shows _ inside (by simp only; omega)]
    · rw [load_behind behind shown.keeps (by omega) (by omega)]

theorem copyPhysToVirt_eq (serves : Serves cr3 machine.state len temp next)
    (isMapped : Paging.Window.tempMapPage cr3 next.memory src = some mapped) :
    copyPhysToVirt cr3 machine.state src len =
      (memcpy8 cr3 temp (tempMapped src) len mapped).map fun memory =>
        (temp, { next with memory }) := by
  unfold copyPhysToVirt
  rw [serves.result]
  simp only [Option.bind_eq_bind, Option.bind_some, isMapped]
  exact Option.map_eq_bind.symm

theorem exists_copied_iff {copy : Option Memory} {start : Memory} :
    (∃ final, (copy.map fun memory => (temp, { next with memory })) = some (temp, final) ∧
        Copied cr3 start final.memory src len temp) ↔
      ∃ memory, copy = some memory ∧ ∀ i < len,
        load memory cr3 (temp + i) = some (dataAt start src i) := by
  constructor
  · rintro ⟨final, isFinal, copied⟩
    rcases Option.map_eq_some_iff.mp isFinal with ⟨after, isAfter, same⟩
    cases same
    exact ⟨after, isAfter, copied⟩
  · rintro ⟨after, isAfter, copied⟩
    exact ⟨{ next with memory := after }, by rw [isAfter]; rfl, copied⟩

/-- `copy_phys_to_virt` after `kern_malloc` has returned. -/
theorem Invariant.copied_iff
    (invariant : Invariant kept cr3 kernelTable memory machine flat blocks)
    (behind : Behind kept machine.state.memory cr3) (small : src < space)
    (isKept : src / 4096 ∈ kept) (serves : Serves cr3 machine.state len temp next) :
    (∃ final, copyPhysToVirt cr3 machine.state src len = some (temp, final) ∧
        Copied cr3 machine.state.memory final.memory src len temp) ↔
      ∀ i < len, 4096 ≤ src % 4096 + i →
        Appears next.memory cr3 temp (tempMapped src) (dataAt machine.state.memory src) i := by
  rcases invariant.granted serves with ⟨nextFlat, granted⟩
  rcases granted.carries.shown small with ⟨mapped, shown⟩
  have nextBehind := behind.keeps granted.keeps
  have low := granted.low
  have high := granted.high
  have same : mapped (src / 4096) = machine.state.memory (src / 4096) :=
    (shown.keeps.frames _ isKept).trans (granted.keeps.frames _ isKept)
  have beyond : ∀ i, 4096 ≤ src % 4096 + i →
      (Appears mapped cr3 temp (tempMapped src) (dataAt machine.state.memory src) i ↔
        Appears next.memory cr3 temp (tempMapped src) (dataAt machine.state.memory src) i) :=
    fun i isBeyond => shown.appears_iff granted.carries nextBehind (by omega) isBeyond _
  have inPage : ∀ i, src % 4096 + i < 4096 →
      Appears mapped cr3 temp (tempMapped src) (dataAt machine.state.memory src) i :=
    fun i isInPage => appears_window (granted.carries.start ▸ low) shown.shows same isInPage
  rw [copyPhysToVirt_eq serves shown.isMapped, exists_copied_iff]
  refine (shown.carries.copy_iff (nextBehind.keeps shown.keeps) shown.shows (usedAs_kept isKept)
    (by simp) low high (Nat.le_refl len) _).trans ?_
  constructor
  · rintro ⟨-, appears⟩ i less isBeyond
    exact (beyond i isBeyond).mp (appears i less)
  · intro appears
    have all : ∀ i < len,
        Appears mapped cr3 temp (tempMapped src) (dataAt machine.state.memory src) i := by
      intro i less
      by_cases isInPage : src % 4096 + i < 4096
      · exact inPage i isInPage
      · exact (beyond i (by omega)).mpr (appears i less (by omega))
    refine ⟨fun i less before => ?_, all⟩
    have appear := all i less
    simp only at before
    unfold Appears at appear
    rw [if_neg (by omega)] at appear
    rw [appear]
    rfl

end Calls

/-! ## Strings -/

/-- What `copy_phys_to_virt_string` has found out when it calls `kern_malloc`. -/
def measured (cr3 : Nat) (state : State) (src : Nat) : Option (Nat × State) := do
  let memory ← Paging.Window.tempMapPage cr3 state.memory src
  let length ← strlen memory cr3 (tempMapped src)
  return (length, { state with memory })

section Strings

variable {kept : Set Nat} {cr3 kernelTable : Nat} {memory mapped : Memory} {machine : Machine}
  {flat : ByteMemory.Memory} {blocks : List Block} {src size len length temp : Nat}
  {state measuredState next : State}

theorem isSome_of_strlenFrom {string fuel i : Nat}
    (isLength : strlenFrom memory cr3 string fuel i = some size) :
    i ≤ size ∧ ∀ index, i ≤ index → index ≤ size →
      (load memory cr3 (string + index)).isSome = true := by
  induction fuel generalizing i with
  | zero => cases isLength
  | succ fuel induction =>
      unfold strlenFrom at isLength
      rcases Option.bind_eq_some_iff.mp isLength with ⟨byte, isByte, isLength⟩
      by_cases notNull : byte ≠ 0
      · rw [if_pos notNull] at isLength
        rcases induction isLength with ⟨above, loaded⟩
        refine ⟨by omega, fun index low high => ?_⟩
        by_cases isFirst : index = i
        · rw [isFirst, isByte]
          rfl
        · exact loaded index (by omega) high
      · rw [if_neg notNull, Option.pure_def, Option.some_inj] at isLength
        subst isLength
        refine ⟨Nat.le_refl _, fun index low high => ?_⟩
        rw [Nat.le_antisymm high low, isByte]
        rfl

theorem strlenFrom_eq {string : Nat} (chars : ∀ i < length, ∃ byte,
      load memory cr3 (string + i) = some byte ∧ byte ≠ 0)
    (ends : load memory cr3 (string + length) = some 0) {fuel i : Nat} (enough : length < i + fuel)
    (before : i ≤ length) : strlenFrom memory cr3 string fuel i = some length := by
  induction fuel generalizing i with
  | zero => exact absurd enough (by omega)
  | succ fuel induction =>
      unfold strlenFrom
      by_cases isLast : i = length
      · subst isLast
        rw [ends]
        rfl
      · rcases chars i (by omega) with ⟨byte, isByte, notNull⟩
        rw [isByte, Option.bind_eq_bind, Option.bind_some, if_pos notNull]
        exact induction (by omega) (by omega)

theorem copyPhysToVirtString_eq (isMeasured : measured cr3 state src = some (size, measuredState))
    (serves : Serves cr3 measuredState (size + 1) temp next) (unset : Nat) :
    copyPhysToVirtString cr3 state unset src =
      (memcpy8 cr3 temp (tempMapped src) (size + 1) next.memory).map fun memory =>
        (temp, { next with memory }) := by
  rcases Option.bind_eq_some_iff.mp isMeasured with ⟨mapped, isMapped, isMeasured⟩
  rcases Option.bind_eq_some_iff.mp isMeasured with ⟨found, isFound, same⟩
  cases same
  have small := serves.request.small
  have isLength : (size + 1) % space = size + 1 := Nat.mod_eq_of_lt (by unfold space; omega)
  unfold copyPhysToVirtString
  simp only [isMapped, isFound, isLength, serves.result, Option.bind_eq_bind, Option.bind_some]
  rw [if_pos (Nat.succ_ne_zero size)]
  exact Option.map_eq_bind.symm

theorem Invariant.measured
    (invariant : Invariant kept cr3 kernelTable memory machine flat blocks) (small : src < space)
    (isMeasured : PagedHeap.measured cr3 machine.state src = some (size, measuredState)) :
    ∃ mapped, Shown kept cr3 kernelTable machine.state src mapped flat ∧
      measuredState = { machine.state with memory := mapped } ∧
      Invariant kept cr3 kernelTable mapped { machine with state := measuredState } flat blocks ∧
      ∀ i ≤ size, (load mapped cr3 (tempMapped src + i)).isSome = true := by
  rcases invariant.carries.shown small with ⟨mapped, shown⟩
  rcases Option.bind_eq_some_iff.mp isMeasured with ⟨other, isOther, isMeasured⟩
  rw [shown.isMapped, Option.some_inj] at isOther
  subst isOther
  rcases Option.bind_eq_some_iff.mp isMeasured with ⟨found, isFound, same⟩
  cases same
  refine ⟨mapped, shown, rfl,
    ⟨shown.carries, invariant.heap, invariant.holds, invariant.apart, .refl _⟩, fun i within => ?_⟩
  exact (isSome_of_strlenFrom isFound).2 i (Nat.zero_le i) within

/-- A string that appears and does not reach the heap is measured. -/
theorem Invariant.measured_of_appears
    (invariant : Invariant kept cr3 kernelTable memory machine flat blocks)
    (behind : Behind kept machine.state.memory cr3) (small : src < space)
    (isKept : src / 4096 ∈ kept) (string : StringAt machine.state.memory src length)
    (short : tempMapped src + length < kernelHeapInitAddr)
    (appears : ∀ i ≤ length, 4096 ≤ src % 4096 + i →
      load machine.state.memory cr3 (tempMapped src + i) =
        some (dataAt machine.state.memory src i)) :
    ∃ measuredState, PagedHeap.measured cr3 machine.state src = some (length, measuredState) := by
  rcases invariant.carries.shown small with ⟨mapped, shown⟩
  have isAddress := tempMapped_eq src
  unfold kernelHeapInitAddr at short
  have source : ∀ i ≤ length, load mapped cr3 (tempMapped src + i) =
      some (dataAt machine.state.memory src i) := by
    intro i within
    by_cases inPage : src % 4096 + i < 4096
    · rw [load_window shown.shows inPage, byteAt_source (shown.keeps.frames _ isKept) inPage]
    · rw [load_behind behind shown.keeps (by omega) (by unfold kernelHeapInitAddr; omega)]
      exact appears i within (by omega)
  have isLength : strlen mapped cr3 (tempMapped src) = some length := by
    refine strlenFrom_eq (fun i less => ⟨_, source i less.le, string.chars i less⟩) ?_ ?_
      (Nat.zero_le _)
    · rw [source length (Nat.le_refl _), string.ends]
    · unfold space
      omega
  refine ⟨{ machine.state with memory := mapped }, ?_⟩
  unfold PagedHeap.measured
  rw [shown.isMapped, Option.bind_eq_bind, Option.bind_some, isLength]
  rfl

/-- Everything that has been measured is still mapped when it is copied. -/
theorem Granted.loaded (granted : Granted kept cr3 kernelTable state len temp next flat)
    (behind : Behind kept state.memory cr3) {frame : Nat}
    (shows : walk next.memory cr3 windowPage = some frame)
    (loaded : ∀ i ≤ size, (load state.memory cr3 (tempMapped src + i)).isSome = true) :
    ∀ i < size + 1, tempMapped src + i < next.heap.start →
      (load next.memory cr3 (tempMapped src + i)).isSome = true := by
  intro i less before
  have start := granted.carries.start
  have isAddress := tempMapped_eq src
  by_cases inPage : src % 4096 + i < 4096
  · rw [load_window shows inPage]
    rfl
  · rw [load_behind behind granted.keeps (by omega) (start ▸ before)]
    exact loaded i (by omega)

/-- `copy_phys_to_virt_string` after `kern_malloc` has returned. Where the heap has grown, the
window shows a page table. -/
theorem Invariant.stringCopied_iff
    (invariant : Invariant kept cr3 kernelTable memory machine flat blocks)
    (behind : Behind kept machine.state.memory cr3) (small : src < space)
    (isKept : src / 4096 ∈ kept)
    (isMeasured : PagedHeap.measured cr3 machine.state src = some (size, measuredState))
    (serves : Serves cr3 measuredState (size + 1) temp next) (enough : length ≤ size)
    (unset : Nat) :
    (∃ final, copyPhysToVirtString cr3 machine.state unset src = some (temp, final) ∧
        Copied cr3 machine.state.memory final.memory src (length + 1) temp) ↔
      ∀ i ≤ length,
        4096 ≤ src % 4096 + i ∨ next.heap.heapEnd ≠ machine.state.heap.heapEnd →
        Appears next.memory cr3 temp (tempMapped src) (dataAt machine.state.memory src) i := by
  rcases invariant.measured small isMeasured with ⟨mapped, shown, rfl, measuredInvariant, loaded⟩
  rcases measuredInvariant.granted serves with ⟨nextFlat, granted⟩
  have mappedBehind := behind.keeps shown.keeps
  have low := granted.low
  have nextBehind : Behind kept next.memory cr3 := mappedBehind.keeps granted.keeps
  rw [copyPhysToVirtString_eq isMeasured serves, exists_copied_iff]
  rcases granted.window with ⟨sameEnd, sameShown⟩ | ⟨larger, table, index, shows, isTable⟩
  · have shows : walk next.memory cr3 windowPage = some (src / 4096) := sameShown.trans shown.shows
    have same : next.memory (src / 4096) = machine.state.memory (src / 4096) :=
      (granted.keeps.frames _ isKept).trans (shown.keeps.frames _ isKept)
    refine (granted.carries.copy_iff nextBehind shows (usedAs_kept isKept) (by simp) low
      granted.high (Nat.succ_le_succ enough) _).trans ?_
    constructor
    · exact fun all i within _ => all.2 i (Nat.lt_succ_of_le within)
    · intro appears
      refine ⟨granted.loaded mappedBehind shows loaded, fun i less => ?_⟩
      by_cases inPage : src % 4096 + i < 4096
      · exact appears_window (granted.carries.start ▸ low) shows same inPage
      · exact appears i (Nat.le_of_lt_succ less) (.inl (Nat.le_of_not_lt inPage))
  · refine (granted.carries.copy_iff nextBehind shows isTable (by simp) low granted.high
      (Nat.succ_le_succ enough) _).trans ?_
    constructor
    · exact fun all i within _ => all.2 i (Nat.lt_succ_of_le within)
    · intro appears
      refine ⟨granted.loaded mappedBehind shows loaded, fun i less => ?_⟩
      exact appears i (Nat.le_of_lt_succ less) (.inr (Nat.ne_of_gt larger))

end Strings

/-! ## What boot data are copied -/

def Grants (cr3 : Nat) (state : State) (len : Nat) : Prop :=
  ∃ temp next, Serves cr3 state len temp next

/-- `copy_phys_to_virt` returns a block of this length with the data. -/
def CopiesData (cr3 : Nat) (state : State) (src len : Nat) : Prop :=
  ∃ temp next final, kernMalloc cr3 state len = some (temp, next) ∧
    copyPhysToVirt cr3 state src len = some (temp, final) ∧
    Copied cr3 state.memory final.memory src len temp

/-- What lies beyond the page appears behind the window. Data that are long enough to reach the
heap appear as `kern_malloc` leaves it. -/
structure DataAppear (cr3 : Nat) (state : State) (src len : Nat) : Prop where
  behind : ∀ i < len, 4096 ≤ src % 4096 + i → tempMapped src + i < kernelHeapInitAddr →
    load state.memory cr3 (tempMapped src + i) = some (dataAt state.memory src i)
  inHeap : ∀ temp next, kernMalloc cr3 state len = some (temp, next) →
    ∀ i < len, kernelHeapInitAddr ≤ tempMapped src + i →
      Appears next.memory cr3 temp (tempMapped src) (dataAt state.memory src) i

/-- `copy_phys_to_virt_string` returns a block that is large enough, with the string and its
end. -/
def CopiesString (cr3 : Nat) (state : State) (unset src length : Nat) : Prop :=
  ∃ size measuredState temp next final, measured cr3 state src = some (size, measuredState) ∧
    length ≤ size ∧ kernMalloc cr3 measuredState (size + 1) = some (temp, next) ∧
    copyPhysToVirtString cr3 state unset src = some (temp, final) ∧
    Copied cr3 state.memory final.memory src length temp ∧
    load final.memory cr3 (temp + length) = some 0

/-- What lies beyond the page appears behind the window. If the heap grows, what lies in the page
appears in the page table that is left in the window. A string that is long enough to reach the
heap is not taken for a shorter one, and appears as `kern_malloc` leaves the heap. -/
structure StringAppears (cr3 : Nat) (state : State) (src length : Nat) : Prop where
  behind : ∀ i ≤ length, 4096 ≤ src % 4096 + i → tempMapped src + i < kernelHeapInitAddr →
    load state.memory cr3 (tempMapped src + i) = some (dataAt state.memory src i)
  reaching : kernelHeapInitAddr ≤ tempMapped src + length →
    ∃ size measuredState, measured cr3 state src = some (size, measuredState) ∧ length ≤ size
  afterwards : ∀ size measuredState temp next,
    measured cr3 state src = some (size, measuredState) →
    kernMalloc cr3 measuredState (size + 1) = some (temp, next) →
    ∀ i ≤ length, (src % 4096 + i < 4096 ∧ next.heap.heapEnd ≠ state.heap.heapEnd) ∨
        kernelHeapInitAddr ≤ tempMapped src + i →
      Appears next.memory cr3 temp (tempMapped src) (dataAt state.memory src) i

section BootData

variable {kept : Set Nat} {cr3 kernelTable : Nat} {memory before after : Memory}
  {start : Paging.Machine} {machine : Machine} {flat : ByteMemory.Memory} {blocks : List Block}
  {src size len length temp : Nat} {measuredState next : State}

theorem StringAt.copied_iff (string : StringAt before src length) :
    Copied cr3 before after src (length + 1) temp ↔
      Copied cr3 before after src length temp ∧ load after cr3 (temp + length) = some 0 := by
  unfold Copied
  rw [Nat.forall_lt_succ_right, string.ends]

theorem Invariant.dataAppear_iff
    (invariant : Invariant kept cr3 kernelTable memory machine flat blocks)
    (behind : Behind kept machine.state.memory cr3) (serves : Serves cr3 machine.state len temp next) :
    DataAppear cr3 machine.state src len ↔ ∀ i < len, 4096 ≤ src % 4096 + i →
      Appears next.memory cr3 temp (tempMapped src) (dataAt machine.state.memory src) i := by
  rcases invariant.granted serves with ⟨nextFlat, granted⟩
  have high : kernelHeapInitAddr ≤ temp := granted.carries.start ▸ granted.low
  constructor
  · intro appear i less beyond
    by_cases below : tempMapped src + i < kernelHeapInitAddr
    · exact (appears_behind behind granted.keeps high beyond below _).mpr
        (appear.behind i less beyond below)
    · exact appear.inHeap temp next serves.result i less (Nat.le_of_not_lt below)
  · intro appears
    refine ⟨fun i less beyond below => ?_, fun other otherNext isResult i less reaches => ?_⟩
    · exact (appears_behind behind granted.keeps high beyond below _).mp (appears i less beyond)
    · rw [serves.result, Option.some_inj] at isResult
      cases isResult
      exact appears i less (beyond_of_reaches reaches)

theorem copiesData_iff (reached : Reached kept cr3 kernelTable start machine)
    (behind : Behind kept start.memory cr3) (small : src < space) (isKept : src / 4096 ∈ kept)
    (grants : Grants cr3 machine.state len) :
    CopiesData cr3 machine.state src len ↔ DataAppear cr3 machine.state src len := by
  rcases reached.invariant with ⟨flat, blocks, invariant⟩
  rcases grants with ⟨temp, next, serves⟩
  have here := behind.keeps invariant.keeps
  have copied := invariant.copied_iff here small isKept serves
  rw [invariant.dataAppear_iff here serves, ← copied]
  constructor
  · rintro ⟨other, otherNext, final, isResult, isFinal, isCopied⟩
    rw [serves.result, Option.some_inj] at isResult
    cases isResult
    exact ⟨final, isFinal, isCopied⟩
  · rintro ⟨final, isFinal, isCopied⟩
    exact ⟨temp, next, final, serves.result, isFinal, isCopied⟩

theorem Invariant.stringAppears_iff
    (invariant : Invariant kept cr3 kernelTable memory machine flat blocks)
    (behind : Behind kept machine.state.memory cr3) (small : src < space)
    (isMeasured : PagedHeap.measured cr3 machine.state src = some (size, measuredState))
    (serves : Serves cr3 measuredState (size + 1) temp next) (enough : length ≤ size) :
    StringAppears cr3 machine.state src length ↔
      ∀ i ≤ length, 4096 ≤ src % 4096 + i ∨ next.heap.heapEnd ≠ machine.state.heap.heapEnd →
        Appears next.memory cr3 temp (tempMapped src) (dataAt machine.state.memory src) i := by
  rcases invariant.measured small isMeasured with ⟨mapped, shown, rfl, measuredInvariant, -⟩
  rcases measuredInvariant.granted serves with ⟨nextFlat, granted⟩
  have keeps : Keeps kept cr3 machine.state.memory next.memory := granted.keeps.trans shown.keeps
  have high : kernelHeapInitAddr ≤ temp := granted.carries.start ▸ granted.low
  constructor
  · intro appear i within needed
    by_cases reaches : kernelHeapInitAddr ≤ tempMapped src + i
    · exact appear.afterwards _ _ _ _ isMeasured serves.result i within (.inr reaches)
    · by_cases beyond : 4096 ≤ src % 4096 + i
      · exact (appears_behind behind keeps high beyond (Nat.lt_of_not_le reaches) _).mpr
          (appear.behind i within beyond (Nat.lt_of_not_le reaches))
      · have grown := needed.resolve_left beyond
        exact appear.afterwards _ _ _ _ isMeasured serves.result i within
          (.inl ⟨Nat.lt_of_not_le beyond, grown⟩)
  · intro appears
    refine ⟨fun i within beyond below => ?_, fun _ => ⟨size, _, isMeasured, enough⟩, ?_⟩
    · exact (appears_behind behind keeps high beyond below _).mp (appears i within (.inl beyond))
    · intro otherSize otherState other otherNext isOther isResult i within needed
      rw [isMeasured, Option.some_inj] at isOther
      cases isOther
      rw [serves.result, Option.some_inj] at isResult
      cases isResult
      exact appears i within (needed.symm.imp beyond_of_reaches And.right)

/-- A string that appears is at least as long for `strlen`. -/
theorem StringAppears.measured (appears : StringAppears cr3 machine.state src length)
    (invariant : Invariant kept cr3 kernelTable memory machine flat blocks)
    (behind : Behind kept machine.state.memory cr3) (small : src < space)
    (isKept : src / 4096 ∈ kept) (string : StringAt machine.state.memory src length) :
    ∃ size measuredState, PagedHeap.measured cr3 machine.state src = some (size, measuredState) ∧
      length ≤ size := by
  by_cases reaches : kernelHeapInitAddr ≤ tempMapped src + length
  · exact appears.reaching reaches
  · have short : tempMapped src + length < kernelHeapInitAddr := Nat.lt_of_not_le reaches
    rcases invariant.measured_of_appears behind small isKept string short
      (fun i within beyond => appears.behind i within beyond (by omega)) with
      ⟨measuredState, isMeasured⟩
    exact ⟨length, measuredState, isMeasured, Nat.le_refl length⟩

theorem copiesString_iff (reached : Reached kept cr3 kernelTable start machine)
    (behind : Behind kept start.memory cr3) (small : src < space) (isKept : src / 4096 ∈ kept)
    (string : StringAt machine.state.memory src length)
    (grants : ∀ size measuredState, measured cr3 machine.state src = some (size, measuredState) →
      Grants cr3 measuredState (size + 1)) (unset : Nat) :
    CopiesString cr3 machine.state unset src length ↔
      StringAppears cr3 machine.state src length := by
  rcases reached.invariant with ⟨flat, blocks, invariant⟩
  have here := behind.keeps invariant.keeps
  constructor
  · rintro ⟨size, measuredState, other, otherNext, final, isMeasured, enough, isResult, isFinal,
      isCopied⟩
    rcases grants size measuredState isMeasured with ⟨temp, next, serves⟩
    rw [serves.result, Option.some_inj] at isResult
    cases isResult
    refine (invariant.stringAppears_iff here small isMeasured serves enough).mpr ?_
    exact (invariant.stringCopied_iff here small isKept isMeasured serves enough unset).mp
      ⟨_, isFinal, string.copied_iff.mpr isCopied⟩
  · intro appears
    rcases appears.measured invariant here small isKept string with
      ⟨size, measuredState, isMeasured, enough⟩
    rcases grants size measuredState isMeasured with ⟨temp, next, serves⟩
    rcases (invariant.stringCopied_iff here small isKept isMeasured serves enough unset).mpr
      ((invariant.stringAppears_iff here small isMeasured serves enough).mp appears) with
      ⟨final, isFinal, isCopied⟩
    exact ⟨size, measuredState, temp, next, final, isMeasured, enough, serves.result, isFinal,
      string.copied_iff.mp isCopied⟩

end BootData

/-! ### The kernel behind the window -/

/-- As `init_paging` leaves it: the frames from 0x101 on, with the kernel, appear behind the
window. The directory is in frame 0x105 and the table with the entry of the window in frame
0x106. Frame 3 has a string, which is one byte long. -/
def higherHalf : Paging.Machine :=
  { memory := fun frame place =>
      if frame = 0x105 ∧ place = 768 then Paging.makeEntry 1 0 0x106
      else if frame = 0x105 ∧ place = 1023 then Paging.makeEntry 1 0 0x105
      else if frame = 0x106 ∧ place = 0 then Paging.makeEntry 1 0 0
      else if frame = 0x106 ∧ place < 4 then Paging.makeEntry 1 0 (0x100 + place)
      else if frame = 0x101 ∧ place = 0 then 0x55
      else if frame = 3 ∧ place = 0 then 7
      else 0
    phys :=
      { totalUsableLower := 0x28000
        totalUsableUpper := 0x40000
        allocations := fun index => if index < 47 then 1 else 0
        freeList := []
        failed := false
        wrapped := false } }

/-- The frames with the boot data and with the kernel. -/
def reserved : Set Nat := {frame | frame < 4 ∨ 0x101 ≤ frame ∧ frame < 0x104}

theorem higherHalf_directory {index : Nat} (bound : index < 1023) (different : index ≠ 768) :
    higherHalf.memory 0x105 index = 0 := by
  unfold higherHalf
  simp only
  rw [if_neg (fun both => different both.2), if_neg (by omega), if_neg (by omega),
    if_neg (by omega), if_neg (by omega), if_neg (by omega)]

theorem layout_higherHalf : Layout reserved 0x105 0x106 higherHalf heapPage := by
  refine layout_of_oneTable ⟨by decide, by decide, by decide⟩
    ⟨by decide, by decide, by simp [higherHalf]⟩ ⟨by decide, by decide, by simp [reserved]⟩
    ⟨by decide, by decide, by simp [reserved]⟩ (fun index high => higherHalf_directory high) ?_
  rintro frame (rfl | rfl | low | ⟨low, high⟩)
  · intro _
    decide
  · intro _
    decide
  · intro _
    interval_cases frame <;> decide
  · intro _
    interval_cases frame <;> decide

theorem behind_higherHalf : Behind reserved higherHalf.memory 0x105 := by
  intro page above below frame found
  unfold windowPage at above
  unfold heapPage at below
  unfold walk at found
  by_cases isKernel : page / 1024 = 768
  · have isTable : Paging.pageAddr (higherHalf.memory 0x105 768) = 0x106 := by decide
    by_cases isLow : page % 1024 < 4
    · have isEntry : higherHalf.memory 0x106 (page % 1024) =
          Paging.makeEntry 1 0 (0x100 + page % 1024) := by
        unfold higherHalf
        simp only
        rw [if_neg (by omega), if_neg (by omega), if_neg (by omega), if_pos ⟨trivial, isLow⟩]
      have isFrame : Paging.pageAddr (Paging.makeEntry 1 0 (0x100 + page % 1024)) =
          0x100 + page % 1024 :=
        Paging.pageAddr_makeEntry 1 0 (by unfold Paging.frameCount; omega)
      simp only [isKernel, isTable, isEntry, isFrame] at found
      split at found
      case isFalse => cases found
      case isTrue =>
        split at found
        case isFalse => cases found
        case isTrue =>
          rw [← Option.some_inj.mp found]
          exact .inr (by omega)
    · have missing : higherHalf.memory 0x106 (page % 1024) = 0 := by
        unfold higherHalf
        simp only
        rw [if_neg (by omega), if_neg (by omega), if_neg (by omega), if_neg (by omega),
          if_neg (by omega), if_neg (by omega)]
      simp only [isKernel, isTable, missing] at found
      simp [Paging.presentBit] at found
  · simp only [higherHalf_directory (show page / 1024 < 1023 by omega) isKernel] at found
    simp [Paging.presentBit] at found

theorem boot_higherHalf : ∃ state, Reached reserved 0x105 0x106 higherHalf (boot state) ∧
    HasFrames state.phys 2 ∧ state.heap.heapEnd = 0xD0001000 ∧ state.heap.head = 0 := by
  have evaluated : ((initialiseHeap 0x105 higherHalf).any fun state =>
      HasFrames state.phys 2 ∧ state.heap.heapEnd = 0xD0001000 ∧ state.heap.head = 0) = true := by
    decide +kernel
  rcases (Option.any_eq_true _ _).mp evaluated with ⟨state, isState, facts⟩
  have facts := of_decide_eq_true facts
  exact ⟨state, ⟨layout_higherHalf, state, [], isState, facts.1.ok, trivial, rfl⟩, facts⟩

theorem dataAt_higherHalf {memory : Memory} {src i : Nat}
    (keeps : Keeps reserved 0x105 higherHalf.memory memory) (low : src + i < 0x4000) :
    dataAt memory src i = dataAt higherHalf.memory src i := by
  have isLow : (src + i) / 4096 < 4 := by omega
  unfold dataAt physByte
  exact byteAt_congr (keeps.frames _ (.inl isLow)) _

end Dbos.PagedHeap
