import Dbos.Kernel.Memory.Heap
import Dbos.Kernel.Process.FrameSafety

/-! # What requests do to the kernel

The page structures above `0xC0000000` are shared by all address spaces, and frame 0
is none that may be used: it is what `alloc_phys_page` returns when there is no frame
left. -/

namespace Dbos.Loader

open Dbos.Loop Dbos.Paging Dbos.Execution Phys

/-! ## The kernel half is not remapped -/

/-- The entries of the directories above `0xC0000000` are the same, and so are the
tables that they name. The last entry names the directory itself. -/
structure SameKernel (dirs : Finset Nat) (memory next : Memory) : Prop where
  entries : ∀ dir ∈ dirs, ∀ index, 768 ≤ index → index < 1024 →
    next dir index = memory dir index
  tables : ∀ dir ∈ dirs, ∀ index, 768 ≤ index → index < 1023 →
    presentBit (memory dir index) = true → ∀ place,
      next (pageAddr (memory dir index)) place = memory (pageAddr (memory dir index)) place

/-- The requests that `elf_load_executable` and `sysc_sbrk` serve. In `loader_spawn` the
first one comes after `create`, and in `loader_exec` after `leaveAddressSpace`. -/
def Operation.asksForPages : Operation → Bool
  | .loadExecutable _ _ _ => true
  | .sbrk _ _ => true
  | _ => false

section Requests

variable {kernel : Finset Nat} {system next : System} {process : Process}

theorem Sound.sameKernel (sound : Sound kernel system) {pdir : Nat} (isDir : pdir ∈ system.dirs)
    {memory : Memory}
    (keeps : KeepsKernel system.machine.memory memory (kernel ∪ system.dirs) pdir) :
    SameKernel system.dirs system.machine.memory memory := by
  constructor
  · intro dir isOther index above _
    exact keeps dir (Finset.mem_union_right _ isOther) index (.inr above)
  · intro dir isOther index above below present place
    rcases sound.half.table dir isOther index above below with absent | isTable
    · rw [absent, presentBit_zero] at present
      cases present
    · have notDir : pageAddr (system.machine.memory dir index) ≠ pdir := fun same =>
        Finset.disjoint_left.mp sound.apart isTable.isKernel (same ▸ isDir)
      exact keeps _ (Finset.mem_union_left _ isTable.isKernel) place (.inl notDir)

theorem sameKernel_of_step (sound : Sound kernel system) {request : Operation}
    (asks : request.asksForPages = true) (inUserHalf : InUserHalf system request)
    (served : step system request = some next) (ok : next.machine.phys.Ok) :
    SameKernel system.dirs system.machine.memory next.machine.memory := by
  rcases sound.mapped with ⟨tables, mapped⟩
  cases request with
  | loadExecutable pid file leftover =>
      rcases Option.bind_eq_some_iff.mp served with ⟨process, found, isLoaded⟩
      rcases Option.map_eq_some_iff.mp isLoaded with ⟨machine, loaded, rfl⟩
      have isDir := System.pdir_mem (System.of_find found).1
      exact Sound.sameKernel sound isDir
        (elfLoadExecutable_spec mapped isDir inUserHalf loaded ok).kernel
  | sbrk pid bytes =>
      rcases Option.map_eq_some_iff.mp served with ⟨process, found, rfl⟩
      have isDir := System.pdir_mem (System.of_find found).1
      exact Sound.sameKernel sound isDir
        (syscSbrk_spec mapped isDir (inUserHalf process found) ok).2
  | _ => cases asks

end Requests

/-- No request of a run remaps the kernel, as long as the requests stay in the user half. -/
theorem sameKernel_of_run {machine : Machine} {kernelDir heapEnd : Nat} {kernel : Finset Nat}
    (booted : KernelBooted machine kernelDir kernel) {operations : List Operation}
    {request : Operation} {system next : System}
    (admissible : Admissible step InUserHalf (System.boot machine kernelDir heapEnd)
      (operations ++ [request]))
    (reached : run step (System.boot machine kernelDir heapEnd) operations = some system)
    (asks : request.asksForPages = true) (served : step system request = some next)
    (ok : next.machine.phys.Ok) :
    SameKernel system.dirs system.machine.memory next.machine.memory := by
  rcases admissible.append reached with ⟨before, last⟩
  have systemOk := ok_of_step system request next served ok
  have sound := sound_of_run (sound_boot booted heapEnd) before reached systemOk
  exact sameKernel_of_step sound asks last.1 served ok

/-- A process that has been created is given a heap. -/
theorem sameKernel_of_run_sbrk : ∃ system next,
    run step (System.boot kernelMachine 1 0) [.create 1 ⟨0, 0, 0⟩] = some system ∧
      step system (.sbrk 2 5000) = some next ∧
      SameKernel system.dirs system.machine.memory next.machine.memory := by
  have evaluated : ((run step (System.boot kernelMachine 1 0)
      [.create 1 ⟨0, 0, 0⟩]).bind fun system => step system (.sbrk 2 5000)).any (fun next =>
        !next.machine.phys.failed && !next.machine.phys.wrapped) = true := by
    decide +kernel
  have admissible : Admissible step InUserHalf (System.boot kernelMachine 1 0)
      ([.create 1 ⟨0, 0, 0⟩] ++ [.sbrk 2 5000]) := by
    decide +kernel
  rcases (Option.any_eq_true _ _).mp evaluated with ⟨next, isNext, good⟩
  rcases Option.bind_eq_some_iff.mp isNext with ⟨system, reached, served⟩
  rw [Bool.and_eq_true, Bool.not_eq_true', Bool.not_eq_true'] at good
  exact ⟨system, next, reached, served,
    sameKernel_of_run booted_kernelMachine admissible reached rfl served good⟩

/-- The byte is loaded to a page behind the window, in the table of the kernel. -/
theorem sameKernel_fails : ∃ system next,
    run step (System.boot kernelMachine 1 0) [.create 1 ⟨0, 0, 0⟩] = some system ∧
      step system (.loadExecutable 2 (oneByteAt 0xC0001000) noLeftover) = some next ∧
      next.machine.phys.Ok ∧
      ¬SameKernel system.dirs system.machine.memory next.machine.memory := by
  have evaluated : ((run step (System.boot kernelMachine 1 0)
      [.create 1 ⟨0, 0, 0⟩]).bind fun system =>
        (step system (.loadExecutable 2 (oneByteAt 0xC0001000) noLeftover)).map fun next =>
          (decide (1 ∈ system.dirs), system.machine.memory 1 768, system.machine.memory 2 1,
            presentBit (next.machine.memory 2 1), next.machine.phys.failed,
            next.machine.phys.wrapped)) =
      some (true, makeEntry 1 0 2, 0, true, false, false) := by
    decide +kernel
  rcases Option.bind_eq_some_iff.mp evaluated with ⟨system, reached, inSystem⟩
  rcases Option.map_eq_some_iff.mp inSystem with ⟨next, served, values⟩
  simp only [Prod.mk.injEq, decide_eq_true_eq] at values
  rcases values with ⟨isDir, isTable, before, after, good⟩
  refine ⟨system, next, reached, served, good, fun same => ?_⟩
  have unchanged := same.tables 1 isDir 768 (by decide) (by decide)
  rw [isTable, pageAddr_makeEntry 1 0 (by decide), presentBit_makeEntry] at unchanged
  rw [unchanged rfl 1, before] at after
  exact absurd after (by decide)

/-! ## Frame 0 is not mapped -/

/-- No address space has frame 0 for its directory, a table or a page. -/
structure ZeroUnmapped (system : System) : Prop where
  dirs : 0 ∉ system.dirs
  tables : ∀ dir ∈ system.dirs, ∀ index < 1024,
    presentBit (system.machine.memory dir index) = true →
      pageAddr (system.machine.memory dir index) ≠ 0
  pages : ∀ dir ∈ system.dirs, ∀ page < userPages, ∀ word,
    userEntry system.machine.memory dir page = some word → pageAddr word ≠ 0

theorem Sound.zeroUnmapped {kernel : Finset Nat} {system : System} (sound : Sound kernel system)
    (zero : 0 ∈ kernel) : ZeroUnmapped system := by
  rcases sound.mapped with ⟨tables, mapped⟩
  have notDir : 0 ∉ system.dirs := Finset.disjoint_left.mp sound.apart zero
  refine ⟨notDir, fun dir isDir index bound present => ?_, fun dir isDir page bound word found => ?_⟩
  · by_cases isUser : index < 768
    · have isEntry : (dir, index) ∈ directoryEntries system.dirs :=
        mem_directoryEntries.mpr ⟨isDir, isUser⟩
      intro isZero
      have isTable : pageAddr (system.machine.memory dir index) ∈ tables :=
        (mapped.links.linked _ isEntry present).1
      rw [isZero] at isTable
      exact mapped.counted.notZero isTable
    · by_cases isLast : index = 1023
      · intro isZero
        rw [isLast, (sound.half.self dir isDir).2.2] at isZero
        exact notDir (isZero ▸ isDir)
      · rcases sound.half.table dir isDir index (by omega) (by omega) with absent | isTable
        · rw [absent, presentBit_zero] at present
          cases present
        · exact isTable.notZero
  · intro isZero
    have spare := spare_of_userEntry mapped isDir bound found
    rw [isZero] at spare
    exact spare.notHeld (Finset.mem_union_left _ zero)

/-! ### The kernel heap -/

/-- The body of the loop of `increase_heap`, in the address space that is in use. -/
def increaseHeapPage (pdir : Nat) (state : Machine × Nat) (_ : Nat) : Machine × Nat :=
  let (frame, phys) := state.1.phys.allocPage
  (setPageTableEntry { state.1 with phys } pdir (state.2 / 4096) frame 1 0,
    (state.2 + 4096) % space)

/-- `increase_heap`: the machine and the new end of the heap. -/
def increaseHeap (machine : Machine) (pdir heapEnd bytes : Nat) : Machine × Nat :=
  loop (Heap.pagesFor bytes) (increaseHeapPage pdir) (machine, heapEnd)

/-- Every word that has been written is 0 or an entry for another frame than 0. -/
def WritesNoZero (memory next : Memory) : Prop := ∀ frame index,
  next frame index = memory frame index ∨ next frame index = 0 ∨ pageAddr (next frame index) ≠ 0

theorem WritesNoZero.trans {memory next last : Memory} (first : WritesNoZero memory next)
    (second : WritesNoZero next last) : WritesNoZero memory last := by
  intro frame index
  rcases second frame index with same | written
  · rw [same]
    exact first frame index
  · exact .inr written

theorem WritesNoZero.setWord (memory : Memory) (frame index : Nat) {word : Nat}
    (notZero : pageAddr word ≠ 0) : WritesNoZero memory (setWord memory frame index word) := by
  intro other place
  by_cases same : other = frame ∧ place = index
  · rw [same.1, same.2, setWord_self]
    exact .inr (.inr notZero)
  · exact .inl (setWord_of_ne _ _ (not_and_or.mp same))

theorem WritesNoZero.clearFrame (memory : Memory) (frame : Nat) :
    WritesNoZero memory (clearFrame memory frame) := by
  intro other place
  by_cases same : other = frame
  · rw [same, clearFrame_self]
    exact .inr (.inl rfl)
  · exact .inl (congrFun (clearFrame_of_ne _ same) place)

theorem allocPage_ok_iff {phys : Phys} (valid : phys.Valid) (ok : phys.Ok)
    (taken : 1 ≤ phys.refcount 0) :
    phys.allocPage.2.Ok ↔ ∃ frame, phys.Managed frame ∧ phys.refcount frame = 0 := by
  constructor
  · intro allocOk
    have spec := allocPage_spec valid allocOk
    exact ⟨phys.allocPage.1, spec.1, spec.2.1⟩
  · rintro ⟨frame, managed, free⟩
    rcases managed.index valid with ⟨index, bound, -, isIndex⟩
    rw [refcount_of_index isIndex] at free
    unfold allocPage
    simp only [firstFreed_of_valid valid]
    cases found : (List.range phys.totalUsablePages).find? fun index =>
        phys.allocations index = 0 with
    | none =>
        have notFree := List.find?_eq_none.mp found index (List.mem_range.mpr bound)
        simp [free] at notFree
    | some first =>
        have firstBound := List.mem_range.mp (List.mem_of_find?_eq_some found)
        have firstFree : phys.allocations first = 0 := by simpa using List.find?_some found
        have firstIndex := addrToIndex_indexToAddr valid firstBound
        have notZero : phys.indexToAddr first ≠ 0 := by
          intro isZero
          rw [isZero] at firstIndex
          rw [refcount_of_index firstIndex] at taken
          omega
        exact ⟨by simp [ok.1, notZero], ok.2⟩

theorem pageAddr_allocPage {phys : Phys} (valid : phys.Valid) (ok : phys.allocPage.2.Ok)
    (present user : Nat) : pageAddr (makeEntry present user phys.allocPage.1) ≠ 0 := by
  have spec := allocPage_spec valid ok
  rw [pageAddr_makeEntry _ _ (spec.1.lt valid)]
  exact spec.2.2.1

theorem setPageTableEntry_writesNoZero {machine : Machine} (valid : machine.phys.Valid)
    {directory page frame present user : Nat}
    (notZero : pageAddr (makeEntry present user frame) ≠ 0)
    (ok : (setPageTableEntry machine directory page frame present user).phys.Ok) :
    WritesNoZero machine.memory
      (setPageTableEntry machine directory page frame present user).memory := by
  unfold setPageTableEntry at ok ⊢
  simp only at ok ⊢
  split at ok
  case isTrue missing =>
    rw [if_pos missing]
    have linked := WritesNoZero.setWord machine.memory directory (page / 1024)
      (pageAddr_allocPage valid ok 1 user)
    exact (linked.trans (.clearFrame _ _)).trans (.setWord _ _ _ notZero)
  case isFalse found =>
    rw [if_neg found]
    exact .setWord _ _ _ notZero

theorem increaseHeapPage_writesNoZero {machine : Machine} (valid : machine.phys.Valid)
    {pdir heapEnd index : Nat}
    (ok : (increaseHeapPage pdir (machine, heapEnd) index).1.phys.Ok) :
    Grows machine.phys (increaseHeapPage pdir (machine, heapEnd) index).1.phys ∧
      WritesNoZero machine.memory (increaseHeapPage pdir (machine, heapEnd) index).1.memory := by
  unfold increaseHeapPage at ok ⊢
  simp only at ok ⊢
  have allocOk := ok_of_setPageTableEntry ok
  have allocGrows := allocPage_grows valid allocOk
  have allocValid := allocGrows.same.valid valid
  constructor
  · exact allocGrows.trans (setPageTableEntry_grows allocValid ok)
  · have tableValid : (Machine.mk machine.memory machine.phys.allocPage.2).phys.Valid := allocValid
    exact setPageTableEntry_writesNoZero tableValid (pageAddr_allocPage valid allocOk 1 0) ok

theorem increaseHeap_writesNoZero {machine : Machine} (valid : machine.phys.Valid)
    (pdir heapEnd bytes : Nat) (ok : (increaseHeap machine pdir heapEnd bytes).1.phys.Ok) :
    WritesNoZero machine.memory (increaseHeap machine pdir heapEnd bytes).1.memory := by
  have rounds : Grows machine.phys (increaseHeap machine pdir heapEnd bytes).1.phys ∧
      WritesNoZero machine.memory (increaseHeap machine pdir heapEnd bytes).1.memory := by
    unfold increaseHeap at ok ⊢
    refine loop_guarded (fun state : Machine × Nat => state.1.phys.Ok)
      (motive := fun _ state => Grows machine.phys state.1.phys ∧
        WritesNoZero machine.memory state.1.memory)
      (fun _ _ nextOk => ok_of_allocPage (ok_of_setPageTableEntry nextOk)) ok
      ⟨.refl _, fun _ _ => .inl rfl⟩ ?_
    intro index _ state nextOk sofar
    have next := increaseHeapPage_writesNoZero (sofar.1.same.valid valid) nextOk
    exact ⟨sofar.1.trans next.1, sofar.2.trans next.2⟩
  exact rounds.2

/-- Frame 0 is mapped nowhere, and not for the kernel heap either, as long as there is a
frame left each time that one is asked for. -/
theorem zeroUnmapped_of_run {machine : Machine} {kernelDir heapEnd : Nat} {kernel : Finset Nat}
    (booted : KernelBooted machine kernelDir kernel) {operations : List Operation} {final : System}
    (admissible : Admissible step InUserHalf (System.boot machine kernelDir heapEnd) operations)
    (reached : run step (System.boot machine kernelDir heapEnd) operations = some final)
    (ok : final.machine.phys.Ok) :
    ZeroUnmapped final ∧
      (∀ pdir kernelHeapEnd bytes,
        (increaseHeap final.machine pdir kernelHeapEnd bytes).1.phys.Ok →
          WritesNoZero final.machine.memory
            (increaseHeap final.machine pdir kernelHeapEnd bytes).1.memory) ∧
      (final.machine.phys.allocPage.2.Ok ↔
        ∃ frame, final.machine.phys.Managed frame ∧ final.machine.phys.refcount frame = 0) := by
  have sound := sound_of_run (sound_boot booted heapEnd) admissible reached ok
  rcases sound.mapped with ⟨tables, mapped⟩
  have valid := mapped.counted.valid
  have taken := mapped.counted.heldManaged 0 (Finset.mem_union_left _ booted.zero)
  exact ⟨Sound.zeroUnmapped sound booted.zero, increaseHeap_writesNoZero valid,
    allocPage_ok_iff valid ok taken.2⟩

theorem zeroUnmapped_of_run_spawnAndGrow : ∃ final,
    run step (System.boot kernelMachine 1 0) spawnAndGrow = some final ∧ ZeroUnmapped final := by
  have evaluated : (run step (System.boot kernelMachine 1 0) spawnAndGrow).any (fun final =>
      !final.machine.phys.failed && !final.machine.phys.wrapped) = true := by
    decide +kernel
  have admissible : Admissible step InUserHalf (System.boot kernelMachine 1 0) spawnAndGrow := by
    decide +kernel
  rcases (Option.any_eq_true _ _).mp evaluated with ⟨final, reached, good⟩
  rw [Bool.and_eq_true, Bool.not_eq_true', Bool.not_eq_true'] at good
  exact ⟨final, reached, (zeroUnmapped_of_run booted_kernelMachine admissible reached good).1⟩

/-- A process asks for as many pages as there are frames. -/
def growTooFar : List Operation :=
  [.spawn 1 (some (oneByteAt 0x10000000)) [[0x78]] ⟨0, 0, 0⟩ noLeftover, .sbrk 2 0x28000]

/-- The process is told that it has got all of the 40 pages, and the last one is frame 0. -/
theorem zeroUnmapped_fails : ∃ final process,
    run step (System.boot kernelMachine 1 0) growTooFar = some final ∧
      final.find 2 = some process ∧ process.heapEnd = 0x50029000 ∧ ¬ZeroUnmapped final := by
  have evaluated : ((run step (System.boot kernelMachine 1 0) growTooFar).bind fun final =>
      (final.find 2).map fun process =>
        (process.heapEnd, userEntry final.machine.memory process.pdir 0x50028)) =
      some (0x50029000, some (makeEntry 1 1 0)) := by
    decide +kernel
  rcases Option.bind_eq_some_iff.mp evaluated with ⟨final, reached, inFinal⟩
  rcases Option.map_eq_some_iff.mp inFinal with ⟨process, found, values⟩
  rw [Prod.mk.injEq] at values
  refine ⟨final, process, reached, found, values.1, fun unmapped => ?_⟩
  have isDir := System.pdir_mem (System.of_find found).1
  exact unmapped.pages _ isDir 0x50028 (by decide) _ values.2 (by decide)

end Dbos.Loader
