import Mathlib.Data.Finset.Prod
import Dbos.Kernel.Process.Executable
import Dbos.Kernel.Process.Requests

/-! # No frame is used twice

The reference counts cover all entries that name a frame, so that
`alloc_phys_page` hands out only frames that no address space needs. -/

namespace Dbos.Loader

open Dbos.Paging Dbos.Execution Phys

/-- The pages of the user half that are mapped to the frame, by directory and number. -/
def namers (memory : Memory) (dirs : Finset Nat) (frame : Nat) : Finset (Nat × Nat) :=
  (dirs ×ˢ Finset.range userPages).filter fun (dir, page) =>
    presentBit (memory dir (page / 1024)) = true ∧
      presentBit (wordAt memory (slotOf memory dir page)) = true ∧
      pageAddr (wordAt memory (slotOf memory dir page)) = frame

/-- The counts are large enough. -/
structure FramesSafe (system : System) : Prop where
  pages : ∀ frame, (namers system.machine.memory system.dirs frame).card ≤
    system.machine.phys.refcount frame
  tables : ∀ dir ∈ system.dirs, ∀ index < 1024,
    presentBit (system.machine.memory dir index) = true →
      1 ≤ system.machine.phys.refcount (pageAddr (system.machine.memory dir index))
  dirs : ∀ dir ∈ system.dirs, 1 ≤ system.machine.phys.refcount dir

/-- The frame is not used by any address space. -/
structure Unused (system : System) (frame : Nat) : Prop where
  pages : namers system.machine.memory system.dirs frame = ∅
  tables : ∀ dir ∈ system.dirs, ∀ index < 1024,
    presentBit (system.machine.memory dir index) = true →
      pageAddr (system.machine.memory dir index) ≠ frame
  dirs : frame ∉ system.dirs

theorem FramesSafe.unused {system : System} (safe : FramesSafe system) {frame : Nat}
    (free : system.machine.phys.refcount frame = 0) : Unused system frame := by
  refine ⟨?_, fun dir isDir index bound present isFrame => ?_, fun isDir => ?_⟩
  · have few := safe.pages frame
    rw [free] at few
    exact Finset.card_eq_zero.mp (Nat.le_zero.mp few)
  · have counted := safe.tables dir isDir index bound present
    rw [isFrame] at counted
    omega
  · have counted := safe.dirs frame isDir
    omega

section Sound

variable {kernel : Finset Nat} {system : System}

theorem card_namers_le {machine : Machine} {held dirs tables : Finset Nat}
    (mapped : Mapped machine held dirs tables) (frame : Nat) :
    (namers machine.memory dirs frame).card ≤ machine.phys.refcount frame := by
  have isSlot : ∀ place ∈ namers machine.memory dirs frame,
      slotOf machine.memory place.1 place.2 ∈
        naming machine.memory (tableEntries tables) frame := by
    intro place isPlace
    rcases Finset.mem_filter.mp isPlace with ⟨inside, present, wordPresent, isFrame⟩
    rcases Finset.mem_product.mp inside with ⟨isDir, isPage⟩
    have member := slotOf_mem mapped.links isDir (Finset.mem_range.mp isPage) present
    exact mem_naming.mpr ⟨member, wordPresent, isFrame⟩
  rcases (namers machine.memory dirs frame).eq_empty_or_nonempty with empty | ⟨place, isPlace⟩
  · rw [empty, Finset.card_empty]
    exact Nat.zero_le _
  · rcases mem_naming.mp (isSlot place isPlace) with ⟨member, wordPresent, isFrame⟩
    have managed := (mapped.counted.named _ member wordPresent).1
    rw [isFrame] at managed
    refine (Finset.card_le_card_of_injOn (fun place : Nat × Nat =>
      slotOf machine.memory place.1 place.2) isSlot ?_).trans (mapped.counted.counted frame managed)
    intro first isFirst second isSecond same
    rcases Finset.mem_filter.mp isFirst with ⟨firstInside, firstPresent, -⟩
    rcases Finset.mem_filter.mp isSecond with ⟨secondInside, secondPresent, -⟩
    rcases Finset.mem_product.mp firstInside with ⟨firstDir, firstPage⟩
    rcases Finset.mem_product.mp secondInside with ⟨secondDir, secondPage⟩
    have both := slotOf_injective mapped.links secondDir (Finset.mem_range.mp secondPage)
      secondPresent firstDir (Finset.mem_range.mp firstPage) firstPresent same
    exact Prod.ext both.1 both.2

theorem Sound.table_counted (sound : Sound kernel system) {dir : Nat} (isDir : dir ∈ system.dirs)
    {index : Nat} (bound : index < 1024)
    (present : presentBit (system.machine.memory dir index) = true) :
    1 ≤ system.machine.phys.refcount (pageAddr (system.machine.memory dir index)) := by
  rcases sound.mapped with ⟨tables, mapped⟩
  by_cases isUser : index < 768
  · have isEntry : (dir, index) ∈ directoryEntries system.dirs :=
      mem_directoryEntries.mpr ⟨isDir, isUser⟩
    have linked := mapped.links.linked _ isEntry present
    exact (mapped.counted.tableManaged _ linked.1).2
  · by_cases isLast : index = 1023
    · subst isLast
      rw [(sound.half.self dir isDir).2.2]
      exact (mapped.counted.heldManaged dir (Finset.mem_union_right _ isDir)).2
    · rcases sound.half.table dir isDir index (by omega) (by omega) with absent | isTable
      · rw [absent, presentBit_zero] at present
        cases present
      · exact (mapped.counted.heldManaged _ (Finset.mem_union_left _ isTable.isKernel)).2

theorem Sound.framesSafe (sound : Sound kernel system) : FramesSafe system := by
  rcases sound.mapped with ⟨tables, mapped⟩
  refine ⟨card_namers_le mapped, fun dir isDir index bound present => ?_, fun dir isDir => ?_⟩
  · exact Sound.table_counted sound isDir bound present
  · exact (mapped.counted.heldManaged dir (Finset.mem_union_right _ isDir)).2

end Sound

/-- In every state that is reached by operations that stay in the user half, the counts
are large enough, and the next frame that is handed out is not in use. -/
theorem framesSafe_of_run {machine : Machine} {kernelDir heapEnd : Nat} {kernel : Finset Nat}
    (booted : KernelBooted machine kernelDir kernel) {operations : List Operation} {final : System}
    (admissible : Admissible step InUserHalf (System.boot machine kernelDir heapEnd) operations)
    (reached : run step (System.boot machine kernelDir heapEnd) operations = some final)
    (ok : final.machine.phys.Ok) :
    FramesSafe final ∧ (final.machine.phys.allocPage.2.Ok →
      Unused final final.machine.phys.allocPage.1) := by
  have sound := sound_of_run (sound_boot booted heapEnd) admissible reached ok
  have safe := Sound.framesSafe sound
  rcases sound.mapped with ⟨tables, mapped⟩
  exact ⟨safe, fun allocOk => safe.unused (allocPage_spec mapped.counted.valid allocOk).2.1⟩

/-- A process is spawned and asks for memory. -/
def spawnAndGrow : List Operation :=
  [.spawn 1 (some (oneByteAt 0x10000000)) [[0x78]] ⟨0, 0, 0⟩ noLeftover, .sbrk 2 5000]

theorem framesSafe_of_run_spawnAndGrow : ∃ final,
    run step (System.boot kernelMachine 1 0) spawnAndGrow = some final ∧ FramesSafe final := by
  have evaluated : (run step (System.boot kernelMachine 1 0) spawnAndGrow).any (fun final =>
      !final.machine.phys.failed && !final.machine.phys.wrapped) = true := by
    decide +kernel
  have admissible : Admissible step InUserHalf (System.boot kernelMachine 1 0) spawnAndGrow := by
    decide +kernel
  rcases (Option.any_eq_true _ _).mp evaluated with ⟨final, reached, good⟩
  rw [Bool.and_eq_true, Bool.not_eq_true', Bool.not_eq_true'] at good
  exact ⟨final, reached, (framesSafe_of_run booted_kernelMachine admissible reached good).1⟩

/-! ## A page table out of a file -/

/-- The first page of the tables at `0xFFC00000`, with an entry for frame 30. -/
def tableInFile : File where
  name := [0x61]
  data := executable [⟨1, 84, 0xFFC00000, 4, 4⟩] (littleEndian 4 0x1E007)
  small := by simp [executable, littleEndian]

/-- The process has mapped a frame that is free. -/
theorem framesSafe_fails : ∃ final,
    run step (System.boot kernelMachine 1 0)
      [.create 1 ⟨0, 0, 0⟩, .loadExecutable 2 tableInFile noLeftover] = some final ∧
      final.machine.phys.Ok ∧ ¬FramesSafe final := by
  have evaluated : ((run step (System.boot kernelMachine 1 0)
      [.create 1 ⟨0, 0, 0⟩, .loadExecutable 2 tableInFile noLeftover]).bind fun final =>
        (final.find 2).map fun process =>
          (presentBit (final.machine.memory process.pdir 0),
            wordAt final.machine.memory (slotOf final.machine.memory process.pdir 0),
            final.machine.phys.refcount 30, final.machine.phys.failed,
            final.machine.phys.wrapped)) = some (true, 0x1E007, 0, false, false) := by
    decide +kernel
  rcases Option.bind_eq_some_iff.mp evaluated with ⟨final, reached, inFinal⟩
  rcases Option.map_eq_some_iff.mp inFinal with ⟨process, found, values⟩
  simp only [Prod.mk.injEq] at values
  rcases values with ⟨present, isWord, free, good⟩
  refine ⟨final, reached, good, fun safe => ?_⟩
  have unused := (safe.unused free).pages
  have isNamer : (process.pdir, 0) ∈ namers final.machine.memory final.dirs 30 := by
    have isPage : 0 ∈ Finset.range userPages := Finset.mem_range.mpr (by decide)
    refine Finset.mem_filter.mpr ⟨Finset.mem_product.mpr ⟨?_, isPage⟩, ?_⟩
    · exact System.pdir_mem (System.of_find found).1
    · refine ⟨present, ?_⟩
      simp only [isWord]
      decide
  rw [unused] at isNamer
  cases isNamer

end Dbos.Loader
