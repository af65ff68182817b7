import Dbos.Kernel.Process.Executable
import Dbos.Kernel.Process.Requests
import Dbos.Libraries.Bootstrap

/-! # Arguments of a program

What `loader_spawn` and `loader_exec` pack into a page, `bootstrap` finds there. The
name of the binary goes through `process->name`, which has 128 bytes; a tar header
has room for 100. -/

namespace Dbos.Loader

open Dbos.Loop Dbos.Paging Dbos.Execution Dbos.Pieces Dbos.Bootstrap Phys

/-! ## The page -/

theorem argvTotalLength_eq (strings : List (List UInt8)) :
    argvTotalLength strings = (marked 0 strings).length := by
  unfold argvTotalLength marked
  rw [List.length_flatMap]
  congr 2
  funext string
  rw [List.length_append, List.length_singleton]

theorem frameByte_copyFrom (strings : List (List UInt8)) (words : Nat → Nat)
    (offset position : Nat) :
    frameByte (strings.foldl (fun (state : (Nat → Nat) × Nat) string =>
      (copyBytes state.1 state.2 (string ++ [0]), state.2 + (string.length + 1)))
        (words, offset)).1 position =
      if offset ≤ position ∧ position < offset + (marked 0 strings).length then
        (marked 0 strings).getD (position - offset) 0
      else frameByte words position := by
  induction strings generalizing words offset with
  | nil =>
      rw [if_neg]
      · rfl
      · rintro ⟨above, below⟩
        have isEmpty : (marked (0 : UInt8) []).length = 0 := rfl
        omega
  | cons string strings induction =>
      rw [List.foldl_cons, induction]
      have isMarked : marked 0 (string :: strings) = (string ++ [0]) ++ marked 0 strings := rfl
      have length : string.length + 1 = (string ++ [(0 : UInt8)]).length := by
        rw [List.length_append, List.length_singleton]
      rw [isMarked, length]
      generalize string ++ [(0 : UInt8)] = piece
      rw [frameByte_copyBytes, List.length_append]
      by_cases inPiece : offset ≤ position ∧ position < offset + piece.length
      · rw [if_neg (by omega), if_pos inPiece, if_pos (by omega), List.getD_append _ _ _ _ (by omega)]
      · rw [if_neg inPiece]
        by_cases inRest : offset + piece.length ≤ position ∧
            position < offset + piece.length + (marked 0 strings).length
        · rw [if_pos inRest, if_pos (by omega), List.getD_append_right _ _ _ _ (by omega)]
          congr 1
          omega
        · rw [if_neg inRest, if_neg (by omega)]

theorem frameByte_copyStrings (strings : List (List UInt8)) (words : Nat → Nat) (position : Nat) :
    frameByte (copyStrings strings words) position =
      if position < (marked 0 strings).length then (marked 0 strings).getD position 0
      else frameByte words position := by
  have copied := frameByte_copyFrom strings words 0 position
  simp only [Nat.zero_le, true_and, Nat.zero_add, Nat.sub_zero] at copied
  exact copied

/-! ## What the loader leaves -/

section Ready

variable {kernel : Finset Nat} {ready next : System} {process : Process}
  {strings : List (List UInt8)}

def stackFrame (process : Process) : Nat := process.ustackPhys.getD (processStackPages - 1) 0

/-- The four words that `crt0` pops off the stack. -/
structure PushedAt (words : Nat → Nat) (heapEnd totalLength argc : Nat) : Prop where
  magic : words 1020 = bootstrapMagic
  heapEnd : words 1021 = heapEnd
  totalLength : words 1022 = totalLength
  argc : words 1023 = argc

theorem pushedAt_pushedWords (words : Nat → Nat) (heapEnd totalLength argc : Nat) :
    PushedAt (pushedWords words heapEnd totalLength argc) heapEnd totalLength argc := by
  constructor <;> rfl

/-- The process finds the strings at the beginning of its heap: the words go to another
frame. -/
theorem userLoad_arguments {machine : Machine} {held dirs tables : Finset Nat} {pdir frame : Nat}
    (mapped : Mapped machine held dirs tables) (isDir : pdir ∈ dirs)
    (spare : Spare machine held tables frame)
    (ok : (mapPage machine pdir (processHeap / 4096) (copyStrings strings)).2.phys.Ok)
    (short : (marked 0 strings).length ≤ 4096) (words : Nat → Nat) {index : Nat}
    (below : index < (marked 0 strings).length) :
    userLoad (Function.update
      (mapPage machine pdir (processHeap / 4096) (copyStrings strings)).2.memory frame words) pdir
      (processHeap + index) = some (marked 0 strings)[index] := by
  have maps := mapPage_maps mapped isDir processHeap_lt ok
  have small := (mapPage_frame mapped.counted.valid ok).2
  rcases maps.mapped with ⟨more, nextMapped, fresh⟩
  have later := spare.later (mapPage_grows mapped.counted.valid ok) fresh
  have free := (allocPage_spec mapped.counted.valid (ok_of_mapPage ok)).2.1
  have different : machine.phys.allocPage.1 ≠ frame := by
    intro same
    have counted := spare.counted
    rw [← same, free] at counted
    omega
  have entry := maps.entries _ isDir _ processHeap_lt
  have pageIs := maps.words _ isDir _ processHeap_lt
  rw [if_pos ⟨rfl, rfl⟩] at entry pageIs
  rw [pageWords_of_userEntry entry, pageAddr_makeEntry _ _ small, Option.some.injEq] at pageIs
  generalize (mapPage machine pdir (processHeap / 4096) (copyStrings strings)).2 = next at *
  rcases next with ⟨memory, phys⟩
  simp only at pageIs
  have sameEntry := (nextMapped.write later.notHeld later.notTable words).2 _ isDir _ processHeap_lt
  rw [entry] at sameEntry
  have isPage : (processHeap + index) / 4096 = processHeap / 4096 := by
    unfold processHeap
    omega
  have isPlace : (processHeap + index) % 4096 = index := by
    unfold processHeap
    omega
  rw [userLoad_eq, isPage, isPlace, pageWords_of_userEntry sameEntry, pageAddr_makeEntry _ _ small,
    Function.update_of_ne different, pageIs, Option.map_some, frameByte_copyStrings, if_pos below,
    List.getD_eq_getElem _ _ below]

theorem Ready.arguments (isReady : Ready kernel ready process strings next)
    (ok : next.machine.phys.Ok) :
    ∃ started, next.find process.pid = some started ∧ started.heapEnd = processHeap + 4096 ∧
      PushedAt (next.machine.memory (stackFrame started)) started.heapEnd
        (marked 0 strings).length strings.length ∧
      ∀ index (below : index < (marked 0 strings).length),
        userLoad next.machine.memory started.pdir (processHeap + index) =
          some (marked 0 strings)[index] := by
  have found := isReady.found ok
  rcases isReady.known with ⟨old, member, -, samePdir⟩
  rcases isReady.spare with ⟨tables, mapped, spare⟩
  rcases startProcess_eq isReady.started with ⟨machine, isMachine, rfl⟩
  rcases mapArguments_eq isMachine with ⟨short, rfl⟩
  have isDir : process.pdir ∈ ready.dirs := by
    rw [samePdir]
    exact System.pdir_mem member
  refine ⟨{ process with heapEnd := processHeap + 4096 }, found, rfl, ?_, fun index below => ?_⟩
  · have pushed := pushedAt_pushedWords ((mapPage ready.machine process.pdir (processHeap / 4096)
      (copyStrings strings)).2.memory (stackFrame process)) (processHeap + 4096)
      (argvTotalLength strings) strings.length
    unfold updateProcess
    simp only [pushWords_eq]
    rw [← argvTotalLength_eq]
    unfold stackFrame at pushed ⊢
    simp only [Function.update_self]
    exact pushed
  · unfold updateProcess
    simp only [pushWords_eq]
    exact userLoad_arguments mapped isDir spare ok (argvTotalLength_eq strings ▸ short) _ below

end Ready

/-! ## From the loader to `main` -/

theorem allocIncreaseMemory_eq {machine : Machine} {process : Process} {heap : Heap.KernHeap}
    {bytes : Nat} (sameEnd : process.heapEnd = heap.heapEnd)
    (bounded : heap.heapEnd + Heap.pagesFor bytes * 4096 < space) :
    allocIncreaseMemory heap (syscSbrk machine process (Heap.toInt bytes)).2 =
      increaseMemory heap bytes := by
  have rounds : ∀ count, heap.heapEnd + count * 4096 < space →
      Heap.increaseHeapPage^[count] heap =
        allocIncreaseMemory heap (heap.heapEnd + count * 4096) := by
    intro count inside
    induction count with
    | zero =>
        unfold allocIncreaseMemory
        simp
    | succ count induction =>
        have next : heap.heapEnd + (count + 1) * 4096 = heap.heapEnd + count * 4096 + 4096 := by
          rw [Nat.succ_mul, Nat.add_assoc]
        rw [next] at inside ⊢
        rw [Function.iterate_succ_apply',
          induction (Nat.lt_of_le_of_lt (Nat.le_add_right _ _) inside)]
        unfold Heap.increaseHeapPage allocIncreaseMemory Heap.pageByteLen
        rw [Heap.KernHeap.mk.injEq]
        refine ⟨?_, rfl, Nat.mod_eq_of_lt inside, rfl⟩
        simp only
        omega
  have inSpace : process.heapEnd < space := by omega
  have unchanged : allocIncreaseMemory heap heap.heapEnd = heap := by
    unfold allocIncreaseMemory
    simp
  unfold increaseMemory
  split
  case isTrue positive =>
    have small : bytes < 2 ^ 31 ∧ Heap.toInt bytes = bytes := by
      unfold Heap.toInt at positive ⊢
      split at positive
      case isTrue small => exact ⟨small, if_pos small⟩
      case isFalse =>
        unfold ByteMemory.space at positive
        unfold space at bounded
        unfold Heap.pagesFor Heap.pageByteLen at bounded
        split at bounded <;> omega
    have pages : (sbrkPages bytes).toNat = Heap.pagesFor bytes := by
      unfold sbrkPages Heap.pagesFor Heap.pageByteLen
      rw [show ((bytes : Int).tdiv 4096) = ((bytes / 4096 : Nat) : Int) by rfl,
        show ((bytes : Int).tmod 4096) = ((bytes % 4096 : Nat) : Int) by rfl]
      split <;> split <;> omega
    rw [small.2] at positive ⊢
    rw [@syscSbrk_of_pos machine process bytes positive, extendHeap_loop _ _ inSpace, pages,
      sameEnd]
    simp only
    rw [Nat.mod_eq_of_lt bounded]
    exact (rounds _ bounded).symm
  case isFalse notPositive =>
    rw [← sameEnd] at unchanged
    unfold syscSbrk
    split
    · exact unchanged
    · rw [sbrkPages_of_neg (by omega), loop_zero]
      exact unchanged

/-- The process that an operation starts, and the strings it passes. -/
def Operation.starts (system : System) : Operation → Option (Nat × List (List UInt8))
  | .spawn _ (some file) argv _ _ => some (system.procPid + 1, file.name :: argv)
  | .execve pid (some file) argv _ _ => some (pid, file.name :: argv)
  | _ => none

theorem ready_of_starts {kernel : Finset Nat} {system next : System} (sound : Sound kernel system)
    {operation : Operation} (inUserHalf : InUserHalf system operation) {pid : Nat}
    {strings : List (List UInt8)} (starts : operation.starts system = some (pid, strings))
    (stepped : step system operation = some next) (ok : next.machine.phys.Ok) :
    ∃ ready process, process.pid = pid ∧ Ready kernel ready process strings next := by
  cases operation with
  | spawn parent binary argv growth leftover =>
      rcases Option.bind_eq_some_iff.mp stepped with ⟨process, found, spawned⟩
      cases binary with
      | none => cases starts
      | some file =>
          cases starts
          exact Sound.spawnReady sound (System.of_find found).1 inUserHalf spawned ok
  | execve caller binary argv growth leftover =>
      rcases Option.bind_eq_some_iff.mp stepped with ⟨process, found, executed⟩
      cases binary with
      | none => cases starts
      | some file =>
          cases starts
          rcases Sound.execReady sound (System.of_find found).1 inUserHalf executed ok with
            ⟨ready, changed, samePid, isReady⟩
          exact ⟨ready, changed, samePid.trans (System.of_find found).2, isReady⟩
  | _ => cases starts

/-- The bytes that the process sees are in the memory. -/
def Shows (system : System) (process : Process) (memory : ByteMemory.Memory) : Prop :=
  ∀ address < userEnd, ∀ byte, userLoad system.machine.memory process.pdir address = some byte →
    ByteMemory.load memory address = byte

/-- With the words on its stack, `bootstrap` calls `main` with these strings. It overwrites
none of those that the kernel has passed, and its blocks lie inside of the heap. -/
def PassesArguments (memory : ByteMemory.Memory) (words : Nat → Nat) (strings : List (List UInt8)) :
    Prop :=
  ∃ arguments state blocks,
    bootstrap memory (words 1020) (words 1021) (words 1022) (words 1023) =
      some (.callsMain strings.length arguments state) ∧
    ArgumentsAt state.memory arguments strings strings.length ∧
    ByteMemory.SameOn allocHeapStart (allocHeapStart + (marked 0 strings).length) state.memory
      memory ∧
    Heap.Tiled state blocks

/-- What is packed is unpacked, whatever the page and the stack held before. -/
theorem passesArguments_packed {strings : List (List UInt8)}
    (clean : ∀ string ∈ strings, 0 ∉ string) (fits : FitsPage strings) (page stack : Nat → Nat)
    {memory : ByteMemory.Memory}
    (shows : ∀ index < 4096, ByteMemory.load memory (allocHeapStart + index) =
      frameByte (copyStrings strings page) index) :
    PassesArguments memory (pushedWords stack (processHeap + 4096) (argvTotalLength strings)
      strings.length) strings := by
  have packed : PackedAt memory strings := by
    intro index below
    have short := fits
    unfold FitsPage at short
    rw [shows index (by omega), frameByte_copyStrings, if_pos below,
      List.getD_eq_getElem _ _ below]
  have pushed := pushedAt_pushedWords stack (processHeap + 4096) (argvTotalLength strings)
    strings.length
  rcases bootstrap_callsMain packed fits clean with ⟨arguments, state, blocks, called⟩
  refine ⟨arguments, state, blocks, ?_⟩
  rw [pushed.magic, pushed.heapEnd, pushed.totalLength, pushed.argc, argvTotalLength_eq]
  exact called

theorem passesArguments_of_ready {kernel : Finset Nat} {ready next : System} {process : Process}
    {strings : List (List UInt8)} (clean : ∀ string ∈ strings, 0 ∉ string)
    (fits : FitsPage strings) (isReady : Ready kernel ready process strings next)
    (ok : next.machine.phys.Ok) :
    ∃ started, next.find process.pid = some started ∧
      started.heapEnd = next.machine.memory (stackFrame started) 1021 ∧
      ∀ memory, Shows next started memory →
        PassesArguments memory (next.machine.memory (stackFrame started)) strings := by
  rcases isReady.arguments ok with ⟨started, found, isEnd, pushed, loads⟩
  refine ⟨started, found, pushed.heapEnd.symm, fun memory shows => ?_⟩
  have packed : PackedAt memory strings := by
    intro index below
    have short := fits
    unfold FitsPage at short
    refine shows _ ?_ _ (loads index below)
    unfold allocHeapStart userEnd
    omega
  rcases bootstrap_callsMain packed fits clean with ⟨arguments, state, blocks, called⟩
  refine ⟨arguments, state, blocks, ?_⟩
  rw [pushed.magic, pushed.heapEnd, pushed.totalLength, pushed.argc, isEnd]
  exact called

/-- The page and the words that both loaders prepare make `bootstrap` call `main` with the
name and the arguments. In the runs in which every page structure is intact, the process
that is started has this page and these words. -/
theorem arguments_passed {strings : List (List UInt8)} (clean : ∀ string ∈ strings, 0 ∉ string)
    (fits : FitsPage strings) :
    (∀ page stack memory, (∀ index < 4096, ByteMemory.load memory (allocHeapStart + index) =
        frameByte (copyStrings strings page) index) →
      PassesArguments memory (pushedWords stack (processHeap + 4096) (argvTotalLength strings)
        strings.length) strings) ∧
      ∀ machine kernelDir heapEnd kernel, KernelBooted machine kernelDir kernel →
        ∀ operations operation system next,
          Admissible step InUserHalf (System.boot machine kernelDir heapEnd)
            (operations ++ [operation]) →
          run step (System.boot machine kernelDir heapEnd) operations = some system →
          step system operation = some next → next.machine.phys.Ok →
          ∀ pid, operation.starts system = some (pid, strings) →
            ∃ process, next.find pid = some process ∧
              process.heapEnd = next.machine.memory (stackFrame process) 1021 ∧
              ∀ memory, Shows next process memory →
                PassesArguments memory (next.machine.memory (stackFrame process)) strings := by
  refine ⟨fun page stack memory => passesArguments_packed clean fits page stack, ?_⟩
  intro machine kernelDir heapEnd kernel booted operations operation system next admissible reached
    stepped ok pid starts
  rcases admissible.append reached with ⟨before, last⟩
  have systemOk := ok_of_step system operation next stepped ok
  have sound := sound_of_run (sound_boot booted heapEnd) before reached systemOk
  rcases ready_of_starts sound last.1 starts stepped ok with ⟨ready, process, rfl, isReady⟩
  exact passesArguments_of_ready clean fits isReady ok

/-- The program `a` with the argument `x`. -/
def spawnWithArgument : Operation :=
  .spawn 1 (some (oneByteAt 0x10000000)) [[0x78]] ⟨0, 0, 0⟩ noLeftover

theorem arguments_passed_spawn : ∃ next process,
    step (System.boot kernelMachine 1 0) spawnWithArgument = some next ∧
      next.find 2 = some process ∧ ∀ memory, Shows next process memory →
        PassesArguments memory (next.machine.memory (stackFrame process)) [[0x61], [0x78]] := by
  have evaluated : (step (System.boot kernelMachine 1 0) spawnWithArgument).any (fun next =>
      !next.machine.phys.failed && !next.machine.phys.wrapped) = true := by
    decide +kernel
  have admissible : Admissible step InUserHalf (System.boot kernelMachine 1 0)
      ([] ++ [spawnWithArgument]) := by
    decide +kernel
  rcases (Option.any_eq_true _ _).mp evaluated with ⟨next, stepped, good⟩
  rw [Bool.and_eq_true, Bool.not_eq_true', Bool.not_eq_true'] at good
  have fits : FitsPage [[0x61], [0x78]] := by
    unfold FitsPage
    decide
  rcases (arguments_passed (by decide) fits).2 kernelMachine 1 0 _ booted_kernelMachine []
    spawnWithArgument _ next admissible rfl stepped good 2 rfl with ⟨process, found, -, passes⟩
  exact ⟨next, process, stepped, found, passes⟩

end Dbos.Loader
