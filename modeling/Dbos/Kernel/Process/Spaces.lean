import Dbos.Kernel.Memory.Fork
import Dbos.Kernel.Process.Pages

/-! # Processes and their address spaces

What `proc_create`, `proc_clone` and `proc_destroy` do to the page structures. -/

namespace Dbos.Paging

open Dbos.Loop Phys

/-- `PROCESS_STACK`, as the number of a page. -/
def processStack : Nat := 0x40000

/-- `PROCESS_STACK_PAGES`. -/
def processStackPages : Nat := 5

/-- The part of `proc_t` that concerns memory. `heapEnd` is an address. -/
structure Process where
  pid : Nat
  pdir : Nat
  ustackPhys : List Nat
  heapEnd : Nat

/-- The processes that have not been destroyed. -/
structure System where
  machine : Machine
  processes : List Process
  procPid : Nat

/-- The body of the loop of `map_kernel_tables`. -/
def mapKernelTable (current pdir : Nat) (machine : Machine) (index : Nat) : Machine :=
  let val := machine.memory current (768 + index)
  if val ≠ 0 ∧ val ≠ 0xFFFFFFFF then
    { machine with memory := setWord machine.memory pdir (768 + index) val }
  else machine

/-- `map_kernel_tables`. `kernel_pagedir` is mapped to the current directory. -/
def mapKernelTables (machine : Machine) (current pdir : Nat) : Machine :=
  let machine := { machine with memory := clearFrame machine.memory pdir }
  let machine := loop 256 (mapKernelTable current pdir) machine
  { machine with
    memory := setWord machine.memory pdir 1023 (setPageAddr (machine.memory pdir 1023) pdir) }

def mapStackPage (pdir : Nat) (state : Machine × List Nat) (index : Nat) : Machine × List Nat :=
  let (frame, machine) := mapPage state.1 pdir (processStack + index) zeroFill
  (machine, state.2 ++ [frame])

/-- The frames that the kernel heap takes at the three places where a function
that makes a process calls `kern_malloc`. -/
structure Growth where
  before : Nat
  between : Nat
  after : Nat

/-- `proc_create`, called while the directory `current` is in use. -/
def procCreate (system : System) (current : Nat) (growth : Growth) : System :=
  let machine := growHeap system.machine growth.before
  let pid := system.procPid + 1
  let (pdir, phys) := machine.phys.allocPage
  let machine := mapKernelTables { machine with phys } current pdir
  let machine := growHeap machine growth.between
  let (machine, ustackPhys) := loop processStackPages (mapStackPage pdir) (machine, [])
  { machine := growHeap machine growth.after
    processes := system.processes ++ [{ pid, pdir, ustackPhys, heapEnd := 0 }]
    procPid := pid }

def procClone (system : System) (parent : Process) (growth : Growth) : System :=
  let machine := growHeap system.machine growth.before
  let pid := system.procPid + 1
  let (pdir, machine) := clonePageStructures machine parent.pdir
  let machine := growHeap machine growth.between
  let machine := { machine with phys := parent.ustackPhys.foldl increaseRefcount machine.phys }
  { machine := growHeap machine growth.after
    processes := system.processes ++
      [{ pid, pdir, ustackPhys := parent.ustackPhys, heapEnd := parent.heapEnd }]
    procPid := pid }

def procDestroy (system : System) (process : Process) : System :=
  if process.pid = 1 then system
  else
    { system with
      machine := nukePageDirectory system.machine process.pdir
      processes := system.processes.filter fun other => other.pid ≠ process.pid }

/-! ## What they do to the address spaces -/

/-! ### Creating a process -/

/-- The entry of the kernel half that `map_kernel_tables` puts in a directory. -/
def createdKernelEntry (entry pdir index : Nat) : Nat :=
  let val := if entry ≠ 0 ∧ entry ≠ 0xFFFFFFFF then entry else 0
  if index = 1023 then setPageAddr val pdir else val

theorem mapKernelTable_spec (current pdir : Nat) (machine : Machine) (index : Nat) :
    (mapKernelTable current pdir machine index).phys = machine.phys ∧
      (∀ frame, frame ≠ pdir →
        (mapKernelTable current pdir machine index).memory frame = machine.memory frame) ∧
      ∀ place, place ≠ 768 + index → (mapKernelTable current pdir machine index).memory pdir place =
        machine.memory pdir place := by
  unfold mapKernelTable
  simp only
  split
  · exact ⟨rfl, fun frame different => setWord_frame_of_ne _ _ _ different,
      fun place different => setWord_of_ne _ _ (.inr different)⟩
  · exact ⟨rfl, fun _ _ => rfl, fun _ _ => rfl⟩

/-- What the loop of `map_kernel_tables` has done after `count` rounds. -/
structure KernelTables (machine : Machine) (current pdir count : Nat) (next : Machine) : Prop where
  phys : next.phys = machine.phys
  elsewhere : ∀ frame, frame ≠ pdir → next.memory frame = machine.memory frame
  empty : ∀ place < 768, next.memory pdir place = 0
  entries : current ≠ pdir → ∀ index, next.memory pdir (768 + index) =
    if index < count then
      let val := machine.memory current (768 + index)
      if val ≠ 0 ∧ val ≠ 0xFFFFFFFF then val else 0
    else 0

theorem KernelTables.next {machine next : Machine} {current pdir count : Nat}
    (sofar : KernelTables machine current pdir count next) :
    KernelTables machine current pdir (count + 1) (mapKernelTable current pdir next count) := by
  rcases mapKernelTable_spec current pdir next count with ⟨phys, others, places⟩
  refine ⟨phys.trans sofar.phys, fun frame different => ?_, fun place bound => ?_,
    fun different index => ?_⟩
  · rw [others frame different, sofar.elsewhere frame different]
  · rw [places place (by omega), sofar.empty place bound]
  · by_cases isLast : index = count
    · subst isLast
      rw [if_pos (Nat.lt_succ_self _)]
      unfold mapKernelTable
      simp only [sofar.elsewhere current different]
      split
      · exact setWord_self _ _ _ _
      · rw [sofar.entries different, if_neg (Nat.lt_irrefl _)]
    · rw [places _ (by omega), sofar.entries different]
      refine if_congr ?_ rfl rfl
      omega

theorem mapKernelTables_spec (machine : Machine) (current pdir : Nat) :
    ∃ memory, mapKernelTables machine current pdir = ⟨memory, machine.phys⟩ ∧
      (∀ frame, frame ≠ pdir → memory frame = machine.memory frame) ∧
      (∀ place < 768, memory pdir place = 0) ∧
      (current ≠ pdir → ∀ index, 768 ≤ index → index < 1024 →
        memory pdir index = createdKernelEntry (machine.memory current index) pdir index) := by
  have looped : ∃ next, loop 256 (mapKernelTable current pdir)
        ⟨clearFrame machine.memory pdir, machine.phys⟩ = next ∧
      KernelTables machine current pdir 256 next := by
    refine ⟨_, rfl, loop_invariant (motive := fun count (next : Machine) =>
      KernelTables machine current pdir count next) ?_ fun index _ next sofar => sofar.next⟩
    refine ⟨rfl, fun frame different => clearFrame_of_ne _ different,
      fun place _ => clearFrame_self _ _ _, fun _ index => ?_⟩
    rw [if_neg (Nat.not_lt_zero _)]
    exact clearFrame_self _ _ _
  rcases looped with ⟨next, isNext, done⟩
  unfold mapKernelTables
  simp only [isNext]
  refine ⟨_, by rw [done.phys], fun frame different => ?_, fun place bound => ?_,
    fun different index above bound => ?_⟩
  · rw [setWord_frame_of_ne _ _ _ different, done.elsewhere frame different]
  · rw [setWord_of_ne _ _ (.inr (by omega)), done.empty place bound]
  · have entry := done.entries different (index - 768)
    rw [Nat.add_sub_cancel' above, if_pos (by omega)] at entry
    unfold createdKernelEntry
    by_cases isLast : index = 1023
    · subst isLast
      rw [setWord_self, entry, if_pos rfl]
    · rw [setWord_of_ne _ _ (.inr isLast), entry, if_neg isLast]

/-- What a new process finds in its user half. -/
def stackWords (page : Nat) : Option (Nat → Nat) :=
  if processStack ≤ page ∧ page < processStack + processStackPages then some fun _ => 0 else none

theorem mapStackPage_eq (pdir : Nat) :
    mapStackPage pdir = mapNextPage pdir (fun index => processStack + index) zeroFill := rfl

theorem stack_lt {index : Nat} (bound : index < processStackPages) :
    processStack + index < userPages := by
  unfold processStackPages at bound
  unfold processStack userPages
  omega

/-- A process has been added, and the others see what they saw. -/
structure Adds (system next : System) (held dirs : Finset Nat) (process : Process) : Prop where
  isNew : process.pdir ∉ held
  isPid : process.pid = system.procPid + 1
  processes : next.processes = system.processes ++ [process]
  procPid : next.procPid = system.procPid + 1
  mapped : ∃ tables, Mapped next.machine (insert process.pdir held) (insert process.pdir dirs) tables
  words : ∀ dir ∈ dirs, ∀ page < userPages,
    pageWords next.machine.memory dir page = pageWords system.machine.memory dir page
  same : ∀ frame ∈ held, next.machine.memory frame = system.machine.memory frame

/-- The process has nothing but an empty stack. -/
structure Creates (system next : System) (held dirs : Finset Nat) (current : Nat)
    (process : Process) : Prop extends Adds system next held dirs process where
  stack : ∀ page < userPages,
    pageWords next.machine.memory process.pdir page = stackWords page
  kernel : current ∈ held → ∀ index, 768 ≤ index → index < 1024 →
    next.machine.memory process.pdir index =
      createdKernelEntry (system.machine.memory current index) process.pdir index
  last : ∃ frame < frameCount, process.ustackPhys.getD (processStackPages - 1) 0 = frame ∧
    userEntry next.machine.memory process.pdir (processStack + (processStackPages - 1)) =
      some (makeEntry 1 1 frame)

/-- The process sees what its parent sees. -/
structure Clones (system next : System) (held dirs : Finset Nat) (parent process : Process) :
    Prop extends Adds system next held dirs process where
  copied : ∀ page < userPages, pageWords next.machine.memory process.pdir page =
    pageWords system.machine.memory parent.pdir page
  kernel : ∀ index, 768 ≤ index → index < 1024 → next.machine.memory process.pdir index =
    clonedKernelEntry (system.machine.memory parent.pdir index) process.pdir index

section Processes

variable {system : System} {held dirs tables : Finset Nat}

/-- The machine between the parts of `proc_create`: with the block for the process, with
the directory and with the stack. -/
structure CreateSteps (system : System) (current : Nat) (growth : Growth) (heap ready : Machine)
    (stacked : Machine × List Nat) : Prop where
  isHeap : heap = growHeap system.machine growth.before
  isReady : ready = growHeap (mapKernelTables ⟨heap.memory, heap.phys.allocPage.2⟩ current
    heap.phys.allocPage.1) growth.between
  isStack : stacked = loop processStackPages (mapStackPage heap.phys.allocPage.1) (ready, [])
  isCreate : procCreate system current growth =
    ⟨growHeap stacked.1 growth.after,
      system.processes ++ [⟨system.procPid + 1, heap.phys.allocPage.1, stacked.2, 0⟩],
      system.procPid + 1⟩

theorem procCreate_steps (system : System) (current : Nat) (growth : Growth) :
    ∃ heap ready stacked, CreateSteps system current growth heap ready stacked :=
  ⟨_, _, _, rfl, rfl, rfl, rfl⟩

/-- The directory `pdir` has been filled like `current`. -/
structure FillsDirectory (machine ready : Machine) (held dirs tables : Finset Nat)
    (current pdir : Nat) : Prop where
  isNew : pdir ∉ held
  mapped : Mapped ready (insert pdir held) (insert pdir dirs) tables
  grows : Grows machine.phys ready.phys
  keeps : Keeps ready.memory machine.memory dirs tables
  elsewhere : ∀ frame, frame ≠ pdir → ready.memory frame = machine.memory frame
  empty : ∀ place < 768, ready.memory pdir place = 0
  entries : current ≠ pdir → ∀ index, 768 ≤ index → index < 1024 →
    ready.memory pdir index = createdKernelEntry (machine.memory current index) pdir index

section Steps

variable {current : Nat} {growth : Growth} {heap ready : Machine} {stacked : Machine × List Nat}

theorem CreateSteps.ok (steps : CreateSteps system current growth heap ready stacked)
    (ok : (procCreate system current growth).machine.phys.Ok) :
    heap.phys.Ok ∧ heap.phys.allocPage.2.Ok ∧ ready.phys.Ok ∧ stacked.1.phys.Ok := by
  rw [steps.isCreate] at ok
  have stackOk := ok_of_growHeap ok
  have loopOk := stackOk
  rw [steps.isStack] at loopOk
  have readyOk := guard_of_loop (fun state : Machine × List Nat => state.1.phys.Ok)
    (fun _ _ => ok_of_mapNextPage) loopOk
  have tablesOk := readyOk
  simp only [steps.isReady] at tablesOk
  have allocOk := ok_of_growHeap tablesOk
  rcases mapKernelTables_spec ⟨heap.memory, heap.phys.allocPage.2⟩ current heap.phys.allocPage.1
    with ⟨memory, isMemory, -⟩
  rw [isMemory] at allocOk
  exact ⟨ok_of_allocPage allocOk, allocOk, readyOk, stackOk⟩

theorem ok_of_procCreate (ok : (procCreate system current growth).machine.phys.Ok) :
    system.machine.phys.Ok := by
  rcases procCreate_steps system current growth with ⟨heap, ready, stacked, steps⟩
  have heapOk := (steps.ok ok).1
  rw [steps.isHeap] at heapOk
  exact ok_of_growHeap heapOk

theorem CreateSteps.fillsDirectory (steps : CreateSteps system current growth heap ready stacked)
    (mapped : Mapped system.machine held dirs tables)
    (ok : (procCreate system current growth).machine.phys.Ok) :
    FillsDirectory system.machine ready held dirs tables current heap.phys.allocPage.1 := by
  rcases steps.ok ok with ⟨heapOk, allocOk, readyOk, -⟩
  rw [steps.isHeap] at heapOk
  have heapMapped := growHeap_mapped mapped heapOk
  have heapGrows := growHeap_grows mapped.counted.valid heapOk
  rw [← steps.isHeap] at heapMapped heapGrows
  have heapMemory : heap.memory = system.machine.memory := by
    rw [steps.isHeap]
    rfl
  rcases mapKernelTables_spec ⟨heap.memory, heap.phys.allocPage.2⟩ current heap.phys.allocPage.1
    with ⟨memory, isMemory, elsewhere, empty, entries⟩
  rcases heapMapped.newDirectory allocOk elsewhere empty with ⟨isNew, dirMapped, keeps⟩
  have isReady := steps.isReady
  rw [isMemory] at isReady
  rw [isReady] at readyOk
  have readyMapped := growHeap_mapped dirMapped readyOk
  have readyGrows := growHeap_grows dirMapped.counted.valid readyOk
  rw [← isReady] at readyMapped readyGrows
  have readyMemory : ready.memory = memory := by
    rw [isReady]
    rfl
  rw [← readyMemory, heapMemory] at elsewhere entries keeps
  rw [← readyMemory] at empty
  have grows := (heapGrows.trans (allocPage_grows heapMapped.counted.valid allocOk)).trans
    readyGrows
  exact ⟨isNew, readyMapped, grows, keeps, elsewhere, empty, entries⟩

theorem CreateSteps.maps (steps : CreateSteps system current growth heap ready stacked)
    (mapped : Mapped system.machine held dirs tables)
    (ok : (procCreate system current growth).machine.phys.Ok) :
    MapsPages ready stacked (insert heap.phys.allocPage.1 held) (insert heap.phys.allocPage.1 dirs)
      tables heap.phys.allocPage.1 processStack processStackPages zeroFill := by
  have loopOk := (steps.ok ok).2.2.2
  rw [steps.isStack, mapStackPage_eq] at loopOk
  have maps := mapsPages_loop (steps.fillsDirectory mapped ok).mapped (Finset.mem_insert_self _ _)
    (fun _ _ => rfl) (fun index less => stack_lt less) loopOk
  rwa [← mapStackPage_eq, ← steps.isStack] at maps

/-- `proc_create` adds a process that has nothing but an empty stack. -/
theorem procCreate_spec (mapped : Mapped system.machine held dirs tables)
    (ok : (procCreate system current growth).machine.phys.Ok) :
    ∃ process, Creates system (procCreate system current growth) held dirs current process := by
  rcases procCreate_steps system current growth with ⟨heap, ready, stacked, steps⟩
  have filled := steps.fillsDirectory mapped ok
  have maps := steps.maps mapped ok
  rw [steps.isCreate] at ok ⊢
  rcases maps.mapped with ⟨more, stackMapped, -⟩
  have finalMapped := growHeap_mapped stackMapped ok
  refine ⟨_, ⟨⟨filled.isNew, rfl, rfl, rfl, ⟨more, finalMapped⟩, fun dir isDir page bound => ?_,
    fun frame isHeld => ?_⟩, fun page bound => ?_, fun isCurrent index above bound => ?_, ?_⟩⟩
  · have different : dir ≠ heap.phys.allocPage.1 := fun same =>
      filled.isNew (same ▸ mapped.subset isDir)
    have outside := (maps.outside dir (Finset.mem_insert_of_mem isDir) page bound
      fun both => different both.1).2
    rw [filled.keeps.pageWords mapped.links isDir bound] at outside
    exact outside
  · have different : frame ≠ heap.phys.allocPage.1 := fun same => filled.isNew (same ▸ isHeld)
    funext index
    have kept := maps.kernel frame (Finset.mem_insert_of_mem isHeld) index (.inl different)
    rw [filled.elsewhere frame different] at kept
    exact kept
  · unfold stackWords
    by_cases inside : processStack ≤ page ∧ page < processStack + processStackPages
    · rw [if_pos inside]
      rcases maps.inside (page - processStack) (by omega) with ⟨old, -, words⟩
      rw [Nat.add_sub_cancel' inside.1] at words
      exact words
    · rw [if_neg inside]
      have outside := (maps.outside _ (Finset.mem_insert_self _ _) page bound
        fun both => inside both.2).2
      refine outside.trans (pageWords_of_absent (.inl ?_))
      rw [filled.empty _ (div_lt_of_lt_userPages bound), presentBit_zero]
  · have different : current ≠ heap.phys.allocPage.1 := fun same => filled.isNew (same ▸ isCurrent)
    have kept := maps.kernel _ (Finset.mem_insert_self _ _) index (.inr above)
    rw [filled.entries different index above bound] at kept
    exact kept
  · rcases maps.frames (processStackPages - 1) (by decide) with ⟨frame, isFrame, small, entry⟩
    refine ⟨frame, small, ?_, entry⟩
    simp only
    rw [List.getD_eq_getElem?_getD, isFrame]
    rfl

end Steps

/-! ### Cloning a process -/

theorem ok_of_increaseAll {frames : List Nat} {phys : Phys}
    (ok : (frames.foldl increaseRefcount phys).Ok) : phys.Ok := by
  induction frames generalizing phys with
  | nil => exact ok
  | cons frame frames induction => exact ok_of_increaseRefcount (induction ok)

theorem increaseAll_grows {frames : List Nat} {phys : Phys} (valid : phys.Valid)
    (ok : (frames.foldl increaseRefcount phys).Ok) :
    Grows phys (frames.foldl increaseRefcount phys) := by
  induction frames generalizing phys with
  | nil => exact .refl phys
  | cons frame frames induction =>
      have first := increaseRefcount_grows valid (ok_of_increaseAll ok)
      exact first.trans (induction (first.same.valid valid) ok)

theorem procClone_eq (system : System) (parent : Process) (growth : Growth) :
    ∃ heap pdir cloned ready, heap = growHeap system.machine growth.before ∧
      clonePageStructures heap parent.pdir = (pdir, cloned) ∧
      ready = growHeap cloned growth.between ∧
      procClone system parent growth =
        ⟨growHeap ⟨ready.memory, parent.ustackPhys.foldl increaseRefcount ready.phys⟩ growth.after,
          system.processes ++ [⟨system.procPid + 1, pdir, parent.ustackPhys, parent.heapEnd⟩],
          system.procPid + 1⟩ :=
  ⟨_, _, _, _, rfl, rfl, rfl, rfl⟩

theorem ok_of_procClone {parent : Process} {growth : Growth}
    (ok : (procClone system parent growth).machine.phys.Ok) : system.machine.phys.Ok := by
  rcases procClone_eq system parent growth with ⟨heap, pdir, cloned, ready, isHeap, isClone,
    isReady, isResult⟩
  rw [isResult] at ok
  have readyOk : ready.phys.Ok := ok_of_increaseAll (ok_of_growHeap ok)
  rw [isReady] at readyOk
  have clonedOk := ok_of_growHeap readyOk
  have heapOk : heap.phys.Ok := by
    have cloneOk : (clonePageStructures heap parent.pdir).2.phys.Ok := by
      rw [isClone]
      exact clonedOk
    exact ok_of_allocPage (ok_of_clonePageStructures cloneOk)
  rw [isHeap] at heapOk
  exact ok_of_growHeap heapOk

theorem procClone_spec (mapped : Mapped system.machine held dirs tables) {parent : Process}
    (isDir : parent.pdir ∈ dirs) {growth : Growth}
    (ok : (procClone system parent growth).machine.phys.Ok) :
    ∃ process, Clones system (procClone system parent growth) held dirs parent process := by
  rcases procClone_eq system parent growth with ⟨heap, pdir, cloned, ready, isHeap, isClone,
    isReady, isResult⟩
  rw [isResult] at ok ⊢
  have stackOk := ok_of_growHeap ok
  have readyOk : ready.phys.Ok := ok_of_increaseAll stackOk
  rw [isReady] at readyOk
  have clonedOk := ok_of_growHeap readyOk
  have cloneOk : (clonePageStructures heap parent.pdir).2.phys.Ok := by
    rw [isClone]
    exact clonedOk
  have heapOk := ok_of_allocPage (ok_of_clonePageStructures cloneOk)
  rw [isHeap] at heapOk
  have heapMapped := growHeap_mapped mapped heapOk
  rw [← isHeap] at heapMapped
  have spec := clonePageStructures_cloning heapMapped isDir cloneOk
  rw [isClone] at spec
  rcases spec with ⟨isNew, more, cloning⟩
  have readyMapped := growHeap_mapped cloning.mapped readyOk
  rw [← isReady] at readyMapped
  have stackMapped := readyMapped.grow (increaseAll_grows readyMapped.counted.valid stackOk)
  have finalMapped := growHeap_mapped stackMapped ok
  have readyMemory : ready.memory = cloned.memory := by
    rw [isReady]
    rfl
  have heapMemory : heap.memory = system.machine.memory := by
    rw [isHeap]
    rfl
  refine ⟨_, ⟨⟨isNew, rfl, rfl, rfl, ⟨more, finalMapped⟩, fun dir isDir page bound => ?_,
    fun frame isHeld => ?_⟩, fun page bound => ?_, fun index above bound => ?_⟩⟩
  · have kept := cloning.keeps.pageWords heapMapped.links isDir bound
    rw [heapMemory, ← readyMemory] at kept
    exact kept
  · have kept := cloning.same frame isHeld
    rw [heapMemory, ← readyMemory] at kept
    exact kept
  · have copied := (cloning.copied (page / 1024) (div_lt_of_lt_userPages bound)
      (by have index := div_lt_of_lt_userPages bound; omega)).pageWords
    rw [heapMemory, ← readyMemory] at copied
    exact copied
  · have entry := cloning.kernel index above
    rw [if_pos bound, heapMemory, ← readyMemory] at entry
    exact entry

end Processes

end Dbos.Paging
