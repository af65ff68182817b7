import Dbos.Kernel.Process.KernelHalf
import Dbos.Kernel.Process.Loader

/-! # Requests that stay in the user half

As long as no process asks for pages at `0xC0000000` or above, every operation
keeps the address spaces in order. -/

namespace Dbos.Loader

open Dbos.Loop Dbos.Paging Dbos.Execution Phys

/-! ## `sysc_sbrk` maps pages in a row -/

/-- The page that round `index` of the loop maps. -/
def heapPage (heapEnd index : Nat) : Nat := (heapEnd + index * 4096) % space / 4096

theorem extendHeap_loop (pdir : Nat) (machine : Machine) {heapEnd : Nat} (small : heapEnd < space)
    (count : Nat) :
    loop count (extendHeap pdir) (machine, heapEnd) =
      ((loop count (mapNextPage pdir (heapPage heapEnd) id) (machine, [])).1,
        (heapEnd + count * 4096) % space) := by
  induction count with
  | zero => simp [Nat.mod_eq_of_lt small]
  | succ count induction =>
      rw [loop_succ, loop_succ, induction, mapNextPage_eq]
      unfold extendHeap heapPage
      rw [Nat.mod_add_mod]
      congr 2
      omega

theorem heapPage_eq {heapEnd index : Nat} (bound : heapEnd / 4096 + index < userPages) :
    heapPage heapEnd index = heapEnd / 4096 + index := by
  unfold heapPage
  unfold userPages at bound
  rw [Nat.mod_eq_of_lt]
  · omega
  · unfold space
    omega

section Machines

variable {machine next : Machine} {held dirs tables more : Finset Nat} {pdir frame : Nat}

theorem ok_of_syscSbrk {process : Process} {bytes : Int}
    (ok : (syscSbrk machine process bytes).1.phys.Ok) : machine.phys.Ok := by
  by_cases positive : bytes > 0
  · rw [syscSbrk_of_pos positive] at ok
    exact guard_of_loop (fun state : Machine × Nat => state.1.phys.Ok)
      (fun _ _ nextOk => ok_of_allocPage (ok_of_mapPage nextOk)) ok
  · rw [syscSbrk_of_not_pos positive] at ok
    exact ok

/-- The pages that are asked for are below `0xC0000000`. -/
def HeapInUserHalf (heapEnd : Nat) (bytes : Int) : Prop :=
  (sbrkPages bytes).toNat = 0 ∨ heapEnd / 4096 + (sbrkPages bytes).toNat ≤ userPages

instance (heapEnd : Nat) (bytes : Int) : Decidable (HeapInUserHalf heapEnd bytes) :=
  inferInstanceAs (Decidable (_ ∨ _))

/-- A positive request maps pages with the old contents of the frames. -/
theorem syscSbrk_maps (mapped : Mapped machine held dirs tables) {process : Process}
    (isDir : process.pdir ∈ dirs) {bytes : Int} (positive : bytes > 0)
    (inUserHalf : process.heapEnd / 4096 + (sbrkPages bytes).toNat ≤ userPages)
    (small : process.heapEnd < space) (ok : (syscSbrk machine process bytes).1.phys.Ok) :
    ∃ state, state = loop (sbrkPages bytes).toNat
        (mapNextPage process.pdir (heapPage process.heapEnd) id) (machine, []) ∧
      (syscSbrk machine process bytes).1 = state.1 ∧
      MapsPages machine state held dirs tables process.pdir (process.heapEnd / 4096)
        (sbrkPages bytes).toNat id := by
  refine ⟨_, rfl, ?_⟩
  rw [syscSbrk_of_pos positive, extendHeap_loop _ _ small] at ok ⊢
  have less : ∀ index < (sbrkPages bytes).toNat,
      process.heapEnd / 4096 + index < userPages := fun index below => by omega
  exact ⟨rfl, mapsPages_loop mapped isDir (fun index below => heapPage_eq (less index below)) less
    ok⟩

theorem syscSbrk_spec (mapped : Mapped machine held dirs tables) {process : Process}
    (isDir : process.pdir ∈ dirs) {bytes : Int}
    (inUserHalf : HeapInUserHalf process.heapEnd bytes)
    (ok : (syscSbrk machine process bytes).1.phys.Ok) :
    (∃ more, Mapped (syscSbrk machine process bytes).1 held dirs more) ∧
      KeepsKernel machine.memory (syscSbrk machine process bytes).1.memory held process.pdir := by
  by_cases positive : bytes > 0
  · rcases inUserHalf with nothing | below
    · rw [syscSbrk_of_pos positive, nothing, loop_zero]
      exact ⟨⟨tables, mapped⟩, .refl _ _ _⟩
    · have small : process.heapEnd < space := by
        unfold userPages at below
        unfold space
        omega
      rcases syscSbrk_maps mapped isDir positive below small ok with ⟨state, -, isState, maps⟩
      rw [isState]
      rcases maps.mapped with ⟨more, nextMapped, -⟩
      exact ⟨⟨more, nextMapped⟩, maps.kernel⟩
  · rw [syscSbrk_of_not_pos positive]
    exact ⟨⟨tables, mapped⟩, .refl _ _ _⟩

/-! ## The last page of the stack -/

/-- The frame is in use, but not by a page structure. -/
structure Spare (machine : Machine) (held tables : Finset Nat) (frame : Nat) : Prop where
  notHeld : frame ∉ held
  notTable : frame ∉ tables
  managed : machine.phys.Managed frame
  counted : 1 ≤ machine.phys.refcount frame

theorem spare_of_userEntry (mapped : Mapped machine held dirs tables) (isDir : pdir ∈ dirs)
    {page : Nat} (bound : page < userPages) {word : Nat}
    (found : userEntry machine.memory pdir page = some word) :
    Spare machine held tables (pageAddr word) := by
  rcases present_of_userEntry found with ⟨present, isWord, wordPresent⟩
  have isSlot := slotOf_mem mapped.links isDir bound present
  have named := mapped.counted.named _ isSlot (isWord ▸ wordPresent)
  simp only [isWord] at named
  have isNaming : slotOf machine.memory pdir page ∈
      naming machine.memory (tableEntries tables) (pageAddr word) :=
    mem_naming.mpr ⟨isSlot, isWord ▸ wordPresent, congrArg pageAddr isWord⟩
  exact ⟨named.2.1, named.2.2.1, named.1,
    (Finset.card_pos.mpr ⟨_, isNaming⟩).trans_le (mapped.counted.counted _ named.1)⟩

theorem Spare.later (spare : Spare machine held tables frame) (grows : Grows machine.phys next.phys)
    (fresh : ∀ table ∈ more, table ∈ tables ∨ machine.phys.refcount table = 0) :
    Spare next held more frame := by
  have counted := spare.counted
  refine ⟨spare.notHeld, fun isTable => ?_, (grows.same.managed_iff _).mpr spare.managed,
    counted.trans (grows.refcount _ spare.managed)⟩
  rcases fresh frame isTable with isOld | free
  · exact spare.notTable isOld
  · omega

/-- The words of the frame when the four words have been pushed. -/
def pushedWords (words : Nat → Nat) (heapEnd totalLength argc : Nat) : Nat → Nat :=
  Function.update (Function.update (Function.update (Function.update words 1020 0xDB05DB05) 1021
    heapEnd) 1022 totalLength) 1023 argc

theorem pushWords_eq (memory : Memory) (frame heapEnd totalLength argc : Nat) :
    pushWords memory frame heapEnd totalLength argc =
      Function.update memory frame (pushedWords (memory frame) heapEnd totalLength argc) := by
  unfold pushWords pushedWords setWord
  simp only [Function.update_self, Function.update_idem]

/-! ## The arguments -/

theorem mapArguments_eq {strings : List (List UInt8)}
    (mapped : mapArguments machine pdir strings = some next) :
    argvTotalLength strings ≤ 4096 ∧
      next = (mapPage machine pdir (processHeap / 4096) (copyStrings strings)).2 := by
  unfold mapArguments at mapped
  rw [Option.ite_none_right_eq_some, Option.some.injEq] at mapped
  exact ⟨mapped.1, mapped.2.symm⟩

theorem processHeap_lt : processHeap / 4096 < userPages := by decide

theorem arguments_spec (mapped : Mapped machine held dirs tables) (isDir : pdir ∈ dirs)
    (spare : Spare machine held tables frame) {strings : List (List UInt8)}
    (isNext : mapArguments machine pdir strings = some next) (ok : next.phys.Ok)
    (heapEnd totalLength argc : Nat) :
    (∃ more, Mapped ⟨pushWords next.memory frame heapEnd totalLength argc, next.phys⟩ held dirs
      more) ∧
      KeepsKernel machine.memory (pushWords next.memory frame heapEnd totalLength argc) held
        pdir := by
  rcases mapArguments_eq isNext with ⟨-, rfl⟩
  have maps := mapPage_maps mapped isDir processHeap_lt ok
  have grows := mapPage_grows mapped.counted.valid ok
  rcases maps.mapped with ⟨more, nextMapped, fresh⟩
  have later := spare.later grows fresh
  rw [pushWords_eq]
  constructor
  · exact ⟨more, (nextMapped.write later.notHeld later.notTable _).1⟩
  · exact (KeepsKernel.write later.notHeld pdir _).trans
      (mapPage_keepsKernel mapped isDir processHeap_lt ok)

end Machines

/-! ## Systems -/

section Systems

variable {kernel : Finset Nat} {system next : System} {process : Process}

theorem Sound.change (sound : Sound kernel system) {pdir : Nat} (isDir : pdir ∈ system.dirs)
    {machine : Machine}
    (mapped : ∃ tables, Mapped machine (kernel ∪ system.dirs) system.dirs tables)
    (keeps : KeepsKernel system.machine.memory machine.memory (kernel ∪ system.dirs) pdir) :
    Sound kernel { system with machine } :=
  ⟨⟨mapped, sound.apart, sound.pids, sound.pdirs, sound.bound⟩,
    sound.half.keeps sound.apart isDir keeps⟩

theorem map_updateProcess {Value : Type} (field : Process → Value)
    (same : ∀ other ∈ system.processes, other.pid = process.pid → field other = field process) :
    (updateProcess system process).processes.map field = system.processes.map field := by
  unfold updateProcess
  rw [List.map_map]
  refine List.map_congr_left fun other member => ?_
  simp only [Function.comp_apply]
  split
  case isTrue samePid => exact (same other member samePid).symm
  case isFalse => rfl

theorem dirs_updateProcess (samePdir : ∀ other ∈ system.processes, other.pid = process.pid →
    other.pdir = process.pdir) : (updateProcess system process).dirs = system.dirs := by
  unfold System.dirs
  rw [map_updateProcess _ samePdir]

theorem Sound.update (sound : Sound kernel system) {old : Process}
    (member : old ∈ system.processes) (samePid : process.pid = old.pid)
    (samePdir : process.pdir = old.pdir) : Sound kernel (updateProcess system process) := by
  have isOld : ∀ other ∈ system.processes, other.pid = process.pid →
      other.pdir = process.pdir := by
    intro other isMember isPid
    rw [sound.eq_of_pid member isMember (isPid.trans samePid), samePdir]
  have pids : (updateProcess system process).processes.map Process.pid =
      system.processes.map Process.pid := map_updateProcess _ fun _ _ isPid => isPid
  have pdirs : (updateProcess system process).processes.map Process.pdir =
      system.processes.map Process.pdir := map_updateProcess _ isOld
  have dirs := dirs_updateProcess isOld
  refine ⟨⟨?_, ?_, pids ▸ sound.pids, pdirs ▸ sound.pdirs, fun other isMember => ?_⟩, ?_⟩
  · rw [dirs]
    exact sound.mapped
  · rw [dirs]
    exact sound.apart
  · have isPid : other.pid ∈ (updateProcess system process).processes.map Process.pid :=
      List.mem_map_of_mem isMember
    rw [pids] at isPid
    rcases List.mem_map.mp isPid with ⟨before, isBefore, same⟩
    rw [← same]
    exact sound.bound before isBefore
  · rw [dirs]
    exact sound.half

theorem startProcess_eq {strings : List (List UInt8)}
    (started : startProcess system process strings = some next) :
    ∃ machine, mapArguments system.machine process.pdir strings = some machine ∧
      next = updateProcess { system with machine := ⟨pushWords machine.memory
        (process.ustackPhys.getD (processStackPages - 1) 0) (processHeap + 4096)
        (argvTotalLength strings) strings.length, machine.phys⟩ }
        { process with heapEnd := processHeap + 4096 } := by
  rcases Option.map_eq_some_iff.mp started with ⟨machine, isMachine, rfl⟩
  exact ⟨machine, isMachine, rfl⟩

theorem ok_of_startProcess {strings : List (List UInt8)}
    (started : startProcess system process strings = some next) (ok : next.machine.phys.Ok) :
    system.machine.phys.Ok := by
  rcases startProcess_eq started with ⟨machine, isMachine, rfl⟩
  rcases mapArguments_eq isMachine with ⟨-, rfl⟩
  exact ok_of_allocPage (ok_of_mapPage ok)

theorem Sound.start (sound : Sound kernel system) {old : Process} (member : old ∈ system.processes)
    {strings : List (List UInt8)} (started : startProcess system process strings = some next)
    (samePid : process.pid = old.pid) (samePdir : process.pdir = old.pdir)
    (spare : ∃ tables, Mapped system.machine (kernel ∪ system.dirs) system.dirs tables ∧
      Spare system.machine (kernel ∪ system.dirs) tables
        (process.ustackPhys.getD (processStackPages - 1) 0))
    (ok : next.machine.phys.Ok) : Sound kernel next := by
  rcases startProcess_eq started with ⟨machine, isMachine, rfl⟩
  rcases spare with ⟨tables, mapped, isSpare⟩
  have isDir : process.pdir ∈ system.dirs := by
    rw [samePdir]
    exact System.pdir_mem member
  have spec := arguments_spec mapped isDir isSpare isMachine ok (processHeap + 4096)
    (argvTotalLength strings) strings.length
  exact Sound.update (Sound.change sound isDir spec.1 spec.2) member samePid samePdir

/-- All that is missing are the arguments. The last frame of the stack is `Spare`. -/
structure Ready (kernel : Finset Nat) (ready : System) (process : Process)
    (strings : List (List UInt8)) (next : System) : Prop where
  sound : Sound kernel ready
  known : ∃ old ∈ ready.processes, process.pid = old.pid ∧ process.pdir = old.pdir
  spare : ∃ tables, Mapped ready.machine (kernel ∪ ready.dirs) ready.dirs tables ∧
    Spare ready.machine (kernel ∪ ready.dirs) tables
      (process.ustackPhys.getD (processStackPages - 1) 0)
  started : startProcess ready process strings = some next

theorem Ready.soundNext {ready : System} {strings : List (List UInt8)}
    (isReady : Ready kernel ready process strings next) (ok : next.machine.phys.Ok) :
    Sound kernel next := by
  rcases isReady.known with ⟨old, member, samePid, samePdir⟩
  exact Sound.start isReady.sound member isReady.started samePid samePdir isReady.spare ok

theorem Ready.found {ready : System} {strings : List (List UInt8)}
    (isReady : Ready kernel ready process strings next)
    (ok : next.machine.phys.Ok) :
    next.find process.pid = some { process with heapEnd := processHeap + 4096 } := by
  have sound := isReady.soundNext ok
  rcases isReady.known with ⟨old, member, samePid, -⟩
  rcases startProcess_eq isReady.started with ⟨machine, -, rfl⟩
  have isMember : { process with heapEnd := processHeap + 4096 } ∈
      (updateProcess _ { process with heapEnd := processHeap + 4096 }).processes :=
    List.mem_map.mpr ⟨old, member, if_pos samePid.symm⟩
  exact sound.toCoherent.find_eq isMember

theorem Ready.short {ready : System} {strings : List (List UInt8)}
    (isReady : Ready kernel ready process strings next) :
    argvTotalLength strings ≤ 4096 := by
  rcases startProcess_eq isReady.started with ⟨machine, isMachine, -⟩
  exact (mapArguments_eq isMachine).1

theorem Ready.allocOk {ready : System} {strings : List (List UInt8)}
    (isReady : Ready kernel ready process strings next)
    (ok : next.machine.phys.Ok) : ready.machine.phys.allocPage.2.Ok := by
  rcases startProcess_eq isReady.started with ⟨machine, isMachine, rfl⟩
  rcases mapArguments_eq isMachine with ⟨-, rfl⟩
  exact ok_of_mapPage ok

theorem Ready.dirs {ready : System} {strings : List (List UInt8)}
    (isReady : Ready kernel ready process strings next) : next.dirs = ready.dirs := by
  rcases isReady.known with ⟨old, member, samePid, samePdir⟩
  rcases startProcess_eq isReady.started with ⟨machine, -, rfl⟩
  refine dirs_updateProcess fun other isMember isPid => ?_
  rw [isReady.sound.eq_of_pid member isMember (isPid.trans samePid), samePdir]

/-! ### `loader_spawn` -/

/-- All segments that are loaded lie below `0xC0000000`. -/
def SegmentsInUserHalf (file : File) (leftover : Leftover) : Prop :=
  ∀ segment ∈ segmentsOf file leftover, segment.Loadable → segment.InUserHalf

instance (file : File) (leftover : Leftover) : Decidable (SegmentsInUserHalf file leftover) :=
  inferInstanceAs (Decidable (∀ segment ∈ segmentsOf file leftover, _))

theorem Sound.load (sound : Sound kernel system) (member : process ∈ system.processes)
    {file : File} {leftover : Leftover} (inUserHalf : SegmentsInUserHalf file leftover)
    {machine : Machine}
    (loaded : elfLoadExecutable file leftover process.pdir system.machine = some machine)
    (ok : machine.phys.Ok) : Sound kernel { system with machine } := by
  rcases sound.mapped with ⟨tables, mapped⟩
  have alters := elfLoadExecutable_spec mapped (System.pdir_mem member) inUserHalf loaded ok
  rcases alters.mapped with ⟨more, nextMapped, -⟩
  exact Sound.change sound (System.pdir_mem member) ⟨more, nextMapped⟩ alters.kernel

theorem loaderSpawn_eq {current : Nat} {binary : File} {argv : List (List UInt8)} {growth : Growth}
    {leftover : Leftover}
    (spawned : loaderSpawn system current binary argv growth leftover = some next) :
    ∃ process machine, (procCreate system current growth).processes.getLast? = some process ∧
      elfLoadExecutable binary leftover process.pdir (procCreate system current growth).machine =
        some machine ∧
      startProcess { procCreate system current growth with machine } process
        (binary.name :: argv) = some next := by
  unfold loaderSpawn at spawned
  simp only at spawned
  rcases Option.bind_eq_some_iff.mp spawned with ⟨process, isLast, rest⟩
  rcases Option.bind_eq_some_iff.mp rest with ⟨machine, loaded, started⟩
  exact ⟨process, machine, isLast, loaded, started⟩

theorem ok_of_loaderSpawn {current : Nat} {binary : File} {argv : List (List UInt8)}
    {growth : Growth} {leftover : Leftover}
    (spawned : loaderSpawn system current binary argv growth leftover = some next)
    (ok : next.machine.phys.Ok) : system.machine.phys.Ok := by
  rcases loaderSpawn_eq spawned with ⟨process, machine, -, loaded, started⟩
  exact ok_of_procCreate (ok_of_elfLoadExecutable loaded (ok_of_startProcess started ok))

/-- The process that has been created is ready when its executable is loaded. -/
theorem Sound.spawned (sound : Sound kernel system) {parent : Process}
    (member : parent ∈ system.processes) {binary : File} {growth : Growth} {leftover : Leftover}
    (inUserHalf : SegmentsInUserHalf binary leftover) {machine : Machine}
    (isLast : (procCreate system parent.pdir growth).processes.getLast? = some process)
    (loaded : elfLoadExecutable binary leftover process.pdir
      (procCreate system parent.pdir growth).machine = some machine)
    {strings : List (List UInt8)}
    (started : startProcess { procCreate system parent.pdir growth with machine } process strings =
      some next)
    (ok : next.machine.phys.Ok) :
    process.pid = system.procPid + 1 ∧
      Ready kernel { procCreate system parent.pdir growth with machine } process strings next := by
  have loadOk : machine.phys.Ok := ok_of_startProcess started ok
  have createOk := ok_of_elfLoadExecutable loaded loadOk
  have stepped : system.step (.create parent.pid growth) =
      some (procCreate system parent.pdir growth) := by
    simp only [System.step, sound.toCoherent.find_eq member, Option.map_some]
  have created := sound.event stepped createOk
  rcases sound.mapped with ⟨earlier, before⟩
  rcases procCreate_spec before createOk with ⟨new, creates⟩
  have isNew : process = new := by
    rw [creates.processes, List.getLast?_concat, Option.some.injEq] at isLast
    exact isLast.symm
  subst isNew
  have isMember : process ∈ (procCreate system parent.pdir growth).processes :=
    List.mem_of_getLast? isLast
  have isDir := System.pdir_mem isMember
  rcases created.mapped with ⟨tables, mapped⟩
  have alters := elfLoadExecutable_spec mapped isDir inUserHalf loaded loadOk
  rcases alters.mapped with ⟨more, nextMapped, fresh⟩
  rcases creates.last with ⟨frame, small, isFrame, entry⟩
  have spare := spare_of_userEntry mapped isDir (stack_lt (by decide)) entry
  rw [pageAddr_makeEntry _ _ small] at spare
  have later := spare.later alters.grows fresh
  rw [← isFrame] at later
  exact ⟨creates.isPid, Sound.load created isMember inUserHalf loaded loadOk,
    ⟨process, isMember, rfl, rfl⟩, ⟨more, nextMapped, later⟩, started⟩

theorem Sound.spawnReady (sound : Sound kernel system) {parent : Process}
    (member : parent ∈ system.processes) {binary : File} {argv : List (List UInt8)}
    {growth : Growth} {leftover : Leftover} (inUserHalf : SegmentsInUserHalf binary leftover)
    (spawned : loaderSpawn system parent.pdir binary argv growth leftover = some next)
    (ok : next.machine.phys.Ok) :
    ∃ ready process, process.pid = system.procPid + 1 ∧
      Ready kernel ready process (binary.name :: argv) next := by
  rcases loaderSpawn_eq spawned with ⟨process, machine, isLast, loaded, started⟩
  have isReady := Sound.spawned sound member inUserHalf isLast loaded started ok
  exact ⟨_, process, isReady.1, isReady.2⟩

/-! ### `loader_exec` -/

theorem ok_of_leaveAddressSpace {machine : Machine} {pdir growth : Nat}
    (ok : (leaveAddressSpace machine pdir growth).phys.Ok) : machine.phys.Ok :=
  ok_of_growHeap ((removeAddressSpace_ok _ _).mp ok)

theorem Sound.leave (sound : Sound kernel system) (member : process ∈ system.processes)
    {growth : Nat} (ok : (leaveAddressSpace system.machine process.pdir growth).phys.Ok) :
    Sound kernel { system with
      machine := leaveAddressSpace system.machine process.pdir growth } := by
  rcases sound.mapped with ⟨tables, mapped⟩
  have isDir := System.pdir_mem member
  have grown := growHeap_mapped mapped ((removeAddressSpace_ok _ _).mp ok)
  have keeps := removeAddressSpace_keepsKernel grown isDir
  rcases removeAddressSpace_spec grown isDir with ⟨fewer, -, nextMapped, -⟩
  exact Sound.change sound isDir ⟨fewer, nextMapped⟩ keeps

theorem loaderExec_eq {binary : File} {argv : List (List UInt8)} {growth : Nat}
    {leftover : Leftover}
    (executed : loaderExec system process binary argv growth leftover = some next) :
    ∃ machine state, elfLoadExecutable binary leftover process.pdir
        (leaveAddressSpace system.machine process.pdir growth) = some machine ∧
      state = loop processStackPages (mapStackPage process.pdir) (machine, []) ∧
      startProcess { system with machine := state.1 } { process with ustackPhys := state.2 }
        (binary.name :: argv) = some next := by
  unfold loaderExec at executed
  simp only at executed
  rcases Option.bind_eq_some_iff.mp executed with ⟨machine, loaded, started⟩
  exact ⟨machine, _, loaded, rfl, started⟩

theorem ok_of_loaderExec {binary : File} {argv : List (List UInt8)} {growth : Nat}
    {leftover : Leftover}
    (executed : loaderExec system process binary argv growth leftover = some next)
    (ok : next.machine.phys.Ok) : system.machine.phys.Ok := by
  rcases loaderExec_eq executed with ⟨machine, state, loaded, isState, started⟩
  have stateOk : state.1.phys.Ok := ok_of_startProcess started ok
  rw [isState] at stateOk
  have loadOk := guard_of_loop (fun state : Machine × List Nat => state.1.phys.Ok)
    (fun _ _ => ok_of_mapNextPage) stateOk
  exact ok_of_leaveAddressSpace (ok_of_elfLoadExecutable loaded loadOk)

/-- The process is ready when it has got its new stack. -/
theorem Sound.executed (sound : Sound kernel system) (member : process ∈ system.processes)
    {binary : File} {growth : Nat} {leftover : Leftover}
    (inUserHalf : SegmentsInUserHalf binary leftover) {machine : Machine}
    {state : Machine × List Nat}
    (loaded : elfLoadExecutable binary leftover process.pdir
      (leaveAddressSpace system.machine process.pdir growth) = some machine)
    (isState : state = loop processStackPages (mapStackPage process.pdir) (machine, []))
    {strings : List (List UInt8)}
    (started : startProcess { system with machine := state.1 }
      { process with ustackPhys := state.2 } strings = some next)
    (ok : next.machine.phys.Ok) :
    Ready kernel { system with machine := state.1 } { process with ustackPhys := state.2 } strings
      next := by
  have stateOk : state.1.phys.Ok := ok_of_startProcess started ok
  have loopOk := stateOk
  rw [isState, mapStackPage_eq] at loopOk
  have loadOk := guard_of_loop (fun state : Machine × List Nat => state.1.phys.Ok)
    (fun _ _ => ok_of_mapNextPage) loopOk
  have left := Sound.leave sound member (ok_of_elfLoadExecutable loaded loadOk)
  have isDir : process.pdir ∈ system.dirs := System.pdir_mem member
  have ready := Sound.load left member inUserHalf loaded loadOk
  rcases ready.mapped with ⟨tables, mapped⟩
  have maps := mapsPages_loop mapped isDir (fun _ _ => rfl) (fun index less => stack_lt less)
    loopOk
  rw [← mapStackPage_eq, ← isState] at maps
  rcases maps.mapped with ⟨more, nextMapped, -⟩
  rcases maps.frames (processStackPages - 1) (by decide) with ⟨frame, isFrame, small, entry⟩
  have spare := spare_of_userEntry nextMapped isDir (stack_lt (by decide)) entry
  rw [pageAddr_makeEntry _ _ small] at spare
  have isLast : state.2.getD (processStackPages - 1) 0 = frame := by
    rw [List.getD_eq_getElem?_getD, isFrame]
    rfl
  rw [← isLast] at spare
  exact ⟨Sound.change ready isDir ⟨more, nextMapped⟩ maps.kernel, ⟨process, member, rfl, rfl⟩,
    ⟨more, nextMapped, spare⟩, started⟩

theorem Sound.execReady (sound : Sound kernel system) (member : process ∈ system.processes)
    {binary : File} {argv : List (List UInt8)} {growth : Nat} {leftover : Leftover}
    (inUserHalf : SegmentsInUserHalf binary leftover)
    (executed : loaderExec system process binary argv growth leftover = some next)
    (ok : next.machine.phys.Ok) :
    ∃ ready changed, changed.pid = process.pid ∧
      Ready kernel ready changed (binary.name :: argv) next := by
  rcases loaderExec_eq executed with ⟨machine, state, loaded, isState, started⟩
  exact ⟨_, { process with ustackPhys := state.2 }, rfl,
    Sound.executed sound member inUserHalf loaded isState started ok⟩

/-! ### All operations -/

/-- The operation asks for no page at `0xC0000000` or above. -/
def InUserHalf (system : System) : Operation → Prop
  | .loadExecutable _ file leftover => SegmentsInUserHalf file leftover
  | .spawn _ (some file) _ _ leftover => SegmentsInUserHalf file leftover
  | .execve _ (some file) _ _ leftover => SegmentsInUserHalf file leftover
  | .sbrk pid bytes => ∀ process ∈ system.find pid, HeapInUserHalf process.heapEnd bytes
  | _ => True

instance (system : System) (operation : Operation) : Decidable (InUserHalf system operation) := by
  unfold InUserHalf
  split <;> infer_instance

theorem Sound.step (sound : Sound kernel system) {operation : Operation}
    (inUserHalf : InUserHalf system operation) (stepped : step system operation = some next)
    (ok : next.machine.phys.Ok) : Sound kernel next := by
  cases operation with
  | create parent growth =>
      have moved : system.step (.create parent growth) = some next := stepped
      exact sound.event moved ok
  | loadExecutable pid file leftover =>
      rcases Option.bind_eq_some_iff.mp stepped with ⟨process, found, isLoaded⟩
      rcases Option.map_eq_some_iff.mp isLoaded with ⟨machine, loaded, rfl⟩
      exact Sound.load sound (System.of_find found).1 inUserHalf loaded ok
  | leaveAddressSpace pid growth =>
      rcases Option.map_eq_some_iff.mp stepped with ⟨process, found, rfl⟩
      exact Sound.leave sound (System.of_find found).1 ok
  | spawn pid binary argv growth leftover =>
      rcases Option.bind_eq_some_iff.mp stepped with ⟨process, found, spawned⟩
      cases binary with
      | none =>
          rw [Option.some.injEq] at spawned
          exact spawned ▸ sound
      | some file =>
          rcases Sound.spawnReady sound (System.of_find found).1 inUserHalf spawned ok with
            ⟨ready, new, -, isReady⟩
          exact isReady.soundNext ok
  | execve pid binary argv growth leftover =>
      rcases Option.bind_eq_some_iff.mp stepped with ⟨process, found, executed⟩
      cases binary with
      | none =>
          rw [Option.some.injEq] at executed
          exact executed ▸ sound
      | some file =>
          rcases Sound.execReady sound (System.of_find found).1 inUserHalf executed ok with
            ⟨ready, changed, -, isReady⟩
          exact isReady.soundNext ok
  | sbrk pid bytes =>
      rcases Option.map_eq_some_iff.mp stepped with ⟨process, found, rfl⟩
      have member := (System.of_find found).1
      rcases sound.mapped with ⟨tables, mapped⟩
      have spec := syscSbrk_spec mapped (System.pdir_mem member) (inUserHalf process found) ok
      exact Sound.update (Sound.change sound (System.pdir_mem member) spec.1 spec.2) member rfl rfl
  | fork pid growth =>
      have moved : system.step (.fork pid growth) = some next := stepped
      exact sound.event moved ok
  | store pid address value =>
      have moved : system.step (.store pid address value) = some next := stepped
      exact sound.event moved ok
  | writeFault pid address =>
      have moved : system.step (.writeFault pid address) = some next := stepped
      exact sound.event moved ok
  | destroy pid =>
      have moved : system.step (.destroy pid) = some next := stepped
      exact sound.event moved ok

theorem ok_of_step (system : System) (operation : Operation) (next : System)
    (stepped : step system operation = some next) (ok : next.machine.phys.Ok) :
    system.machine.phys.Ok := by
  cases operation with
  | create parent growth =>
      have moved : system.step (.create parent growth) = some next := stepped
      exact System.ok_of_step _ _ _ moved ok
  | loadExecutable pid file leftover =>
      rcases Option.bind_eq_some_iff.mp stepped with ⟨process, found, isLoaded⟩
      rcases Option.map_eq_some_iff.mp isLoaded with ⟨machine, loaded, rfl⟩
      exact ok_of_elfLoadExecutable loaded ok
  | leaveAddressSpace pid growth =>
      rcases Option.map_eq_some_iff.mp stepped with ⟨process, found, rfl⟩
      exact ok_of_leaveAddressSpace ok
  | spawn pid binary argv growth leftover =>
      rcases Option.bind_eq_some_iff.mp stepped with ⟨process, found, spawned⟩
      cases binary with
      | none =>
          rw [Option.some.injEq] at spawned
          exact spawned ▸ ok
      | some file => exact ok_of_loaderSpawn spawned ok
  | execve pid binary argv growth leftover =>
      rcases Option.bind_eq_some_iff.mp stepped with ⟨process, found, executed⟩
      cases binary with
      | none =>
          rw [Option.some.injEq] at executed
          exact executed ▸ ok
      | some file => exact ok_of_loaderExec executed ok
  | sbrk pid bytes =>
      rcases Option.map_eq_some_iff.mp stepped with ⟨process, found, rfl⟩
      exact ok_of_syscSbrk ok
  | fork pid growth =>
      have moved : system.step (.fork pid growth) = some next := stepped
      exact System.ok_of_step _ _ _ moved ok
  | store pid address value =>
      have moved : system.step (.store pid address value) = some next := stepped
      exact System.ok_of_step _ _ _ moved ok
  | writeFault pid address =>
      have moved : system.step (.writeFault pid address) = some next := stepped
      exact System.ok_of_step _ _ _ moved ok
  | destroy pid =>
      have moved : system.step (.destroy pid) = some next := stepped
      exact System.ok_of_step _ _ _ moved ok

theorem sound_of_run {final : System} {operations : List Operation} (sound : Sound kernel system)
    (admissible : Admissible step InUserHalf system operations)
    (reached : run step system operations = some final) (ok : final.machine.phys.Ok) :
    Sound kernel final := by
  have preserved : ∀ state operation next, (state.machine.phys.Ok → Sound kernel state) →
      InUserHalf state operation → step state operation = some next →
      next.machine.phys.Ok → Sound kernel next := by
    intro state operation next before allowed stepped nextOk
    exact Sound.step (before (ok_of_step state operation next stepped nextOk)) allowed stepped
      nextOk
  exact run_preserves preserved (fun _ => sound) admissible reached ok

end Systems

/-! ## Runs from the boot state -/

/-- What `initialise_memory` leaves behind: frame 0, the directory and the tables of
the kernel are allocated. -/
structure KernelBooted (machine : Machine) (kernelDir : Nat) (kernel : Finset Nat) : Prop extends
    Booted machine kernelDir where
  frames : ∀ frame ∈ kernel, machine.phys.Managed frame ∧ 1 ≤ machine.phys.refcount frame
  zero : 0 ∈ kernel
  apart : kernelDir ∉ kernel
  half : KernelHalf machine.memory kernel {kernelDir}

theorem sound_boot {machine : Machine} {kernelDir : Nat} {kernel : Finset Nat}
    (booted : KernelBooted machine kernelDir kernel) (heapEnd : Nat) :
    Sound kernel (System.boot machine kernelDir heapEnd) := by
  have dirs : (System.boot machine kernelDir heapEnd).dirs = {kernelDir} := by
    simp [System.dirs, System.boot]
  refine ⟨⟨⟨∅, ?_⟩, ?_, List.nodup_singleton _, List.nodup_singleton _, ?_⟩, ?_⟩
  · rw [dirs]
    refine booted.mapped (Finset.mem_union_right _ (Finset.mem_singleton_self _)) ?_
    intro frame isHeld
    rcases Finset.mem_union.mp isHeld with isKernel | isDir
    · exact booted.frames frame isKernel
    · rw [Finset.mem_singleton.mp isDir]
      exact ⟨booted.managed, booted.allocated⟩
  · rw [dirs]
    exact Finset.disjoint_singleton_right.mpr booted.apart
  · intro process member
    rw [List.mem_singleton.mp member]
    exact Nat.le_refl 1
  · rw [dirs]
    exact booted.half

/-- Three of 40 frames are taken: frame 0, the directory, and the table of the window. -/
def kernelMachine : Machine :=
  { memory := fun frame index =>
      if frame = 1 ∧ index = 768 then makeEntry 1 0 2
      else if frame = 1 ∧ index = 1023 then makeEntry 1 0 1
      else 0
    phys :=
      { totalUsableLower := 0x28000
        totalUsableUpper := 0
        allocations := fun index => if index < 3 then 1 else 0
        freeList := []
        failed := false
        wrapped := false } }

theorem booted_kernelMachine : KernelBooted kernelMachine 1 {0, 2} := by
  have managed : ∀ frame < 40, kernelMachine.phys.Managed frame := fun frame below =>
    ⟨frame, below, if_pos below⟩
  refine ⟨⟨⟨by decide, by decide, by decide⟩, managed 1 (by decide), by decide, ?_⟩, ?_, by decide,
    by decide, ?_, ?_, ?_⟩
  · intro index below
    simp only [kernelMachine]
    rw [if_neg (by omega), if_neg (by omega)]
  · intro frame isKernel
    have isFrame : frame = 0 ∨ frame = 2 := by simpa using isKernel
    rcases isFrame with rfl | rfl
    · exact ⟨managed 0 (by decide), by decide⟩
    · exact ⟨managed 2 (by decide), by decide⟩
  · intro dir isDir index above below
    rw [Finset.mem_singleton.mp isDir]
    simp only [kernelMachine, true_and]
    split
    case isTrue =>
      refine .inr ⟨by decide, by decide, by decide, by decide, fun place _ => ?_⟩
      have isTable : pageAddr (makeEntry 1 0 2) = 2 := by decide
      rw [isTable, if_neg (by omega), if_neg (by omega)]
      rfl
    case isFalse => exact .inl (if_neg (by omega))
  · intro dir isDir
    rw [Finset.mem_singleton.mp isDir]
    decide
  · intro dir isDir
    rw [Finset.mem_singleton.mp isDir]
    decide

end Dbos.Loader
