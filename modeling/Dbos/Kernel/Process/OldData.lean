import Dbos.Kernel.Process.ProgramStart

/-! # Old data in fresh memory

Whether the processes can see what a frame held before it was handed out. The pages of an
executable and of the stack are cleared. Those that `sysc_sbrk` maps are not, and the page
with the arguments keeps what they do not cover. -/

namespace Dbos.Loader

open Dbos.Loop Dbos.Paging Dbos.Execution Dbos.Pieces Phys

/-! ## Old data -/

def SameView (next nextOther : System) : Prop :=
  ∀ pid, ∀ address < userEnd, nextOther.load pid address = next.load pid address

/-- What the processes see afterwards does not depend on what was in the free frames. -/
def CarriesNoOldData (system : System) (operation : Operation) : Prop :=
  ∀ other, DifferInFree system other → ∀ next nextOther, step system operation = some next →
    step other operation = some nextOther → SameView next nextOther

/-- The requests that give memory to a process. -/
def Operation.GivesMemory : Operation → Prop
  | .sbrk _ _ | .spawn _ _ _ _ _ | .execve _ _ _ _ _ | .fork _ _ => True
  | _ => False

/-- No page is handed out as it is, and the arguments fill their page or it lies in a frame
that was in use. -/
def Clean (system : System) : Operation → Prop
  | .sbrk _ bytes => bytes ≤ 0
  | .spawn _ (some file) argv _ _ => argvTotalLength (file.name :: argv) = 4096
  | .execve pid (some file) argv growth leftover =>
      argvTotalLength (file.name :: argv) = 4096 ∨ ∀ process ∈ system.find pid,
        argumentFrame system.machine process.pdir growth file leftover ∈ occupied system.machine.phys
  | _ => True

section Views

variable {kernel : Finset Nat} {system next nextOther : System} {process : Process}

theorem sameView_of_loads (processes : nextOther.processes = next.processes)
    (loads : SameLoads next.dirs next.machine.memory nextOther.machine.memory) :
    SameView next nextOther := by
  intro pid address below
  unfold System.load System.find
  rw [processes]
  cases found : next.processes.find? fun process => process.pid = pid with
  | none => rfl
  | some process =>
      exact loads _ (System.pdir_mem (System.of_find found).1) address below

theorem load_of_sameView (processes : nextOther.processes = next.processes)
    (view : SameView next nextOther) {pid : Nat} (found : next.find pid = some process)
    {address : Nat} (below : address < userEnd) :
    userLoad nextOther.machine.memory process.pdir address =
      userLoad next.machine.memory process.pdir address := by
  have same := view pid address below
  have otherFound : nextOther.find pid = some process := by
    unfold System.find at found ⊢
    rw [processes, found]
  unfold System.load at same
  rw [found, otherFound] at same
  exact same

/-- The system with other words in one frame. -/
def writeFrame (system : System) (frame : Nat) (words : Nat → Nat) : System :=
  { system with
    machine := { system.machine with memory := Function.update system.machine.memory frame words } }

theorem differInFree_writeFrame {frame : Nat} (free : frame ∉ occupied system.machine.phys)
    (words : Nat → Nat) : DifferInFree system (writeFrame system frame words) := by
  refine ⟨rfl, rfl, rfl, fun second member => ?_⟩
  unfold writeFrame
  refine Function.update_of_ne ?_ _ _
  rintro rfl
  exact free member

theorem exists_frameByte_ne (byte : UInt8) (position : Nat) :
    ∃ words, frameByte words position ≠ byte := by
  by_cases isZero : byte = 0
  · have notZero : ∀ place < 4, byteOf 0xFFFFFFFF place ≠ 0 := by decide
    rw [isZero]
    exact ⟨fun _ => 0xFFFFFFFF, notZero _ (Nat.mod_lt _ (by decide))⟩
  · refine ⟨fun _ => 0, fun same => isZero ?_⟩
    rw [← same]
    unfold frameByte byteOf
    rw [Nat.zero_div]
    rfl

theorem refcount_of_not_occupied {phys : Phys} {frame : Nat} (free : frame ∉ occupied phys) :
    phys.refcount frame = 0 := by
  unfold occupied at free
  rw [Set.mem_ofPred_eq, not_not] at free
  unfold getRefcount at free
  unfold Phys.refcount
  split at free
  · cases free
  · exact_mod_cast free

end Views

/-! ### Programs that are started -/

section Start

variable {kernel : Finset Nat} {system other ready second next nextOther : System}
  {process : Process} {strings : List (List UInt8)}

theorem ReadyTwins.sameView_iff (twins : ReadyTwins kernel system other ready second)
    (isReady : Ready kernel ready process strings next)
    (isSecond : Ready kernel second process strings nextOther) (ok : next.machine.phys.Ok)
    (otherOk : nextOther.machine.phys.Ok) (processes : nextOther.processes = next.processes)
    (sameDirs : next.dirs = ready.dirs) :
    SameView next nextOther ↔ ∀ index, argvTotalLength strings ≤ index → index < 4096 →
      frameByte (second.machine.memory ready.machine.phys.allocPage.1) index =
        frameByte (ready.machine.memory ready.machine.phys.allocPage.1) index := by
  have behind : ∀ index < 4096, ∀ words, frameByte (copyStrings strings words) index =
      if index < argvTotalLength strings then (marked 0 strings).getD index 0
      else frameByte words index := by
    intro index _ words
    rw [argvTotalLength_eq, frameByte_copyStrings]
  constructor
  · intro view index above below
    have same := load_of_sameView processes view (isReady.found ok) (processHeap_add below).1
    simp only at same
    rw [isReady.argumentPage ok below, isSecond.argumentPage otherOk below, twins.spaces.phys,
      Option.some.injEq, behind index below, behind index below, if_neg (by omega),
      if_neg (by omega)] at same
    exact same
  · intro sameWords
    refine sameView_of_loads processes fun dir isDir address below => ?_
    rw [sameDirs] at isDir
    by_cases isPage : dir = process.pdir ∧ address / 4096 = processHeap / 4096
    · rcases isPage with ⟨rfl, isHeap⟩
      have inside : address % 4096 < 4096 := Nat.mod_lt _ (by decide)
      have isAddress : address = processHeap + address % 4096 := by
        unfold processHeap at isHeap ⊢
        omega
      rw [isAddress, isReady.argumentPage ok inside, isSecond.argumentPage otherOk inside,
        twins.spaces.phys, behind _ inside, behind _ inside]
      by_cases within : address % 4096 < argvTotalLength strings
      · rw [if_pos within, if_pos within]
      · rw [if_neg within, if_neg within, sameWords _ (Nat.le_of_not_lt within) inside]
    · exact twins.elsewhere isReady isSecond ok otherOk isDir below isPage

/-- A program is started without old data if the arguments fill their page or it lies in a
frame that was in use before. -/
theorem carriesNoOldData_iff_of_ready {operation : Operation}
    (isReady : Ready kernel ready process strings next) (sameDirs : next.dirs = ready.dirs)
    (stepped : step system operation = some next) (ok : next.machine.phys.Ok)
    (prepared : ∀ other, DifferInFree system other → ∃ second nextOther,
      ReadyTwins kernel system other ready second ∧
      Ready kernel second process strings nextOther ∧ step other operation = some nextOther ∧
      nextOther.machine.phys = next.machine.phys ∧ nextOther.processes = next.processes) :
    CarriesNoOldData system operation ↔ argvTotalLength strings = 4096 ∨
      ready.machine.phys.allocPage.1 ∈ occupied system.machine.phys := by
  constructor
  · intro carries
    by_contra dirty
    rw [not_or] at dirty
    have room : argvTotalLength strings < 4096 := by
      have short := isReady.short
      omega
    rcases isReady.spare with ⟨tables, mapped, -⟩
    have new := allocPage_spec mapped.counted.valid (isReady.allocOk ok)
    rcases exists_frameByte_ne
      (frameByte (system.machine.memory ready.machine.phys.allocPage.1) 4095) 4095 with
      ⟨words, different⟩
    have differ := differInFree_writeFrame dirty.2 words
    rcases prepared _ differ with ⟨second, nextOther, twins, isSecond, otherStepped, samePhys,
      processes⟩
    have view := carries _ differ _ _ stepped otherStepped
    have same := (twins.sameView_iff isReady isSecond ok (samePhys ▸ ok) processes sameDirs).mp view
      4095 (by omega) (by decide)
    have kept := twins.kept _ (refcount_of_not_occupied dirty.2) new.1 new.2.1
    rw [kept.1, kept.2] at same
    unfold writeFrame at same
    simp only [Function.update_self] at same
    exact different same
  · intro clean other differ first last isFirst isLast
    rcases prepared other differ with ⟨second, nextOther, twins, isSecond, otherStepped, samePhys,
      processes⟩
    rw [stepped, Option.some.injEq] at isFirst
    rw [otherStepped, Option.some.injEq] at isLast
    rw [← isFirst, ← isLast,
      twins.sameView_iff isReady isSecond ok (samePhys ▸ ok) processes sameDirs]
    intro index above below
    rcases clean with full | used
    · omega
    · rw [twins.spaces.memory (.inl used)]

end Start

section Requests

variable {kernel : Finset Nat} {system other next : System} {process : Process}

theorem DifferInFree.find (differ : DifferInFree system other) (pid : Nat) :
    other.find pid = system.find pid := by
  unfold System.find
  rw [differ.processes]

theorem not_occupied_of_grows {phys later : Phys} (valid : phys.Valid) (grows : Grows phys later)
    (ok : later.allocPage.2.Ok) : later.allocPage.1 ∉ occupied phys := by
  have new := allocPage_spec (grows.same.valid valid) ok
  have managed := (grows.same.managed_iff _).mp new.1
  have less := grows.refcount _ managed
  unfold occupied
  rw [Set.mem_ofPred_eq, not_not, getRefcount_eq valid managed]
  omega

/-! ### `sysc_sbrk` -/

theorem sbrkPages_toNat_pos {bytes : Int} (positive : bytes > 0) : 0 < (sbrkPages bytes).toNat := by
  rcases Int.eq_ofNat_of_zero_le (show 0 ≤ bytes by omega) with ⟨count, rfl⟩
  unfold sbrkPages
  rw [Int.tdiv_eq_ediv_of_nonneg (by omega), Int.tmod_eq_emod_of_nonneg (by omega)]
  split <;> omega

theorem twinSpaces_syscSbrk {used : Set Nat} {held dirs : Finset Nat} {machine second : Machine}
    (twins : TwinSpaces used held dirs machine second) (isDir : process.pdir ∈ dirs) {bytes : Int}
    (inUserHalf : HeapInUserHalf process.heapEnd bytes)
    (ok : (syscSbrk machine process bytes).1.phys.Ok) :
    TwinSpaces used held dirs (syscSbrk machine process bytes).1
        (syscSbrk second process bytes).1 ∧
      (syscSbrk second process bytes).2 = (syscSbrk machine process bytes).2 := by
  by_cases positive : bytes > 0
  · rw [syscSbrk_of_pos positive] at ok
    rw [syscSbrk_of_pos positive, syscSbrk_of_pos positive]
    rcases inUserHalf with nothing | below
    · rw [nothing, loop_zero, loop_zero]
      exact ⟨twins, rfl⟩
    · have small : process.heapEnd < space := by
        unfold userPages at below
        unfold space
        omega
      rw [extendHeap_loop _ _ small] at ok
      rw [extendHeap_loop _ _ small, extendHeap_loop _ _ small]
      have bound : ∀ index < (sbrkPages bytes).toNat,
          heapPage process.heapEnd index < userPages := by
        intro index less
        rw [heapPage_eq (by omega)]
        omega
      exact ⟨(twins.mapNextPage_loop isDir bound ok).1, rfl⟩
  · rw [syscSbrk_of_not_pos positive, syscSbrk_of_not_pos positive]
    exact ⟨twins, rfl⟩

theorem step_sbrk {pid : Nat} (found : system.find pid = some process) (bytes : Int) :
    step system (.sbrk pid bytes) = some (updateProcess
      { system with machine := (syscSbrk system.machine process bytes).1 }
      { process with heapEnd := (syscSbrk system.machine process bytes).2 }) := by
  simp only [step, found, Option.map_some]

theorem sbrk_next (sound : Sound kernel system) {pid : Nat} (found : system.find pid = some process)
    {bytes : Int} (inUserHalf : HeapInUserHalf process.heapEnd bytes)
    (stepped : step system (.sbrk pid bytes) = some next) (ok : next.machine.phys.Ok) :
    next.machine = (syscSbrk system.machine process bytes).1 ∧ next.dirs = system.dirs ∧
      ∃ heapEnd, next.find pid = some { process with heapEnd } := by
  have member := (System.of_find found).1
  have allowed : InUserHalf system (.sbrk pid bytes) := by
    intro caller isCaller
    rw [found, Option.mem_some_iff] at isCaller
    exact isCaller ▸ inUserHalf
  have nextSound := Sound.step sound allowed stepped ok
  rw [step_sbrk found, Option.some.injEq] at stepped
  subst stepped
  refine ⟨rfl, dirs_updateProcess fun other isMember isPid => ?_,
    (syscSbrk system.machine process bytes).2, ?_⟩
  · rw [sound.eq_of_pid member isMember isPid]
  · rw [← (System.of_find found).2]
    exact nextSound.toCoherent.find_eq (List.mem_map.mpr ⟨process, member, if_pos rfl⟩)

theorem sbrk_served (sound : Sound kernel system) (differ : DifferInFree system other) {pid : Nat}
    (found : system.find pid = some process) {bytes : Int}
    (inUserHalf : HeapInUserHalf process.heapEnd bytes)
    (stepped : step system (.sbrk pid bytes) = some next) (ok : next.machine.phys.Ok) :
    ∃ nextOther, step other (.sbrk pid bytes) = some nextOther ∧
      nextOther.machine.phys = next.machine.phys ∧ nextOther.processes = next.processes := by
  rcases sound.mapped with ⟨tables, mapped⟩
  have spaces := (twinSpaces_of_twins mapped differ.machine).1
  have isDir := System.pdir_mem (System.of_find found).1
  rw [step_sbrk found, Option.some.injEq] at stepped
  subst stepped
  rcases twinSpaces_syscSbrk spaces isDir inUserHalf ok with ⟨twins, sameEnd⟩
  refine ⟨_, step_sbrk ((differ.find pid).trans found) bytes, twins.phys, ?_⟩
  rw [sameEnd]
  unfold updateProcess
  rw [differ.processes]

theorem syscSbrk_shows {machine : Machine} {held dirs tables : Finset Nat}
    (mapped : Mapped machine held dirs tables) (isDir : process.pdir ∈ dirs) {bytes : Int}
    (positive : bytes > 0) (inUserHalf : HeapInUserHalf process.heapEnd bytes)
    (ok : (syscSbrk machine process bytes).1.phys.Ok) :
    machine.phys.allocPage.2.Ok ∧ process.heapEnd / 4096 < userPages ∧
      userLoad (syscSbrk machine process bytes).1.memory process.pdir
          (process.heapEnd / 4096 * 4096) =
        some (frameByte (machine.memory machine.phys.allocPage.1) 0) := by
  have pages := sbrkPages_toNat_pos positive
  have below := inUserHalf.resolve_left (Nat.ne_of_gt pages)
  have small : process.heapEnd < space := by
    unfold userPages at below
    unfold space
    omega
  rcases syscSbrk_maps mapped isDir positive below small ok with ⟨state, isState, isMachine, maps⟩
  refine ⟨?_, by omega, ?_⟩
  · rw [isMachine, isState] at ok
    have rounds := loop_guarded (fun state : Machine × List Nat => state.1.phys.Ok)
      (motive := fun index (state : Machine × List Nat) =>
        (index = 0 → state.1 = machine) ∧ (0 < index → machine.phys.allocPage.2.Ok))
      (fun _ _ => ok_of_mapNextPage) ok ⟨fun _ => rfl, fun less => absurd less (by decide)⟩ ?_
    · exact rounds.2 pages
    · rintro index - state nextOk ⟨initial, later⟩
      refine ⟨fun isZero => absurd isZero (Nat.succ_ne_zero _), fun _ => ?_⟩
      by_cases isFirst : index = 0
      · rw [mapNextPage_eq, initial isFirst] at nextOk
        exact ok_of_mapPage nextOk
      · exact later (Nat.pos_of_ne_zero isFirst)
  · rcases maps.inside 0 pages with ⟨old, isOld, words⟩
    rw [Nat.add_zero] at words
    rw [userLoad_eq, Nat.mul_div_cancel _ (by decide), Nat.mul_mod_left, isMachine, words, isOld rfl]
    rfl

/-- `sbrk` shows what was in the frames, unless it maps no page. -/
theorem carriesNoOldData_sbrk (sound : Sound kernel system) {pid : Nat}
    (found : system.find pid = some process) {bytes : Int}
    (inUserHalf : HeapInUserHalf process.heapEnd bytes)
    (stepped : step system (.sbrk pid bytes) = some next) (ok : next.machine.phys.Ok) :
    CarriesNoOldData system (.sbrk pid bytes) ↔ bytes ≤ 0 := by
  rcases sound.mapped with ⟨tables, mapped⟩
  have isDir := System.pdir_mem (System.of_find found).1
  rcases sbrk_next sound found inUserHalf stepped ok with ⟨isMachine, sameDirs, heapEnd, isNext⟩
  constructor
  · intro carries
    by_contra isPositive
    have positive : bytes > 0 := by omega
    rcases syscSbrk_shows mapped isDir positive inUserHalf (isMachine ▸ ok) with
      ⟨allocOk, below, shows⟩
    have free := not_occupied_of_grows mapped.counted.valid (.refl _) allocOk
    rcases exists_frameByte_ne (frameByte (system.machine.memory system.machine.phys.allocPage.1) 0)
      0 with ⟨words, different⟩
    have differ := differInFree_writeFrame free words
    have otherSound := differ.sound sound
    rcases sbrk_served sound differ found inUserHalf stepped ok with ⟨nextOther, otherStepped,
      samePhys, processes⟩
    have otherOk : nextOther.machine.phys.Ok := samePhys ▸ ok
    have isOther := (sbrk_next otherSound ((differ.find pid).trans found) inUserHalf otherStepped
      otherOk).1
    rcases otherSound.mapped with ⟨otherTables, otherMapped⟩
    have otherShows := (syscSbrk_shows otherMapped (differ.dirs ▸ isDir) positive inUserHalf
      (isOther ▸ otherOk)).2.2
    have isUser : process.heapEnd / 4096 * 4096 < userEnd := by
      unfold userPages at below
      unfold userEnd
      omega
    have view := carries _ differ _ _ stepped otherStepped
    have same := load_of_sameView processes view isNext isUser
    rw [isMachine, isOther, shows, otherShows, Option.some.injEq] at same
    unfold writeFrame at same
    simp only [Function.update_self] at same
    exact different same
  · intro notPositive other differ first last isFirst isLast
    rcases sbrk_served sound differ found inUserHalf stepped ok with ⟨nextOther, otherStepped,
      samePhys, processes⟩
    have isOther := (sbrk_next (differ.sound sound) ((differ.find pid).trans found) inUserHalf
      otherStepped (samePhys ▸ ok)).1
    rw [stepped, Option.some.injEq] at isFirst
    rw [otherStepped, Option.some.injEq] at isLast
    rw [← isFirst, ← isLast]
    refine sameView_of_loads processes ?_
    rw [sameDirs, isMachine, isOther, syscSbrk_of_not_pos (by omega),
      syscSbrk_of_not_pos (by omega)]
    exact (twinSpaces_of_twins mapped differ.machine).2

end Requests

section Programs

variable {kernel : Finset Nat} {system other next : System} {process : Process} {pid : Nat}
  {binary : File} {argv : List (List UInt8)} {leftover : Leftover}

/-! ### `loader_spawn` -/

theorem step_spawn (found : system.find pid = some process) (growth : Growth) :
    step system (.spawn pid (some binary) argv growth leftover) =
      loaderSpawn system process.pdir binary argv growth leftover := by
  simp only [step, found, Option.bind_some]

theorem loaderSpawn_of_started {current : Nat} {growth : Growth} {machine : Machine}
    (isLast : (procCreate system current growth).processes.getLast? = some process)
    (loaded : elfLoadExecutable binary leftover process.pdir
      (procCreate system current growth).machine = some machine)
    (started : startProcess { procCreate system current growth with machine } process
      (binary.name :: argv) = some next) :
    loaderSpawn system current binary argv growth leftover = some next := by
  unfold loaderSpawn
  simp only [isLast, loaded, started, Option.bind_some]

theorem spawn_served (sound : Sound kernel system) (differ : DifferInFree system other)
    {parent : Process} (found : system.find pid = some parent) {growth : Growth}
    (inUserHalf : SegmentsInUserHalf binary leftover) {machine : Machine}
    (isLast : (procCreate system parent.pdir growth).processes.getLast? = some process)
    (loaded : elfLoadExecutable binary leftover process.pdir
      (procCreate system parent.pdir growth).machine = some machine)
    (started : startProcess { procCreate system parent.pdir growth with machine } process
      (binary.name :: argv) = some next)
    (ok : next.machine.phys.Ok) :
    ∃ second nextOther,
      ReadyTwins kernel system other { procCreate system parent.pdir growth with machine } second ∧
      Ready kernel second process (binary.name :: argv) nextOther ∧
      step other (.spawn pid (some binary) argv growth leftover) = some nextOther ∧
      nextOther.machine.phys = next.machine.phys ∧ nextOther.processes = next.processes := by
  have member := (System.of_find found).1
  have isReady := (Sound.spawned sound member inUserHalf isLast loaded started ok).2
  rcases readyTwins_spawn sound differ member inUserHalf isLast loaded
    (ok_of_startProcess started ok) with ⟨second, otherLast, otherLoaded, twins⟩
  rcases twins.started isReady ok with ⟨nextOther, otherStarted, samePhys, processes⟩
  have otherFound := (differ.find pid).trans found
  refine ⟨_, nextOther, twins, ?_, ?_, samePhys, processes⟩
  · exact (Sound.spawned (differ.sound sound) (System.of_find otherFound).1 inUserHalf otherLast
      otherLoaded otherStarted (samePhys ▸ ok)).2
  · rw [step_spawn otherFound]
    exact loaderSpawn_of_started otherLast otherLoaded otherStarted

/-- The page with the arguments is always a fresh one. -/
theorem carriesNoOldData_spawn (sound : Sound kernel system) {parent : Process}
    (found : system.find pid = some parent) {growth : Growth}
    (inUserHalf : SegmentsInUserHalf binary leftover)
    (spawned : loaderSpawn system parent.pdir binary argv growth leftover = some next)
    (ok : next.machine.phys.Ok) :
    (∀ other, DifferInFree system other → ∃ nextOther,
      step other (.spawn pid (some binary) argv growth leftover) = some nextOther ∧
        nextOther.machine.phys = next.machine.phys ∧ nextOther.processes = next.processes) ∧
      (CarriesNoOldData system (.spawn pid (some binary) argv growth leftover) ↔
        argvTotalLength (binary.name :: argv) = 4096) := by
  rcases loaderSpawn_eq spawned with ⟨process, machine, isLast, loaded, started⟩
  have member := (System.of_find found).1
  have isReady := (Sound.spawned sound member inUserHalf isLast loaded started ok).2
  have served := fun other (differ : DifferInFree system other) =>
    spawn_served sound differ found inUserHalf isLast loaded started ok
  constructor
  · intro other differ
    rcases served other differ with ⟨-, nextOther, -, -, stepped, same⟩
    exact ⟨nextOther, stepped, same⟩
  · rw [carriesNoOldData_iff_of_ready isReady isReady.dirs ((step_spawn found growth).trans spawned)
      ok served]
    refine or_iff_left ?_
    rcases sound.mapped with ⟨tables, mapped⟩
    have loadOk := ok_of_startProcess started ok
    have createOk := ok_of_elfLoadExecutable loaded loadOk
    rcases procCreate_spec mapped createOk with ⟨new, creates⟩
    rcases creates.mapped with ⟨more, created⟩
    have isNew : new = process := by
      rw [creates.processes, List.getLast?_concat, Option.some.injEq] at isLast
      exact isLast
    have isDir : process.pdir ∈ insert new.pdir system.dirs := isNew ▸ Finset.mem_insert_self _ _
    have grows := (elfLoadExecutable_spec created isDir inUserHalf loaded loadOk).grows
    exact not_occupied_of_grows mapped.counted.valid ((procCreate_keepsFree mapped createOk).2.trans
      grows) (isReady.allocOk ok)

/-! ### `loader_exec` -/

theorem step_execve (found : system.find pid = some process) (growth : Nat) :
    step system (.execve pid (some binary) argv growth leftover) =
      loaderExec system process binary argv growth leftover := by
  simp only [step, found, Option.bind_some]

theorem loaderExec_of_started {growth : Nat} {machine : Machine}
    (loaded : elfLoadExecutable binary leftover process.pdir
      (leaveAddressSpace system.machine process.pdir growth) = some machine)
    (started : startProcess
      { system with machine := (loop processStackPages (mapStackPage process.pdir) (machine, [])).1 }
      { process with
        ustackPhys := (loop processStackPages (mapStackPage process.pdir) (machine, [])).2 }
      (binary.name :: argv) = some next) :
    loaderExec system process binary argv growth leftover = some next := by
  unfold loaderExec
  simp only [loaded, started, Option.bind_some]

theorem execve_served (sound : Sound kernel system) (differ : DifferInFree system other)
    (found : system.find pid = some process) {growth : Nat}
    (inUserHalf : SegmentsInUserHalf binary leftover) {machine : Machine}
    (loaded : elfLoadExecutable binary leftover process.pdir
      (leaveAddressSpace system.machine process.pdir growth) = some machine)
    (started : startProcess
      { system with machine := (loop processStackPages (mapStackPage process.pdir) (machine, [])).1 }
      { process with
        ustackPhys := (loop processStackPages (mapStackPage process.pdir) (machine, [])).2 }
      (binary.name :: argv) = some next)
    (ok : next.machine.phys.Ok) :
    ∃ second nextOther,
      ReadyTwins kernel system other { system with
        machine := (loop processStackPages (mapStackPage process.pdir) (machine, [])).1 } second ∧
      Ready kernel second { process with
        ustackPhys := (loop processStackPages (mapStackPage process.pdir) (machine, [])).2 }
        (binary.name :: argv) nextOther ∧
      step other (.execve pid (some binary) argv growth leftover) = some nextOther ∧
      nextOther.machine.phys = next.machine.phys ∧ nextOther.processes = next.processes := by
  have member := (System.of_find found).1
  have isReady := Sound.executed sound member inUserHalf loaded rfl started ok
  rcases readyTwins_exec sound differ member inUserHalf loaded (ok_of_startProcess started ok) with
    ⟨second, otherLoaded, sameStack, twins⟩
  rcases twins.started isReady ok with ⟨nextOther, otherStarted, samePhys, processes⟩
  have otherFound := (differ.find pid).trans found
  rw [← sameStack] at otherStarted ⊢
  refine ⟨_, nextOther, twins, ?_, ?_, samePhys, processes⟩
  · exact Sound.executed (differ.sound sound) (System.of_find otherFound).1 inUserHalf otherLoaded
      rfl otherStarted (samePhys ▸ ok)
  · rw [step_execve otherFound]
    exact loaderExec_of_started otherLoaded otherStarted

/-- The page with the arguments may be one that the process has given up. -/
theorem carriesNoOldData_execve (sound : Sound kernel system)
    (found : system.find pid = some process) {growth : Nat}
    (inUserHalf : SegmentsInUserHalf binary leftover)
    (executed : loaderExec system process binary argv growth leftover = some next)
    (ok : next.machine.phys.Ok) :
    (∀ other, DifferInFree system other → ∃ nextOther,
      step other (.execve pid (some binary) argv growth leftover) = some nextOther ∧
        nextOther.machine.phys = next.machine.phys ∧ nextOther.processes = next.processes) ∧
      (CarriesNoOldData system (.execve pid (some binary) argv growth leftover) ↔
        argvTotalLength (binary.name :: argv) = 4096 ∨
          argumentFrame system.machine process.pdir growth binary leftover ∈
            occupied system.machine.phys) := by
  rcases loaderExec_eq executed with ⟨machine, state, loaded, rfl, started⟩
  have member := (System.of_find found).1
  have isReady := Sound.executed sound member inUserHalf loaded rfl started ok
  have served := fun other (differ : DifferInFree system other) =>
    execve_served sound differ found inUserHalf loaded started ok
  constructor
  · intro other differ
    rcases served other differ with ⟨-, nextOther, -, -, stepped, same⟩
    exact ⟨nextOther, stepped, same⟩
  · rcases sound.mapped with ⟨tables, mapped⟩
    rw [carriesNoOldData_iff_of_ready isReady isReady.dirs
      ((step_execve found growth).trans executed) ok served,
      ← allocPage_argumentFrame mapped (System.pdir_mem member) inUserHalf loaded
        (ok_of_startProcess started ok)]

/-! ### `sysc_fork` -/

/-- The new process sees what its parent sees, in both systems. -/
theorem sameLoads_procClone {held dirs tables otherTables : Finset Nat}
    (mapped : Mapped system.machine held dirs tables)
    (otherMapped : Mapped other.machine held dirs otherTables) {parent : Process}
    (isParent : parent.pdir ∈ dirs) {growth : Growth}
    (sameProcesses : other.processes = system.processes)
    (same : (procClone other parent growth).processes = (procClone system parent growth).processes)
    (ok : (procClone system parent growth).machine.phys.Ok)
    (otherOk : (procClone other parent growth).machine.phys.Ok)
    (loads : SameLoads dirs system.machine.memory other.machine.memory) :
    ∃ process, (procClone system parent growth).processes = system.processes ++ [process] ∧
      SameLoads (insert process.pdir dirs) (procClone system parent growth).machine.memory
        (procClone other parent growth).machine.memory := by
  rcases procClone_spec mapped isParent ok with ⟨process, clones⟩
  rcases procClone_spec otherMapped isParent otherOk with ⟨second, otherClones⟩
  have isSecond : second = process := by
    have lists := otherClones.processes.symm.trans (same.trans clones.processes)
    rw [sameProcesses] at lists
    exact List.singleton_inj.mp (List.append_cancel_left lists)
  subst isSecond
  refine ⟨second, clones.processes, fun dir isDir address below => ?_⟩
  rcases Finset.mem_insert.mp isDir with isOwn | isOld
  · rw [isOwn, userLoad_congr (clones.copied _ (page_lt below)),
      userLoad_congr (otherClones.copied _ (page_lt below)), loads _ isParent address below]
  · rw [userLoad_congr (clones.words dir isOld _ (page_lt below)),
      userLoad_congr (otherClones.words dir isOld _ (page_lt below)), loads dir isOld address below]

theorem carriesNoOldData_fork (sound : Sound kernel system)
    (found : system.find pid = some process) {growth : Growth}
    (ok : (procClone system process growth).machine.phys.Ok) :
    (∀ other, DifferInFree system other → ∃ nextOther,
      step other (.fork pid growth) = some nextOther ∧
        nextOther.machine.phys = (procClone system process growth).machine.phys ∧
        nextOther.processes = (procClone system process growth).processes) ∧
      CarriesNoOldData system (.fork pid growth) := by
  have forked : ∀ state : System, state.find pid = some process →
      step state (.fork pid growth) = some (procClone state process growth) := by
    intro state isProcess
    simp only [step, System.step, isProcess, Option.map_some]
  rcases sound.mapped with ⟨tables, mapped⟩
  have isDir := System.pdir_mem (System.of_find found).1
  have served : ∀ other, DifferInFree system other →
      (procClone other process growth).processes = (procClone system process growth).processes ∧
        (procClone other process growth).machine.phys =
          (procClone system process growth).machine.phys := by
    intro other differ
    exact (twinSpaces_of_twins mapped differ.machine).1.procClone differ.processes differ.procPid
      isDir ok
  constructor
  · intro other differ
    exact ⟨_, forked other ((differ.find pid).trans found), (served other differ).2,
      (served other differ).1⟩
  · intro other differ first last isFirst isLast
    rw [forked system found, Option.some.injEq] at isFirst
    rw [forked other ((differ.find pid).trans found), Option.some.injEq] at isLast
    rw [← isFirst, ← isLast]
    rcases twinSpaces_of_twins mapped differ.machine with ⟨spaces, loads⟩
    rcases spaces.mapped with ⟨structures, before, otherBefore⟩
    rcases sameLoads_procClone before otherBefore isDir differ.processes (served other differ).1 ok
      ((served other differ).2 ▸ ok) loads with ⟨new, isNew, sameLoads⟩
    refine sameView_of_loads (served other differ).1 ?_
    have dirs : (procClone system process growth).dirs = insert new.pdir system.dirs := by
      unfold System.dirs
      rw [isNew]
      ext dir
      simp
    rw [dirs]
    exact sameLoads

end Programs

/-! ## The result -/

/-- A request shows no old data if, and only if, it maps no heap page and the arguments
leave no room in a fresh page. -/
theorem carriesNoOldData_of_sound {kernel : Finset Nat} {system next : System}
    (sound : Sound kernel system) {operation : Operation} (inUserHalf : InUserHalf system operation)
    (gives : operation.GivesMemory) (stepped : step system operation = some next)
    (ok : next.machine.phys.Ok) :
    (∀ other, DifferInFree system other → ∃ nextOther, step other operation = some nextOther ∧
        nextOther.machine.phys = next.machine.phys ∧ nextOther.processes = next.processes) ∧
      (CarriesNoOldData system operation ↔ Clean system operation) := by
  rcases sound.mapped with ⟨tables, mapped⟩
  -- A file that is not found changes nothing.
  have unchanged : (∀ other : System, DifferInFree system other →
        step other operation = some other) →
      Clean system operation → next = system →
      (∀ other, DifferInFree system other → ∃ nextOther, step other operation = some nextOther ∧
          nextOther.machine.phys = next.machine.phys ∧ nextOther.processes = next.processes) ∧
        (CarriesNoOldData system operation ↔ Clean system operation) := by
    rintro stays clean rfl
    refine ⟨fun other differ => ⟨other, stays other differ, differ.machine.phys, differ.processes⟩,
      iff_of_true (fun other differ first last isFirst isLast => ?_) clean⟩
    rw [stepped, Option.some.injEq] at isFirst
    rw [stays other differ, Option.some.injEq] at isLast
    rw [← isFirst, ← isLast]
    exact sameView_of_loads differ.processes (twinSpaces_of_twins mapped differ.machine).2
  cases operation with
  | sbrk pid bytes =>
      rcases Option.map_eq_some_iff.mp stepped with ⟨process, found, -⟩
      have below := inUserHalf process found
      exact ⟨fun other differ => sbrk_served sound differ found below stepped ok,
        carriesNoOldData_sbrk sound found below stepped ok⟩
  | spawn pid binary argv growth leftover =>
      rcases Option.bind_eq_some_iff.mp stepped with ⟨process, found, spawned⟩
      cases binary with
      | none =>
          rw [Option.some.injEq] at spawned
          refine unchanged (fun other differ => ?_) trivial spawned.symm
          simp only [step, differ.find, found, Option.bind_some]
      | some file => exact carriesNoOldData_spawn sound found inUserHalf spawned ok
  | execve pid binary argv growth leftover =>
      rcases Option.bind_eq_some_iff.mp stepped with ⟨process, found, executed⟩
      cases binary with
      | none =>
          rw [Option.some.injEq] at executed
          refine unchanged (fun other differ => ?_) trivial executed.symm
          simp only [step, differ.find, found, Option.bind_some]
      | some file =>
          have result := carriesNoOldData_execve sound found inUserHalf executed ok
          unfold Clean
          simp only [found, Option.mem_some_iff, forall_eq']
          exact result
  | fork pid growth =>
      rcases Option.map_eq_some_iff.mp stepped with ⟨process, found, rfl⟩
      have result := carriesNoOldData_fork sound found ok
      exact ⟨result.1, iff_of_true result.2 trivial⟩
  | _ => cases gives

/-- In every run in which the processes stay in the user half, this holds of the requests that
are served. -/
theorem carriesNoOldData_iff {machine : Machine} {kernelDir heapEnd : Nat} {kernel : Finset Nat}
    (booted : KernelBooted machine kernelDir kernel) {operations : List Operation}
    {operation : Operation} {system next : System}
    (admissible : Admissible step InUserHalf (System.boot machine kernelDir heapEnd)
      (operations ++ [operation]))
    (reached : run step (System.boot machine kernelDir heapEnd) operations = some system)
    (gives : operation.GivesMemory) (stepped : step system operation = some next)
    (ok : next.machine.phys.Ok) :
    (∀ other, DifferInFree system other → ∃ nextOther, step other operation = some nextOther ∧
        nextOther.machine.phys = next.machine.phys ∧ nextOther.processes = next.processes) ∧
      (CarriesNoOldData system operation ↔ Clean system operation) := by
  rcases admissible.append reached with ⟨before, last⟩
  have systemOk := ok_of_step system operation next stepped ok
  have sound := sound_of_run (sound_boot booted heapEnd) before reached systemOk
  exact carriesNoOldData_of_sound sound last.1 gives stepped ok

theorem carriesNoOldData_iff_sbrk : ∃ system,
    run step (System.boot kernelMachine 1 0) [spawnWithArgument] = some system ∧
      (CarriesNoOldData system (.sbrk 2 4096) ↔ Clean system (.sbrk 2 4096)) := by
  have evaluated : ((run step (System.boot kernelMachine 1 0) [spawnWithArgument]).bind fun system =>
      (step system (.sbrk 2 4096)).map fun next =>
        (next.machine.phys.failed, next.machine.phys.wrapped)) = some (false, false) := by
    decide +kernel
  have admissible : Admissible step InUserHalf (System.boot kernelMachine 1 0)
      ([spawnWithArgument] ++ [.sbrk 2 4096]) := by
    decide +kernel
  rcases Option.bind_eq_some_iff.mp evaluated with ⟨system, reached, served⟩
  rcases Option.map_eq_some_iff.mp served with ⟨next, stepped, good⟩
  have ok : next.machine.phys.Ok := Prod.mk.inj good
  exact ⟨system, reached,
    (carriesNoOldData_iff booted_kernelMachine admissible reached trivial stepped ok).2⟩

/-- The new heap page of a process shows what was in the frame. -/
theorem carriesOldData_sbrk :
    ¬∀ operations system, run step (System.boot kernelMachine 1 0) operations = some system →
      ∀ operation : Operation, operation.GivesMemory → CarriesNoOldData system operation := by
  intro always
  have evaluated : ((run step (System.boot kernelMachine 1 0) [spawnWithArgument]).bind fun system =>
      (step system (.sbrk 2 4096)).bind fun next =>
        (step (writeFrame system system.machine.phys.allocPage.1 fun _ => 1) (.sbrk 2 4096)).map
          fun nextOther =>
            (system.machine.phys.getRefcount system.machine.phys.allocPage.1,
              next.load 2 0x50001000, nextOther.load 2 0x50001000)) =
      some (0, some 0, some 1) := by
    decide +kernel
  rcases Option.bind_eq_some_iff.mp evaluated with ⟨system, reached, rest⟩
  rcases Option.bind_eq_some_iff.mp rest with ⟨next, stepped, others⟩
  rcases Option.map_eq_some_iff.mp others with ⟨nextOther, otherStepped, values⟩
  simp only [Prod.mk.injEq] at values
  have free : system.machine.phys.allocPage.1 ∉ occupied system.machine.phys := by
    unfold occupied
    rw [Set.mem_ofPred_eq, not_not]
    exact values.1
  have view := always _ system reached (.sbrk 2 4096) trivial _ (differInFree_writeFrame free _) _ _
    stepped otherStepped
  have same := view 2 0x50001000 (by decide)
  rw [values.2.1, values.2.2] at same
  exact absurd same (by decide)

end Dbos.Loader
