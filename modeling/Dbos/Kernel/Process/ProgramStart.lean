import Dbos.Kernel.Process.Arguments
import Dbos.Kernel.Process.FreeFrames

/-! # A program is started in two systems

`loader_spawn` and `loader_exec` in two systems that differ in the contents of frames
that nobody uses. They differ afterwards at most in the page with the arguments. -/

namespace Dbos.Paging

theorem Mapped.pageWords_write {machine : Machine} {held dirs tables : Finset Nat}
    (mapped : Mapped machine held dirs tables) {frame : Nat} (notHeld : frame ∉ held)
    (notTable : frame ∉ tables) (words : Nat → Nat) {dir page : Nat} (isDir : dir ∈ dirs)
    (bound : page < userPages) :
    pageWords (Function.update machine.memory frame words) dir page =
      if (userEntry machine.memory dir page).map pageAddr = some frame then some words
      else pageWords machine.memory dir page := by
  rcases machine with ⟨memory, phys⟩
  unfold pageWords
  rw [(mapped.write notHeld notTable words).2 dir isDir page bound]
  simp only
  cases userEntry memory dir page with
  | none => rfl
  | some word =>
      simp only [Option.map_some, Option.some.injEq]
      by_cases isFrame : pageAddr word = frame
      · rw [if_pos isFrame, isFrame, Function.update_self]
      · rw [if_neg isFrame, Function.update_of_ne isFrame]

end Dbos.Paging

namespace Dbos.Loader

open Dbos.Loop Dbos.Paging Dbos.Execution Phys

/-! ## What a program is started with -/

def argumentByte (strings : List (List UInt8)) (words : Nat → Nat) (address : Nat) : UInt8 :=
  frameByte (copyStrings strings words) (address % 4096)

section Ready

variable {kernel : Finset Nat} {ready next : System} {process : Process}
  {strings : List (List UInt8)}

theorem frameByte_pushedWords {words other : Nat → Nat} {position : Nat}
    (same : frameByte other position = frameByte words position) (heapEnd totalLength argc : Nat) :
    frameByte (pushedWords other heapEnd totalLength argc) position =
      frameByte (pushedWords words heapEnd totalLength argc) position := by
  unfold frameByte pushedWords at *
  simp only [Function.update_apply]
  split
  · rfl
  · split
    · rfl
    · split
      · rfl
      · split
        · rfl
        · exact same

/-- What the processes see when the arguments have been put in place: the page with the
arguments, the words on the stack, and what they saw before. -/
theorem Ready.loads (isReady : Ready kernel ready process strings next)
    (ok : next.machine.phys.Ok) :
    ∀ dir ∈ ready.dirs, ∀ address < userEnd, userLoad next.machine.memory dir address =
      if dir = process.pdir ∧ address / 4096 = processHeap / 4096 then
        some (argumentByte strings (ready.machine.memory ready.machine.phys.allocPage.1) address)
      else if (userEntry ready.machine.memory dir (address / 4096)).map pageAddr =
          some (stackFrame process) then
        some (frameByte (pushedWords (ready.machine.memory (stackFrame process))
          (processHeap + 4096) (argvTotalLength strings) strings.length) (address % 4096))
      else userLoad ready.machine.memory dir address := by
  rcases isReady.known with ⟨old, member, samePid, samePdir⟩
  rcases isReady.spare with ⟨tables, mapped, spare⟩
  rcases startProcess_eq isReady.started with ⟨machine, isMachine, rfl⟩
  rcases mapArguments_eq isMachine with ⟨-, rfl⟩
  have isDir : process.pdir ∈ ready.dirs := by
    rw [samePdir]
    exact System.pdir_mem member
  have maps := mapPage_maps mapped isDir processHeap_lt ok
  have small := (mapPage_frame mapped.counted.valid ok).2
  have free := (allocPage_spec mapped.counted.valid (ok_of_mapPage ok)).2.1
  unfold stackFrame updateProcess
  simp only [pushWords_eq]
  generalize process.ustackPhys.getD (processStackPages - 1) 0 = top at spare
  have different : ready.machine.phys.allocPage.1 ≠ top := by
    rintro rfl
    have counted := spare.counted
    omega
  rcases maps.mapped with ⟨more, nextMapped, fresh⟩
  have later := spare.later (mapPage_grows mapped.counted.valid ok) fresh
  intro dir isOther address below
  have entry := maps.entries dir isOther _ (page_lt below)
  have words := maps.words dir isOther _ (page_lt below)
  have written := nextMapped.pageWords_write later.notHeld later.notTable (pushedWords
    ((mapPage ready.machine process.pdir (processHeap / 4096) (copyStrings strings)).2.memory top)
    (processHeap + 4096) (argvTotalLength strings) strings.length) isOther (page_lt below)
  rw [userLoad_eq, written, entry, words]
  by_cases isPage : dir = process.pdir ∧ address / 4096 = processHeap / 4096
  · rw [if_pos isPage, if_pos isPage, if_pos isPage, Option.map_some, pageAddr_makeEntry _ _ small,
      if_neg fun same => different (Option.some.inj same)]
    rfl
  · rw [if_neg isPage, if_neg isPage, if_neg isPage]
    by_cases isTop : (userEntry ready.machine.memory dir (address / 4096)).map pageAddr = some top
    · rw [if_pos isTop, if_pos isTop, Option.map_some]
      rcases Option.map_eq_some_iff.mp isTop with ⟨word, found, isFrame⟩
      rw [if_neg isPage, found] at entry
      rw [if_neg isPage, pageWords_of_userEntry entry, pageWords_of_userEntry found,
        Option.some.injEq, isFrame] at words
      rw [words]
    · rw [if_neg isTop, if_neg isTop, userLoad_eq]

end Ready

section Leave

variable {used : Set Nat} {machine other : Machine} {held dirs tables : Finset Nat} {pdir : Nat}

theorem leaveAddressSpace_keepsFree (mapped : Mapped machine held dirs tables) (isDir : pdir ∈ dirs)
    {growth : Nat} (ok : (leaveAddressSpace machine pdir growth).phys.Ok) {frame : Nat}
    (free : machine.phys.refcount frame = 0) :
    (leaveAddressSpace machine pdir growth).memory frame = machine.memory frame := by
  have grown := growHeap_mapped mapped ((removeAddressSpace_ok _ _).mp ok)
  rcases removeAddressSpace_spec grown isDir with ⟨fewer, -, -, -, -, elsewhere⟩
  refine elsewhere frame (fun same => ?_) fun gone => ?_
  · have counted := (mapped.counted.heldManaged _ (mapped.subset isDir)).2
    rw [← same] at counted
    omega
  · have counted := (mapped.counted.tableManaged _ (Finset.mem_sdiff.mp gone).1).2
    omega

theorem twinSpaces_leaveAddressSpace (twins : TwinSpaces used held dirs machine other)
    (isDir : pdir ∈ dirs) {growth : Nat} (ok : (leaveAddressSpace machine pdir growth).phys.Ok) :
    TwinSpaces used held dirs (leaveAddressSpace machine pdir growth)
      (leaveAddressSpace other pdir growth) := by
  have grown := twins.growHeap ((removeAddressSpace_ok _ _).mp ok)
  rcases grown with ⟨tables, mapped, same⟩
  have removed := same.removeAddressSpace mapped isDir fun frame member =>
    .inr (Finset.mem_coe.mpr member)
  rcases removeAddressSpace_spec mapped isDir with ⟨fewer, subset, after, -⟩
  refine ⟨fewer, after, removed.mono ?_⟩
  exact Set.union_subset_union_right _
    (Finset.coe_subset.mpr (Finset.union_subset_union_right subset))

end Leave

/-! ## What the processes see -/

def SameLoads (dirs : Finset Nat) (memory other : Memory) : Prop :=
  ∀ dir ∈ dirs, ∀ address < userEnd, userLoad other dir address = userLoad memory dir address

/-- The frames whose count is not 0, and those that have no count. -/
def occupied (phys : Phys) : Set Nat := { frame | phys.getRefcount frame ≠ 0 }

theorem mem_occupied {phys : Phys} (valid : phys.Valid) {frame : Nat} (managed : phys.Managed frame)
    (counted : 1 ≤ phys.refcount frame) : frame ∈ occupied phys := by
  unfold occupied
  rw [Set.mem_ofPred_eq, getRefcount_eq valid managed]
  omega

section SameLoads

variable {machine other : Machine} {held dirs tables : Finset Nat}

theorem twinSpaces_of_twins (mapped : Mapped machine held dirs tables)
    (twins : Twins (occupied machine.phys) machine other) :
    TwinSpaces (occupied machine.phys) held dirs machine other ∧
      SameLoads dirs machine.memory other.memory := by
  have valid := mapped.counted.valid
  have structures : TwinSpaces (occupied machine.phys) held dirs machine other := by
    refine ⟨tables, mapped, twins.mono (Set.union_subset (fun _ => id) fun frame member => ?_)⟩
    rcases Finset.mem_union.mp (Finset.mem_coe.mp member) with isHeld | isTable
    · have managed := mapped.counted.heldManaged frame isHeld
      exact mem_occupied valid managed.1 managed.2
    · have managed := mapped.counted.tableManaged frame isTable
      exact mem_occupied valid managed.1 managed.2
  refine ⟨structures, fun dir isDir address below => userLoad_congr ?_⟩
  have sameEntry := structures.entries isDir (page_lt below)
  unfold pageWords
  rw [sameEntry]
  cases found : userEntry machine.memory dir (address / 4096) with
  | none => rfl
  | some word =>
      have spare := spare_of_userEntry mapped isDir (page_lt below) found
      rw [Option.map_some, Option.map_some,
        twins.memory _ (mem_occupied valid spare.managed spare.counted)]

end SameLoads

/-! ## Systems that differ in free frames -/

/-- The systems differ in the contents of frames whose count is 0. -/
structure DifferInFree (system other : System) : Prop where
  processes : other.processes = system.processes
  procPid : other.procPid = system.procPid
  machine : Twins (occupied system.machine.phys) system.machine other.machine

theorem DifferInFree.dirs {system other : System} (differ : DifferInFree system other) :
    other.dirs = system.dirs := by
  unfold System.dirs
  rw [differ.processes]

theorem DifferInFree.sound {kernel : Finset Nat} {system other : System}
    (differ : DifferInFree system other) (sound : Sound kernel system) : Sound kernel other := by
  rcases sound.mapped with ⟨tables, mapped⟩
  have spaces := (twinSpaces_of_twins mapped differ.machine).1
  rcases spaces.mapped with ⟨more, -, otherMapped⟩
  refine ⟨⟨⟨more, ?_⟩, ?_, ?_, ?_, ?_⟩, ?_⟩
  · rw [differ.dirs]
    exact otherMapped
  · rw [differ.dirs]
    exact sound.apart
  · rw [differ.processes]
    exact sound.pids
  · rw [differ.processes]
    exact sound.pdirs
  · rw [differ.processes, differ.procPid]
    exact sound.bound
  · rw [differ.dirs]
    refine sound.half.congr (fun frame isKernel => ?_) fun dir isDir index _ => ?_
    · exact spaces.memory (.inr (Finset.mem_union_left _ isKernel))
    · exact congrFun (spaces.memory (.inr (Finset.mem_union_right _ isDir))) index

/-- Two systems in which a program is about to be started, reached from two systems that
differ in free frames. -/
structure ReadyTwins (kernel : Finset Nat) (system other ready second : System) : Prop where
  processes : second.processes = ready.processes
  procPid : second.procPid = ready.procPid
  spaces : TwinSpaces (occupied system.machine.phys) (kernel ∪ ready.dirs) ready.dirs ready.machine
    second.machine
  loads : SameLoads ready.dirs ready.machine.memory second.machine.memory
  kept : ∀ frame, system.machine.phys.refcount frame = 0 → ready.machine.phys.Managed frame →
    ready.machine.phys.refcount frame = 0 →
    ready.machine.memory frame = system.machine.memory frame ∧
      second.machine.memory frame = other.machine.memory frame

section Start

variable {kernel : Finset Nat} {system other ready second next nextOther : System}
  {process : Process} {strings : List (List UInt8)}

theorem ReadyTwins.started (twins : ReadyTwins kernel system other ready second)
    (isReady : Ready kernel ready process strings next) (ok : next.machine.phys.Ok) :
    ∃ nextOther, startProcess second process strings = some nextOther ∧
      nextOther.machine.phys = next.machine.phys ∧ nextOther.processes = next.processes := by
  rcases isReady.known with ⟨old, member, -, samePdir⟩
  have isDir : process.pdir ∈ ready.dirs := by
    rw [samePdir]
    exact System.pdir_mem member
  rcases startProcess_eq isReady.started with ⟨machine, isMachine, rfl⟩
  rcases mapArguments_eq isMachine with ⟨short, rfl⟩
  have mapped := twins.spaces.mapPage isDir processHeap_lt ok
  unfold startProcess mapArguments
  rw [if_pos short, Option.map_some]
  refine ⟨_, rfl, mapped.phys, ?_⟩
  unfold updateProcess
  simp only [twins.processes]

/-- The processes see the same, but for the page with the arguments. -/
theorem ReadyTwins.elsewhere (twins : ReadyTwins kernel system other ready second)
    (isReady : Ready kernel ready process strings next)
    (isSecond : Ready kernel second process strings nextOther) (ok : next.machine.phys.Ok)
    (otherOk : nextOther.machine.phys.Ok) {dir : Nat} (isDir : dir ∈ ready.dirs) {address : Nat}
    (below : address < userEnd)
    (notPage : ¬(dir = process.pdir ∧ address / 4096 = processHeap / 4096)) :
    userLoad nextOther.machine.memory dir address = userLoad next.machine.memory dir address := by
  have sameDirs : second.dirs = ready.dirs := by
    unfold System.dirs
    rw [twins.processes]
  rw [isReady.loads ok dir isDir address below,
    isSecond.loads otherOk dir (sameDirs ▸ isDir) address below, if_neg notPage, if_neg notPage,
    twins.spaces.entries isDir (page_lt below)]
  have before := twins.loads dir isDir address below
  by_cases isTop : (userEntry ready.machine.memory dir (address / 4096)).map pageAddr =
      some (stackFrame process)
  · rw [if_pos isTop, if_pos isTop]
    rcases Option.map_eq_some_iff.mp isTop with ⟨word, found, isFrame⟩
    have otherFound := (twins.spaces.entries isDir (page_lt below)).trans found
    rw [userLoad_eq, userLoad_eq, pageWords_of_userEntry found, pageWords_of_userEntry otherFound,
      isFrame, Option.map_some, Option.map_some, Option.some.injEq] at before
    rw [frameByte_pushedWords before]
  · rw [if_neg isTop, if_neg isTop, before]

theorem processHeap_add {index : Nat} (below : index < 4096) :
    processHeap + index < userEnd ∧ (processHeap + index) / 4096 = processHeap / 4096 ∧
      (processHeap + index) % 4096 = index := by
  unfold processHeap userEnd
  omega

theorem Ready.argumentPage (isReady : Ready kernel ready process strings next)
    (ok : next.machine.phys.Ok) {index : Nat} (below : index < 4096) :
    userLoad next.machine.memory process.pdir (processHeap + index) =
      some (frameByte (copyStrings strings
        (ready.machine.memory ready.machine.phys.allocPage.1)) index) := by
  rcases isReady.known with ⟨old, member, -, samePdir⟩
  have isDir : process.pdir ∈ ready.dirs := by
    rw [samePdir]
    exact System.pdir_mem member
  have place := processHeap_add below
  rw [isReady.loads ok _ isDir _ place.1, if_pos ⟨rfl, place.2.1⟩]
  unfold argumentByte
  rw [place.2.2]

end Start

section Prepare

variable {kernel : Finset Nat} {system other : System} {process : Process} {binary : File}
  {leftover : Leftover} {machine : Machine}

theorem sameLoads_of_alters {start second next nextSecond : Machine}
    {held dirs tables otherTables : Finset Nat} {pdir : Nat} {bytes otherBytes : Nat → Option UInt8}
    (alters : Alters start next held dirs tables pdir bytes)
    (otherAlters : Alters second nextSecond held dirs otherTables pdir otherBytes)
    (loads : SameLoads dirs start.memory second.memory)
    (same : ∀ address < userEnd, otherBytes address = bytes address) :
    SameLoads dirs next.memory nextSecond.memory := by
  intro dir isDir address below
  by_cases isOwn : dir = pdir
  · rw [isOwn, alters.own address below, otherAlters.own address below, same address below]
  · rw [alters.others dir isDir isOwn address below, otherAlters.others dir isDir isOwn address below,
      loads dir isDir address below]

theorem sameLoads_elfLoadExecutable {start second next nextSecond : Machine}
    {held dirs : Finset Nat} {pdir : Nat} (twins : TwinSpaces (occupied system.machine.phys) held dirs
      start second) (isDir : pdir ∈ dirs) (inUserHalf : SegmentsInUserHalf binary leftover)
    (loads : SameLoads dirs start.memory second.memory)
    (loaded : elfLoadExecutable binary leftover pdir start = some next)
    (otherLoaded : elfLoadExecutable binary leftover pdir second = some nextSecond)
    (ok : next.phys.Ok) (otherOk : nextSecond.phys.Ok) :
    SameLoads dirs next.memory nextSecond.memory := by
  rcases twins.mapped with ⟨tables, mapped, otherMapped⟩
  refine sameLoads_of_alters (elfLoadExecutable_spec mapped isDir inUserHalf loaded ok)
    (elfLoadExecutable_spec otherMapped isDir inUserHalf otherLoaded otherOk) loads ?_
  intro address below
  exact image_congr (loads pdir isDir address below)

/-- A process that has been created sees an empty stack in both systems. -/
theorem sameLoads_procCreate {held dirs tables : Finset Nat}
    (mapped : Mapped system.machine held dirs tables)
    (otherMapped : Mapped other.machine held dirs tables) {current : Nat} {growth : Growth}
    (ok : (procCreate system current growth).machine.phys.Ok)
    (otherOk : (procCreate other current growth).machine.phys.Ok)
    (isNew : (procCreate system current growth).processes = system.processes ++ [process])
    (isOtherNew : (procCreate other current growth).processes = other.processes ++ [process])
    (loads : SameLoads dirs system.machine.memory other.machine.memory) :
    SameLoads (insert process.pdir dirs) (procCreate system current growth).machine.memory
      (procCreate other current growth).machine.memory := by
  rcases procCreate_spec mapped ok with ⟨new, creates⟩
  rcases procCreate_spec otherMapped otherOk with ⟨otherNew, otherCreates⟩
  have same : new = process := by
    have lists := creates.processes.symm.trans isNew
    exact List.singleton_inj.mp (List.append_cancel_left lists)
  have otherSame : otherNew = process := by
    have lists := otherCreates.processes.symm.trans isOtherNew
    exact List.singleton_inj.mp (List.append_cancel_left lists)
  subst same otherSame
  intro dir isDir address below
  rcases Finset.mem_insert.mp isDir with isOwn | isOld
  · rw [isOwn]
    refine userLoad_congr ?_
    rw [creates.stack _ (page_lt below), otherCreates.stack _ (page_lt below)]
  · rw [userLoad_congr (creates.words dir isOld _ (page_lt below)),
      userLoad_congr (otherCreates.words dir isOld _ (page_lt below)), loads dir isOld address below]

theorem readyTwins_spawn (sound : Sound kernel system) (differ : DifferInFree system other)
    {parent : Process} (member : parent ∈ system.processes) {growth : Growth}
    (inUserHalf : SegmentsInUserHalf binary leftover)
    (isLast : (procCreate system parent.pdir growth).processes.getLast? = some process)
    (loaded : elfLoadExecutable binary leftover process.pdir
      (procCreate system parent.pdir growth).machine = some machine)
    (ok : machine.phys.Ok) :
    ∃ second, (procCreate other parent.pdir growth).processes.getLast? = some process ∧
      elfLoadExecutable binary leftover process.pdir (procCreate other parent.pdir growth).machine =
        some second ∧
      ReadyTwins kernel system other { procCreate system parent.pdir growth with machine }
        { procCreate other parent.pdir growth with machine := second } := by
  have createOk := ok_of_elfLoadExecutable loaded ok
  rcases sound.mapped with ⟨tables, mapped⟩
  rcases twinSpaces_of_twins mapped differ.machine with ⟨spaces, loads⟩
  have isHeld : parent.pdir ∈ kernel ∪ system.dirs :=
    Finset.mem_union_right _ (System.pdir_mem member)
  rcases spaces.procCreate differ.procPid isHeld createOk with ⟨new, isNew, isOtherNew, created⟩
  have isProcess : new = process := by
    rw [isNew, List.getLast?_concat, Option.some.injEq] at isLast
    exact isLast
  subst isProcess
  have otherCreateOk : (procCreate other parent.pdir growth).machine.phys.Ok :=
    created.phys ▸ createOk
  rcases spaces.mapped with ⟨structures, before, otherBefore⟩
  have createdLoads := sameLoads_procCreate before otherBefore createOk otherCreateOk isNew
    isOtherNew loads
  have isDir := Finset.mem_insert_self new.pdir system.dirs
  rcases twinSpaces_elfLoadExecutable created isDir inUserHalf loaded ok with
    ⟨second, otherLoaded, twins⟩
  have otherOk : second.phys.Ok := twins.phys ▸ ok
  have dirs : System.dirs { procCreate system parent.pdir growth with machine } =
      insert new.pdir system.dirs := by
    unfold System.dirs
    rw [isNew]
    ext dir
    simp
  refine ⟨second, ?_, otherLoaded, ⟨?_, ?_, ?_, ?_, ?_⟩⟩
  · rw [isOtherNew, List.getLast?_concat]
  · simp only
    rw [isNew, isOtherNew, differ.processes]
  · rcases procCreate_steps system parent.pdir growth with ⟨_, _, _, steps⟩
    rcases procCreate_steps other parent.pdir growth with ⟨_, _, _, otherSteps⟩
    simp only [steps.isCreate, otherSteps.isCreate, differ.procPid]
  · rw [dirs, Finset.union_insert]
    exact twins
  · rw [dirs]
    exact sameLoads_elfLoadExecutable created isDir inUserHalf createdLoads loaded otherLoaded ok
      otherOk
  · intro frame _ managed free
    rcases created.mapped with ⟨more, createdMapped, otherCreatedMapped⟩
    have grows := (elfLoadExecutable_spec createdMapped isDir inUserHalf loaded ok).grows
    have otherGrows :=
      (elfLoadExecutable_spec otherCreatedMapped isDir inUserHalf otherLoaded otherOk).grows
    have keeps := (procCreate_keepsFree before createOk).1.trans
      (elfLoadExecutable_keepsFree createdMapped isDir inUserHalf loaded ok) grows
    have otherKeeps := (procCreate_keepsFree otherBefore otherCreateOk).1.trans
      (elfLoadExecutable_keepsFree otherCreatedMapped isDir inUserHalf otherLoaded otherOk)
      otherGrows
    refine ⟨keeps frame managed free, otherKeeps frame ?_ ?_⟩
    · rw [twins.phys]
      exact managed
    · rw [twins.phys]
      exact free

end Prepare

section Exec

variable {kernel : Finset Nat} {system other : System} {process : Process} {binary : File}
  {leftover : Leftover} {machine : Machine}

theorem sameLoads_leaveAddressSpace {start second : Machine} {held dirs tables : Finset Nat}
    {pdir : Nat} (mapped : Mapped start held dirs tables)
    (otherMapped : Mapped second held dirs tables) (isDir : pdir ∈ dirs)
    (loads : SameLoads dirs start.memory second.memory) {growth : Nat}
    (ok : (leaveAddressSpace start pdir growth).phys.Ok)
    (otherOk : (leaveAddressSpace second pdir growth).phys.Ok) :
    SameLoads dirs (leaveAddressSpace start pdir growth).memory
      (leaveAddressSpace second pdir growth).memory := by
  have grown := growHeap_mapped mapped ((removeAddressSpace_ok _ _).mp ok)
  have otherGrown := growHeap_mapped otherMapped ((removeAddressSpace_ok _ _).mp otherOk)
  rcases removeAddressSpace_pageWords grown isDir with ⟨-, -, words⟩
  rcases removeAddressSpace_pageWords otherGrown isDir with ⟨-, -, otherWords⟩
  intro dir isOther address below
  have left := words dir isOther _ (page_lt below)
  have otherLeft := otherWords dir isOther _ (page_lt below)
  have before := loads dir isOther address below
  rw [userLoad_eq, userLoad_eq] at before
  rw [userLoad_eq, userLoad_eq]
  unfold leaveAddressSpace
  rw [left, otherLeft]
  split
  · rfl
  · exact before

theorem sameLoads_of_mapsPages {start second : Machine} {state otherState : Machine × List Nat}
    {held dirs tables otherTables : Finset Nat} {pdir first count : Nat}
    (maps : MapsPages start state held dirs tables pdir first count zeroFill)
    (otherMaps : MapsPages second otherState held dirs otherTables pdir first count zeroFill)
    (loads : SameLoads dirs start.memory second.memory) :
    SameLoads dirs state.1.memory otherState.1.memory := by
  intro dir isDir address below
  by_cases inside : dir = pdir ∧ first ≤ address / 4096 ∧ address / 4096 < first + count
  · rcases inside with ⟨rfl, above, less⟩
    have isPage : first + (address / 4096 - first) = address / 4096 := by omega
    rcases maps.inside (address / 4096 - first) (by omega) with ⟨old, -, words⟩
    rcases otherMaps.inside (address / 4096 - first) (by omega) with ⟨otherOld, -, otherWords⟩
    rw [isPage] at words otherWords
    rw [userLoad_eq, userLoad_eq, words, otherWords]
    rfl
  · rw [userLoad_congr (maps.outside dir isDir _ (page_lt below) inside).2,
      userLoad_congr (otherMaps.outside dir isDir _ (page_lt below) inside).2,
      loads dir isDir address below]

/-- What is free after the program has been loaded was left alone by the loader. -/
theorem execve_keepsFree {held dirs tables : Finset Nat} (mapped : Mapped machine held dirs tables)
    {pdir : Nat} (isDir : pdir ∈ dirs) {growth : Nat} {loaded : Machine}
    (inUserHalf : SegmentsInUserHalf binary leftover)
    (isLoaded : elfLoadExecutable binary leftover pdir (leaveAddressSpace machine pdir growth) =
      some loaded)
    (ok : (loop processStackPages (mapStackPage pdir) (loaded, [])).1.phys.Ok) {frame : Nat}
    (free : machine.phys.refcount frame = 0)
    (stillManaged :
      (loop processStackPages (mapStackPage pdir) (loaded, [])).1.phys.Managed frame)
    (stillFree :
      (loop processStackPages (mapStackPage pdir) (loaded, [])).1.phys.refcount frame = 0) :
    (loop processStackPages (mapStackPage pdir) (loaded, [])).1.memory frame =
      machine.memory frame := by
  rw [mapStackPage_eq] at ok stillManaged stillFree ⊢
  have loadOk := guard_of_loop (fun state : Machine × List Nat => state.1.phys.Ok)
    (fun _ _ => ok_of_mapNextPage) ok
  have leaveOk := ok_of_elfLoadExecutable isLoaded loadOk
  have grown := growHeap_mapped mapped ((removeAddressSpace_ok _ _).mp leaveOk)
  rcases removeAddressSpace_spec grown isDir with ⟨fewer, -, left, -⟩
  rcases (elfLoadExecutable_spec left isDir inUserHalf isLoaded loadOk).mapped with
    ⟨more, loadMapped, -⟩
  have stacked := mapNextPage_loop_keepsFree loadMapped isDir (fun index less => stack_lt less) ok
  have maps := mapsPages_loop loadMapped isDir (fun _ _ => rfl) (fun index less => stack_lt less) ok
  have later := (elfLoadExecutable_keepsFree left isDir inUserHalf isLoaded loadOk).trans stacked
    maps.grows
  rw [later frame stillManaged stillFree]
  exact leaveAddressSpace_keepsFree mapped isDir leaveOk free

theorem readyTwins_exec (sound : Sound kernel system) (differ : DifferInFree system other)
    (member : process ∈ system.processes) {growth : Nat}
    (inUserHalf : SegmentsInUserHalf binary leftover)
    (loaded : elfLoadExecutable binary leftover process.pdir
      (leaveAddressSpace system.machine process.pdir growth) = some machine)
    (ok : (loop processStackPages (mapStackPage process.pdir) (machine, [])).1.phys.Ok) :
    ∃ second, elfLoadExecutable binary leftover process.pdir
        (leaveAddressSpace other.machine process.pdir growth) = some second ∧
      (loop processStackPages (mapStackPage process.pdir) (second, [])).2 =
        (loop processStackPages (mapStackPage process.pdir) (machine, [])).2 ∧
      ReadyTwins kernel system other
        { system with
          machine := (loop processStackPages (mapStackPage process.pdir) (machine, [])).1 }
        { other with
          machine := (loop processStackPages (mapStackPage process.pdir) (second, [])).1 } := by
  rcases sound.mapped with ⟨tables, mapped⟩
  rcases twinSpaces_of_twins mapped differ.machine with ⟨spaces, loads⟩
  have isDir : process.pdir ∈ system.dirs := System.pdir_mem member
  have loopOk := ok
  rw [mapStackPage_eq] at loopOk
  have loadOk := guard_of_loop (fun state : Machine × List Nat => state.1.phys.Ok)
    (fun _ _ => ok_of_mapNextPage) loopOk
  have leaveOk := ok_of_elfLoadExecutable loaded loadOk
  have left := twinSpaces_leaveAddressSpace spaces isDir leaveOk
  have otherLeaveOk : (leaveAddressSpace other.machine process.pdir growth).phys.Ok :=
    left.phys ▸ leaveOk
  rcases spaces.mapped with ⟨structures, before, otherBefore⟩
  have leftLoads := sameLoads_leaveAddressSpace before otherBefore isDir loads leaveOk otherLeaveOk
  rcases twinSpaces_elfLoadExecutable left isDir inUserHalf loaded loadOk with
    ⟨second, otherLoaded, twins⟩
  have otherLoadOk : second.phys.Ok := twins.phys ▸ loadOk
  have loadedLoads := sameLoads_elfLoadExecutable left isDir inUserHalf leftLoads loaded otherLoaded
    loadOk otherLoadOk
  have stacked := twins.mapNextPage_loop isDir (fun index less => stack_lt less) loopOk
  rw [← mapStackPage_eq] at stacked
  have otherOk : (loop processStackPages (mapStackPage process.pdir) (second, [])).1.phys.Ok :=
    stacked.1.phys ▸ ok
  refine ⟨second, otherLoaded, stacked.2, differ.processes, differ.procPid, stacked.1, ?_, ?_⟩
  · rcases twins.mapped with ⟨more, loadMapped, otherLoadMapped⟩
    have otherLoopOk := otherOk
    rw [mapStackPage_eq] at otherLoopOk
    have maps := mapsPages_loop loadMapped isDir (fun _ _ => rfl) (fun index less => stack_lt less)
      loopOk
    have otherMaps := mapsPages_loop otherLoadMapped isDir (fun _ _ => rfl)
      (fun index less => stack_lt less) otherLoopOk
    rw [← mapStackPage_eq] at maps otherMaps
    exact sameLoads_of_mapsPages maps otherMaps loadedLoads
  · intro frame free stillManaged stillFree
    refine ⟨execve_keepsFree before isDir inUserHalf loaded ok free stillManaged stillFree, ?_⟩
    refine execve_keepsFree otherBefore isDir inUserHalf otherLoaded otherOk ?_ ?_ ?_
    · rw [spaces.phys]
      exact free
    · rw [stacked.1.phys]
      exact stillManaged
    · rw [stacked.1.phys]
      exact stillFree

end Exec

end Dbos.Loader
