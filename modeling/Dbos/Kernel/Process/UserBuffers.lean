import Dbos.Kernel.Memory.CopyOnWrite
import Dbos.Kernel.Memory.Window
import Dbos.Kernel.Process.Listing
import Dbos.Kernel.Process.Nodes

/-! # System calls that fill in a buffer

`sysc_read`, `sysc_ps` and `sysc_list` store to a buffer of the process that calls them.
They use its page tables, but in supervisor mode, and the boot code leaves `CR0.WP` clear:
such a store does not look at the bit `read_write` of an entry, so a page that is shared
after a fork is not copied first. -/

namespace Dbos.UserBuffers

open Dbos.Paging Dbos.Execution
open Dbos.Nodes (Item syscGetProcNode)

/-! ## Stores of the kernel -/

/-- A store in supervisor mode, or `none` for a page fault, after which the kernel halts. -/
def kernelStore (memory : Memory) (dir address : Nat) (value : UInt8) : Option Memory :=
  (Window.walk memory dir (address / 4096)).map fun frame =>
    setWord memory frame (address % 4096 / 4)
      (withByte (memory frame (address % 4096 / 4)) (address % 4) value)

def storeAll (memory : Memory) (dir : Nat) : List (Nat × UInt8) → Option Memory
  | [] => some memory
  | (address, value) :: stores =>
      (kernelStore memory dir address value).bind fun memory => storeAll memory dir stores

/-- The stores of bytes that follow each other. -/
def storesAt (address : Nat) : List UInt8 → List (Nat × UInt8)
  | [] => []
  | byte :: bytes => (address, byte) :: storesAt (address + 1) bytes

/-! ## The system calls -/

/-- The node that `dir_read` finds, with the bytes of its name up to the `NUL`. -/
structure FoundNode where
  typeFlags : Nat
  size : Nat
  name : List UInt8

/-- `vfs_gen_node_t`, as far as the calls use it. The two functions are those of the driver:
`node_read` returns a number and copies bytes to the buffer. -/
structure VfsNode where
  typeFlags : Nat
  nodeRead : Nat → Nat → Nat → Int × List UInt8
  dirRead : Int → Option FoundNode

/-- `VFS_NODE_TYPE_DIRE`. -/
def vfsNodeTypeDire : Nat := 0x20

/-- `proc_t`, as far as `sysc_ps` copies it. -/
structure ListedProcess where
  pid : Int
  cpl : Nat
  state : Nat
  type : Nat
  name : Fin 128 → UInt8
  details : Fin 256 → UInt8

/-- What the calls find in the kernel: the nodes of the process and the tree of processes. -/
structure KernelData where
  nodes : List (Item VfsNode)
  processTree : GenTree ListedProcess

def wordOf (value : Int) : Nat := (value % 2 ^ 32).toNat

def bytesOfWord (word : Nat) : List UInt8 := (List.range 4).map (byteOf word)

def bytesOfHalf (word : Nat) : List UInt8 := (List.range 2).map (byteOf word)

/-- `sysc_read`: the value of `eax` and the stores. -/
def syscRead (kernel : KernelData) (nodeId : Int) (startAt size buffer : Nat) :
    Int × List (Nat × UInt8) :=
  match syscGetProcNode kernel.nodes nodeId with
  | none => (-1, [])
  | some node =>
      let (ret, bytes) := node.nodeRead startAt size buffer
      (ret, storesAt buffer bytes)

/-- `sysc_ps`. In a `ps_en_t`, `cmd` and `details` lie between `pid` and `state`. -/
def syscPs (kernel : KernelData) (entry : Nat) (no : Int) : Int × List (Nat × UInt8) :=
  match GenTree.getNextRecurs no 0 kernel.processTree with
  | none => (-1, [])
  | some proc =>
      (0, storesAt entry (bytesOfWord (wordOf proc.pid)) ++
        storesAt (entry + 388) (bytesOfWord proc.state) ++
        storesAt (entry + 392) (bytesOfWord proc.cpl) ++
        storesAt (entry + 396) (bytesOfWord proc.type) ++
        storesAt (entry + 4) (List.ofFn proc.name) ++
        storesAt (entry + 132) (List.ofFn proc.details))

/-- `sysc_list`. In a `dir_en_t`, `size` and `type` lie behind the 255 bytes of `name`. -/
def syscList (kernel : KernelData) (nodeId : Int) (entry : Nat) (no : Int) :
    Int × List (Nat × UInt8) :=
  match syscGetProcNode kernel.nodes nodeId with
  | none => (-1, [])
  | some node =>
      if node.typeFlags ≠ vfsNodeTypeDire then (-1, [])
      else
        match node.dirRead no with
        | none => (-1, [])
        | some foundNode =>
            (0, storesAt (entry + 260) (bytesOfHalf foundNode.typeFlags) ++
              storesAt (entry + 256) (bytesOfWord foundNode.size) ++
              storesAt entry foundNode.name)

inductive Call where
  | read (nodeId : Int) (startAt size buffer : Nat)
  | ps (entry : Nat) (no : Int)
  | list (nodeId : Int) (entry : Nat) (no : Int)

def serve (kernel : KernelData) : Call → Int × List (Nat × UInt8)
  | .read nodeId startAt size buffer => syscRead kernel nodeId startAt size buffer
  | .ps entry no => syscPs kernel entry no
  | .list nodeId entry no => syscList kernel nodeId entry no

/-- The buffer lies in the user half. -/
def InUserHalf (stores : List (Nat × UInt8)) : Prop := ∀ store ∈ stores, store.1 < userEnd

instance (stores : List (Nat × UInt8)) : Decidable (InUserHalf stores) :=
  inferInstanceAs (Decidable (∀ store ∈ stores, store.1 < userEnd))

/-- The stores of a call of the process. -/
def fillIn (system : System) (pid : Nat) (stores : List (Nat × UInt8)) : Option System :=
  (system.find pid).bind fun process =>
    (storeAll system.machine.memory process.pdir stores).map fun memory =>
      { system with machine := { system.machine with memory } }

/-- What happens to the system, the calls included. -/
inductive Happening where
  | event (event : Event)
  | call (pid : Nat) (kernel : KernelData) (call : Call)

def step (system : System) : Happening → Option System
  | .event event => system.step event
  | .call pid kernel call =>
      if InUserHalf (serve kernel call).2 then fillIn system pid (serve kernel call).2 else none

/-! ## Bytes of physical memory -/

/-- The frame and the offset that an address of the process leads to. -/
def placeOf (memory : Memory) (dir address : Nat) : Option (Nat × Nat) :=
  (userEntry memory dir (address / 4096)).map fun word => (pageAddr word, address % 4096)

def byteAt (memory : Memory) (place : Nat × Nat) : UInt8 :=
  byteOf (memory place.1 (place.2 / 4)) (place.2 % 4)

theorem userLoad_eq (memory : Memory) (dir address : Nat) :
    userLoad memory dir address = (placeOf memory dir address).map (byteAt memory) := by
  have sameByte : address % 4096 % 4 = address % 4 := by omega
  unfold userLoad placeOf pageWords byteAt
  rw [Option.map_map, Option.map_map]
  simp only [Function.comp_def, sameByte]

section Stores

variable {memory : Memory} {phys : Phys} {held dirs tables : Finset Nat} {dir address : Nat}

theorem walk_eq (mapped : Mapped ⟨memory, phys⟩ held dirs tables) (isDir : dir ∈ dirs) {page : Nat}
    (bound : page < userPages) :
    Window.walk memory dir page = (userEntry memory dir page).map pageAddr := by
  unfold Window.walk userEntry
  simp only
  cases present : presentBit (memory dir (page / 1024)) with
  | false => rfl
  | true =>
      have isEntry : (dir, page / 1024) ∈ directoryEntries dirs :=
        mem_directoryEntries.mpr ⟨isDir, div_lt_of_lt_userPages bound⟩
      have user : userSupervisor (memory dir (page / 1024)) = true :=
        (mapped.links.linked _ isEntry present).2.2
      have isSlot := slotOf_mem mapped.links isDir bound present
      cases wordPresent : presentBit (memory (pageAddr (memory dir (page / 1024))) (page % 1024)) with
      | false => simp
      | true =>
          have wordUser : userSupervisor
              (memory (pageAddr (memory dir (page / 1024))) (page % 1024)) = true :=
            (mapped.counted.named _ isSlot wordPresent).2.2.2
          simp [user, wordUser]

/-- The bytes that stores have changed. -/
structure Filled (memory next : Memory) (phys : Phys) (held dirs tables : Finset Nat) (dir : Nat)
    (stores : List (Nat × UInt8)) : Prop where
  mapped : Mapped ⟨next, phys⟩ held dirs tables
  places : ∀ other ∈ dirs, ∀ address < userEnd,
    placeOf next other address = placeOf memory other address
  kept : ∀ place, (∀ store ∈ stores, placeOf memory dir store.1 ≠ some place) →
    byteAt next place = byteAt memory place
  stored : ∀ place, (∃ store ∈ stores, placeOf memory dir store.1 = some place) →
    ∃ store ∈ stores, placeOf memory dir store.1 = some place ∧ byteAt next place = store.2

theorem byteAt_setWord (memory : Memory) (place other : Nat × Nat) (value : UInt8) :
    byteAt (setWord memory place.1 (place.2 / 4)
        (withByte (memory place.1 (place.2 / 4)) (place.2 % 4) value)) other =
      if other = place then value else byteAt memory other := by
  unfold byteAt
  by_cases sameWord : other.1 = place.1 ∧ other.2 / 4 = place.2 / 4
  · rw [sameWord.1, sameWord.2, setWord_self,
      byteOf_withByte _ _ (Nat.mod_lt _ (by decide)) (Nat.mod_lt _ (by decide))]
    have sameByte : other.2 % 4 = place.2 % 4 ↔ other = place := by
      rw [Prod.ext_iff]
      omega
    simp only [sameByte]
  · have different : other ≠ place := by
      intro same
      rw [same] at sameWord
      exact sameWord ⟨rfl, rfl⟩
    rw [if_neg different]
    rw [not_and_or] at sameWord
    rw [setWord_of_ne _ _ sameWord]

theorem kernelStore_spec (mapped : Mapped ⟨memory, phys⟩ held dirs tables) (isDir : dir ∈ dirs)
    (bound : address < userEnd) {place : Nat × Nat}
    (found : placeOf memory dir address = some place) (value : UInt8) :
    ∃ next, kernelStore memory dir address value = some next ∧
      Mapped ⟨next, phys⟩ held dirs tables ∧
      (∀ other ∈ dirs, ∀ otherAddress < userEnd,
        placeOf next other otherAddress = placeOf memory other otherAddress) ∧
      ∀ other, byteAt next other = if other = place then value else byteAt memory other := by
  rcases Option.map_eq_some_iff.mp found with ⟨word, isWord, rfl⟩
  have unused := mapped.frame_unused isDir (page_lt bound) isWord
  have written := mapped.write unused.1 unused.2
  have sameByte : address % 4096 % 4 = address % 4 := by omega
  have isStore : kernelStore memory dir address value = some (setWord memory (pageAddr word)
      (address % 4096 / 4) (withByte (memory (pageAddr word) (address % 4096 / 4))
        (address % 4096 % 4) value)) := by
    unfold kernelStore
    rw [walk_eq mapped isDir (page_lt bound), isWord, sameByte]
    rfl
  refine ⟨_, isStore, (written _).1, ?_, fun other => ?_⟩
  · intro other isOther otherAddress otherBound
    unfold placeOf setWord
    rw [(written _).2 other isOther _ (page_lt otherBound)]
  · exact byteAt_setWord memory (pageAddr word, address % 4096) other value

theorem kernelStore_of_missing (mapped : Mapped ⟨memory, phys⟩ held dirs tables)
    (isDir : dir ∈ dirs) (bound : address < userEnd) (missing : placeOf memory dir address = none)
    (value : UInt8) : kernelStore memory dir address value = none := by
  unfold kernelStore
  rw [walk_eq mapped isDir (page_lt bound), Option.map_eq_none_iff.mp missing]
  rfl

theorem storeAll_spec {stores : List (Nat × UInt8)}
    (mapped : Mapped ⟨memory, phys⟩ held dirs tables) (isDir : dir ∈ dirs)
    (inUserHalf : InUserHalf stores)
    (present : ∀ store ∈ stores, (placeOf memory dir store.1).isSome = true) :
    ∃ next, storeAll memory dir stores = some next ∧
      Filled memory next phys held dirs tables dir stores := by
  induction stores generalizing memory with
  | nil =>
      exact ⟨memory, rfl, mapped, fun _ _ _ _ => rfl, fun _ _ => rfl, by simp⟩
  | cons store stores induction =>
      rcases store with ⟨address, value⟩
      have bound : address < userEnd := inUserHalf _ List.mem_cons_self
      rcases Option.isSome_iff_exists.mp (present _ List.mem_cons_self) with ⟨place, found⟩
      rcases kernelStore_spec mapped isDir bound found value with
        ⟨middle, isMiddle, middleMapped, places, bytes⟩
      have later : InUserHalf stores := fun store member =>
        inUserHalf store (List.mem_cons_of_mem _ member)
      have samePlace : ∀ store ∈ stores, placeOf middle dir store.1 = placeOf memory dir store.1 :=
        fun store member => places dir isDir _ (later store member)
      rcases induction middleMapped later (fun store member => by
        rw [samePlace store member]
        exact present store (List.mem_cons_of_mem _ member)) with ⟨next, isNext, filled⟩
      refine ⟨next, ?_, filled.mapped, ?_, ?_, ?_⟩
      · rw [storeAll, isMiddle]
        exact isNext
      · intro other isOther otherAddress otherBound
        rw [filled.places other isOther otherAddress otherBound,
          places other isOther otherAddress otherBound]
      · intro other untouched
        have notHere : other ≠ place := fun same =>
          untouched _ List.mem_cons_self (same ▸ found)
        rw [filled.kept other fun store member => by
          rw [samePlace store member]
          exact untouched store (List.mem_cons_of_mem _ member), bytes other, if_neg notHere]
      · intro other touched
        by_cases later : ∃ store ∈ stores, placeOf memory dir store.1 = some other
        · rcases later with ⟨store, member, isPlace⟩
          rcases filled.stored other ⟨store, member, by rw [samePlace store member, isPlace]⟩ with
            ⟨last, lastMember, lastPlace, isByte⟩
          rw [samePlace last lastMember] at lastPlace
          exact ⟨last, List.mem_cons_of_mem _ lastMember, lastPlace, isByte⟩
        · -- The first store is the only one to this place.
          have untouched : ∀ store ∈ stores, placeOf memory dir store.1 ≠ some other :=
            fun store member isPlace => later ⟨store, member, isPlace⟩
          rcases touched with ⟨store, member, isPlace⟩
          rcases List.mem_cons.mp member with isFirst | isLater
          · subst isFirst
            rw [found] at isPlace
            cases isPlace
            refine ⟨_, List.mem_cons_self, found, ?_⟩
            rw [filled.kept place fun store member => by
              rw [samePlace store member]
              exact untouched store member, bytes place, if_pos rfl]
          · exact absurd isPlace (untouched store isLater)

theorem present_of_storeAll {stores : List (Nat × UInt8)}
    (mapped : Mapped ⟨memory, phys⟩ held dirs tables) (isDir : dir ∈ dirs)
    (inUserHalf : InUserHalf stores) {next : Memory}
    (isNext : storeAll memory dir stores = some next) :
    ∀ store ∈ stores, (placeOf memory dir store.1).isSome = true := by
  induction stores generalizing memory with
  | nil => simp
  | cons store stores induction =>
      rcases store with ⟨address, value⟩
      have bound : address < userEnd := inUserHalf _ List.mem_cons_self
      cases found : placeOf memory dir address with
      | none =>
          rw [storeAll, kernelStore_of_missing mapped isDir bound found] at isNext
          cases isNext
      | some place =>
          rcases kernelStore_spec mapped isDir bound found value with
            ⟨middle, isMiddle, middleMapped, places, -⟩
          rw [storeAll, isMiddle] at isNext
          have later : InUserHalf stores := fun store member =>
            inUserHalf store (List.mem_cons_of_mem _ member)
          intro store member
          rcases List.mem_cons.mp member with rfl | isLater
          · rw [found]
            rfl
          · rw [← places dir isDir _ (later store isLater)]
            exact induction middleMapped later isNext store isLater

end Stores

/-! ## Reachable systems -/

section Systems

variable {kernel : Finset Nat} {system next : System} {process : Process}

theorem find_of_mem (coherent : Coherent kernel system) (member : process ∈ system.processes) :
    system.find process.pid = some process := by
  cases found : system.find process.pid with
  | none =>
      have absent := List.find?_eq_none.mp found process member
      simp at absent
  | some other =>
      obtain ⟨isOther, samePid⟩ := System.of_find found
      rw [coherent.eq_of_pid member isOther samePid]

theorem load_eq (coherent : Coherent kernel system) (member : process ∈ system.processes)
    (address : Nat) : system.load process.pid address =
      (placeOf system.machine.memory process.pdir address).map
        (byteAt system.machine.memory) := by
  rw [System.load, find_of_mem coherent member, Option.bind_some, userLoad_eq]

theorem simulates_self (coherent : Coherent kernel system) :
    Simulates kernel system ⟨system.load, system.procPid⟩ := by
  refine ⟨coherent, rfl, fun process member address _ => ?_, fun pid absent address _ => ?_⟩
  · change userLoad _ _ _ = system.load process.pid address
    rw [System.load, find_of_mem coherent member, Option.bind_some]
  · have missing : system.find pid = none := by
      rw [System.find, List.find?_eq_none]
      simpa using absent
    change system.load pid address = none
    rw [System.load, missing, Option.bind_none]

theorem fillIn_spec (coherent : Coherent kernel system) {pid : Nat} {stores : List (Nat × UInt8)}
    (found : system.find pid = some process) (inUserHalf : InUserHalf stores)
    (filledIn : fillIn system pid stores = some next) :
    Coherent kernel next ∧ next.processes = system.processes ∧
      next.machine.phys = system.machine.phys ∧
      (∀ store ∈ stores, (placeOf system.machine.memory process.pdir store.1).isSome = true) ∧
      ∃ tables, Filled system.machine.memory next.machine.memory system.machine.phys
        (kernel ∪ system.dirs) system.dirs tables process.pdir stores := by
  obtain ⟨tables, mapped⟩ := coherent.mapped
  have isDir := System.pdir_mem (System.of_find found).1
  rw [fillIn, found, Option.bind_some] at filledIn
  obtain ⟨memory, isStored, rfl⟩ := Option.map_eq_some_iff.mp filledIn
  have present := present_of_storeAll mapped isDir inUserHalf isStored
  obtain ⟨again, isAgain, filled⟩ := storeAll_spec mapped isDir inUserHalf present
  rw [isStored, Option.some_inj] at isAgain
  subst isAgain
  exact ⟨⟨⟨tables, filled.mapped⟩, coherent.apart, coherent.pids, coherent.pdirs, coherent.bound⟩,
    rfl, rfl, present, tables, filled⟩

theorem coherent_step {happening : Happening} (coherent : Coherent kernel system)
    (stepped : step system happening = some next) (ok : next.machine.phys.Ok) :
    Coherent kernel next := by
  cases happening with
  | event event => exact ((simulates_self coherent).step stepped ok).coherent
  | call pid data call =>
      rw [step, Option.ite_none_right_eq_some] at stepped
      obtain ⟨inUserHalf, filledIn⟩ := stepped
      obtain ⟨process, found, -⟩ := Option.bind_eq_some_iff.mp filledIn
      exact (fillIn_spec coherent found inUserHalf filledIn).1

theorem ok_of_step (system : System) (happening : Happening) (next : System)
    (stepped : step system happening = some next) (ok : next.machine.phys.Ok) :
    system.machine.phys.Ok := by
  cases happening with
  | event event => exact System.ok_of_step system event next stepped ok
  | call pid data call =>
      rw [step, Option.ite_none_right_eq_some] at stepped
      obtain ⟨process, -, stored⟩ := Option.bind_eq_some_iff.mp stepped.2
      obtain ⟨memory, -, rfl⟩ := Option.map_eq_some_iff.mp stored
      exact ok

theorem coherent_run {machine : Machine} {kernelDir heapEnd : Nat}
    (booted : Booted machine kernelDir) {happenings : List Happening}
    (reached : run step (System.boot machine kernelDir heapEnd) happenings = some system)
    (ok : system.machine.phys.Ok) : Coherent ∅ system := by
  have kept : ∀ (system : System) (happening : Happening) (next : System) (_ : Unit),
      Coherent ∅ system → step system happening = some next → next.machine.phys.Ok →
        Coherent ∅ next := fun _ _ _ _ coherent stepped nextOk =>
    coherent_step coherent stepped nextOk
  exact @run_simulates System Happening step Unit (fun system => system.machine.phys.Ok)
    (fun _ _ => ()) (fun system _ => Coherent ∅ system) ok_of_step kept _ _ () _
    (simulates_boot booted heapEnd).coherent reached ok

/-! ## What a call may do -/

/-- The call returns, the other processes load what they loaded before, and the caller
loads what has been stored. -/
def Respects (system : System) (pid : Nat) (stores : List (Nat × UInt8)) : Prop :=
  ∃ next, fillIn system pid stores = some next ∧
    (∀ other ∈ system.processes, other.pid ≠ pid → ∀ address < userEnd,
      next.load other.pid address = system.load other.pid address) ∧
    ∀ store ∈ stores, next.load pid store.1 = some store.2

/-- The page of the store is there, and no other process reaches the same byte, unless it
has the stored value already; no other store of the call changes it. -/
structure Unshared (system : System) (process : Process) (stores : List (Nat × UInt8))
    (store : Nat × UInt8) (place : Nat × Nat) : Prop where
  present : placeOf system.machine.memory process.pdir store.1 = some place
  others : ∀ other ∈ system.processes, other.pid ≠ process.pid → ∀ address < userEnd,
    placeOf system.machine.memory other.pdir address = some place →
      byteAt system.machine.memory place = store.2
  stores : ∀ second ∈ stores,
    placeOf system.machine.memory process.pdir second.1 = some place → second.2 = store.2

theorem unshared_of_respects (coherent : Coherent kernel system)
    (member : process ∈ system.processes) {stores : List (Nat × UInt8)}
    (inUserHalf : InUserHalf stores) (respects : Respects system process.pid stores) :
    ∀ store ∈ stores, ∃ place, Unshared system process stores store place := by
  obtain ⟨next, filledIn, unchanged, seen⟩ := respects
  obtain ⟨nextCoherent, processes, -, present, tables, filled⟩ :=
    fillIn_spec coherent (find_of_mem coherent member) inUserHalf filledIn
  have isDir := System.pdir_mem member
  have seenByte : ∀ store ∈ stores, ∀ place,
      placeOf system.machine.memory process.pdir store.1 = some place →
        byteAt next.machine.memory place = store.2 := by
    intro store isStore place isPlace
    have loaded := seen store isStore
    rwa [load_eq nextCoherent (processes ▸ member), filled.places _ isDir _ (inUserHalf _ isStore),
      isPlace, Option.map_some, Option.some_inj] at loaded
  intro store isStore
  obtain ⟨place, isPlace⟩ := Option.isSome_iff_exists.mp (present store isStore)
  refine ⟨place, isPlace, fun other isOther different address bound otherPlace => ?_,
    fun second isSecond secondPlace => ?_⟩
  · have loaded := unchanged other isOther different address bound
    rw [load_eq nextCoherent (processes ▸ isOther), load_eq coherent isOther,
      filled.places _ (System.pdir_mem isOther) _ bound, otherPlace, Option.map_some,
      Option.map_some, Option.some_inj] at loaded
    rw [← loaded, seenByte store isStore place isPlace]
  · rw [← seenByte second isSecond place secondPlace, seenByte store isStore place isPlace]

theorem respects_of_unshared (coherent : Coherent kernel system)
    (member : process ∈ system.processes) {stores : List (Nat × UInt8)}
    (inUserHalf : InUserHalf stores)
    (unshared : ∀ store ∈ stores, ∃ place, Unshared system process stores store place) :
    Respects system process.pid stores := by
  obtain ⟨tables, mapped⟩ := coherent.mapped
  have isDir := System.pdir_mem member
  have found := find_of_mem coherent member
  have present : ∀ store ∈ stores,
      (placeOf system.machine.memory process.pdir store.1).isSome = true := by
    intro store isStore
    obtain ⟨place, isUnshared⟩ := unshared store isStore
    rw [isUnshared.present]
    rfl
  obtain ⟨memory, isStored, -⟩ := storeAll_spec mapped isDir inUserHalf present
  have filledIn : fillIn system process.pid stores =
      some { system with machine := { system.machine with memory } } := by
    rw [fillIn, found, Option.bind_some, isStored, Option.map_some]
  obtain ⟨nextCoherent, processes, -, -, tables, filled⟩ :=
    fillIn_spec coherent found inUserHalf filledIn
  refine ⟨_, filledIn, fun other isOther different address bound => ?_, fun store isStore => ?_⟩
  · rw [load_eq nextCoherent (processes ▸ isOther), load_eq coherent isOther,
      filled.places _ (System.pdir_mem isOther) _ bound]
    cases otherPlace : placeOf system.machine.memory other.pdir address with
    | none => rfl
    | some place =>
        rw [Option.map_some, Option.map_some, Option.some_inj]
        by_cases touched : ∃ store ∈ stores,
            placeOf system.machine.memory process.pdir store.1 = some place
        · obtain ⟨store, isStore, isPlace, isByte⟩ := filled.stored place touched
          obtain ⟨_, isUnshared⟩ := unshared store isStore
          obtain rfl := Option.some_inj.mp (isPlace.symm.trans isUnshared.present)
          rw [isByte, isUnshared.others other isOther different address bound otherPlace]
        · exact filled.kept place fun store isStore isPlace => touched ⟨store, isStore, isPlace⟩
  · obtain ⟨place, isUnshared⟩ := unshared store isStore
    obtain ⟨last, isLast, isPlace, isByte⟩ :=
      filled.stored place ⟨store, isStore, isUnshared.present⟩
    rw [load_eq nextCoherent (processes ▸ member), filled.places _ isDir _ (inUserHalf _ isStore),
      isUnshared.present, Option.map_some, isByte, isUnshared.stores last isLast isPlace]

/-- In a reachable system a call respects copy-on-write if and only if no byte that it
stores to is shared. -/
theorem respects_iff {machine : Machine} {kernelDir heapEnd : Nat}
    (booted : Booted machine kernelDir) {happenings : List Happening}
    (reached : run step (System.boot machine kernelDir heapEnd) happenings = some system)
    (ok : system.machine.phys.Ok) (member : process ∈ system.processes) (data : KernelData)
    (call : Call) (inUserHalf : InUserHalf (serve data call).2) :
    Respects system process.pid (serve data call).2 ↔
      ∀ store ∈ (serve data call).2, ∃ place,
        Unshared system process (serve data call).2 store place :=
  have coherent := coherent_run booted reached ok
  ⟨unshared_of_respects coherent member inUserHalf,
    respects_of_unshared coherent member inUserHalf⟩

end Systems

def sharedStack : List Happening :=
  [.event (.create 1 ⟨0, 0, 0⟩), .event (.store 2 0x40000000 7), .event (.fork 2 ⟨0, 0, 0⟩)]

/-- A node that delivers the byte `9`. -/
def nineData : KernelData :=
  { nodes := [⟨0, { typeFlags := 0, nodeRead := fun _ _ _ => (1, [9]), dirRead := fun _ => none }⟩]
    processTree := .node ⟨1, 0, 0, 0, fun _ => 0, fun _ => 0⟩ [] }

/-- What the clone reads from the node goes to its stack. -/
def nineCall : Call := .read 0 0 1 0x40000000

theorem inUserHalf_nineCall : InUserHalf (serve nineData nineCall).2 := by decide

theorem exists_sharedStack : ∃ system,
    run step (System.boot smallMachine 1 0) sharedStack = some system ∧ system.machine.phys.Ok ∧
      (∃ process ∈ system.processes, process.pid = 3) ∧
      (∃ process ∈ system.processes, process.pid = 2) ∧
      ∃ next, fillIn system 3 (serve nineData nineCall).2 = some next ∧
        next.load 2 0x40000000 ≠ system.load 2 0x40000000 := by
  have evaluated : (run step (System.boot smallMachine 1 0) sharedStack).any (fun system =>
      (!system.machine.phys.failed && !system.machine.phys.wrapped) &&
        ((system.processes.any fun process => process.pid = 3) &&
          ((system.processes.any fun process => process.pid = 2) &&
            (fillIn system 3 (serve nineData nineCall).2).any fun next =>
              next.load 2 0x40000000 != system.load 2 0x40000000))) = true := by
    decide +kernel
  obtain ⟨system, reached, good⟩ := (Option.any_eq_true _ _).mp evaluated
  simp only [Bool.and_eq_true, Bool.not_eq_true', List.any_eq_true, decide_eq_true_eq,
    Option.any_eq_true, bne_iff_ne] at good
  exact ⟨system, reached, good⟩

theorem respects_iff_sharedStack : ∃ system,
    run step (System.boot smallMachine 1 0) sharedStack = some system ∧
      ∃ process ∈ system.processes, process.pid = 3 ∧
        (Respects system process.pid (serve nineData nineCall).2 ↔
          ∀ store ∈ (serve nineData nineCall).2, ∃ place,
            Unshared system process (serve nineData nineCall).2 store place) := by
  obtain ⟨system, reached, ok, ⟨process, member, isThird⟩, -⟩ := exists_sharedStack
  exact ⟨system, reached, process, member, isThird,
    respects_iff booted_smallMachine reached ok member nineData nineCall inUserHalf_nineCall⟩

/-- The byte that the clone reads into its stack is seen by the process it was forked from. -/
theorem not_respects_sharedStack : ∃ system,
    run step (System.boot smallMachine 1 0) sharedStack = some system ∧
      InUserHalf (serve nineData nineCall).2 ∧
      ¬Respects system 3 (serve nineData nineCall).2 := by
  obtain ⟨system, reached, -, -, ⟨process, member, isSecond⟩, next, filledIn, changed⟩ :=
    exists_sharedStack
  refine ⟨system, reached, inUserHalf_nineCall, ?_⟩
  rintro ⟨other, isOther, unchanged, -⟩
  obtain rfl := Option.some_inj.mp (filledIn.symm.trans isOther)
  have same := unchanged process member (by omega) 0x40000000 (by decide)
  rw [isSecond] at same
  exact changed same

end Dbos.UserBuffers
