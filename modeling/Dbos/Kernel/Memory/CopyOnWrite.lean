import Dbos.Foundation.Execution
import Dbos.Kernel.Process.Spaces

/-! # Copy-on-write

Processes that share frames after a fork see the memory they would see if `fork`
had copied it. The reference machine gives every process bytes of its own; it has
neither page tables nor faults. -/

namespace Dbos.Paging

open Dbos.Execution Phys

/-! ## The system -/

/-- What happens to the system. `map` stands for any way in which the kernel maps a
frame for a process, with the contents that the frame has then. -/
inductive Event where
  | create (parent : Nat) (growth : Growth)
  | map (pid page : Nat) (contents : Nat → Nat)
  | load (pid address : Nat)
  | store (pid address : Nat) (value : UInt8)
  | writeFault (pid address : Nat)
  | fork (pid : Nat) (growth : Growth)
  | removeAddressSpace (pid : Nat)
  | destroy (pid : Nat)

namespace System

def find (system : System) (pid : Nat) : Option Process :=
  system.processes.find? fun process => process.pid = pid

/-- What a load of a process returns, or `none` if it faults. -/
def load (system : System) (pid address : Nat) : Option UInt8 :=
  (system.find pid).bind fun process => userLoad system.machine.memory process.pdir address

/-- An access at the address ends at a page that is present but may not be written to. -/
def faults (system : System) (process : Process) (address : Nat) : Bool :=
  (userEntry system.machine.memory process.pdir (address / 4096)).isSome &&
    !userWritable system.machine.memory process.pdir (address / 4096)

/-- The steps of the system. A load or store that faults is no step: the processor
takes the fault instead, and tries again when it has been handled. -/
def step (system : System) : Event → Option System
  | .create parent growth =>
      (system.find parent).map fun process => procCreate system process.pdir growth
  | .map pid page contents =>
      (system.find pid).bind fun process =>
        if page < userPages then
          some { system with
            machine := (mapPage system.machine process.pdir page fun _ => contents).2 }
        else none
  | .load pid address =>
      if address < userEnd ∧ (system.load pid address).isSome then some system else none
  | .store pid address value =>
      (system.find pid).bind fun process =>
        if address < userEnd then
          (userStore system.machine.memory process.pdir address value).map fun memory =>
            { system with machine := { system.machine with memory } }
        else none
  | .writeFault pid address =>
      (system.find pid).bind fun process =>
        if address < userEnd ∧ system.faults process address then
          some { system with machine := copyOnWrite system.machine process.pdir (address / 4096) }
        else none
  | .fork pid growth => (system.find pid).map fun process => procClone system process growth
  | .removeAddressSpace pid =>
      (system.find pid).map fun process =>
        { system with machine := Paging.removeAddressSpace system.machine process.pdir }
  | .destroy pid => (system.find pid).map fun process => procDestroy system process

end System

/-! ## The reference machine -/

/-- The bytes of each process, by its id and the address. -/
structure Reference where
  contents : Nat → Nat → Option UInt8
  procPid : Nat

namespace Reference

def setContents (reference : Reference) (pid : Nat) (bytes : Nat → Option UInt8) : Reference :=
  { reference with contents := Function.update reference.contents pid bytes }

/-- The bytes of pages that are given by their words. -/
def bytesOf (words : Nat → Option (Nat → Nat)) (address : Nat) : Option UInt8 :=
  (words (address / 4096)).map fun page => byteOf (page (address % 4096 / 4)) (address % 4)

/-- The same events. A fork copies all bytes at once, and a write fault does nothing. -/
def step (reference : Reference) : Event → Reference
  | .create _ _ =>
      { reference.setContents (reference.procPid + 1) (bytesOf stackWords) with
        procPid := reference.procPid + 1 }
  | .map pid page contents =>
      reference.setContents pid fun address =>
        if address / 4096 = page then bytesOf (fun _ => some contents) address
        else reference.contents pid address
  | .load _ _ => reference
  | .store pid address value =>
      reference.setContents pid (Function.update (reference.contents pid) address (some value))
  | .writeFault _ _ => reference
  | .fork pid _ =>
      { reference.setContents (reference.procPid + 1) (reference.contents pid) with
        procPid := reference.procPid + 1 }
  | .removeAddressSpace pid => reference.setContents pid fun _ => none
  | .destroy pid =>
      if pid = 1 then reference else reference.setContents pid fun _ => none

/-- Nothing is mapped when the kernel process has been made. -/
def boot : Reference := { contents := fun _ _ => none, procPid := 1 }

end Reference

/-! ## Well-formed systems -/

def System.dirs (system : System) : Finset Nat := (system.processes.map Process.pdir).toFinset

/-- The address spaces of the processes are in order, and apart from the frames of
the `kernel`. -/
structure Coherent (kernel : Finset Nat) (system : System) : Prop where
  mapped : ∃ tables, Mapped system.machine (kernel ∪ system.dirs) system.dirs tables
  apart : Disjoint kernel system.dirs
  pids : (system.processes.map Process.pid).Nodup
  pdirs : (system.processes.map Process.pdir).Nodup
  bound : ∀ process ∈ system.processes, process.pid ≤ system.procPid

/-- The two machines show the same bytes. -/
structure Simulates (kernel : Finset Nat) (system : System) (reference : Reference) : Prop where
  coherent : Coherent kernel system
  procPid : reference.procPid = system.procPid
  seen : ∀ process ∈ system.processes, ∀ address < userEnd,
    userLoad system.machine.memory process.pdir address = reference.contents process.pid address
  unseen : ∀ pid, (∀ process ∈ system.processes, process.pid ≠ pid) → ∀ address < userEnd,
    reference.contents pid address = none

section Systems

variable {kernel : Finset Nat} {system : System} {reference : Reference} {process : Process}

theorem System.of_find {pid : Nat} (found : system.find pid = some process) :
    process ∈ system.processes ∧ process.pid = pid := by
  refine ⟨List.mem_of_find?_eq_some found, ?_⟩
  simpa using List.find?_some found

theorem System.pdir_mem (member : process ∈ system.processes) : process.pdir ∈ system.dirs :=
  List.mem_toFinset.mpr (List.mem_map_of_mem member)

theorem Coherent.eq_of_pdir (coherent : Coherent kernel system)
    (member : process ∈ system.processes)
    {other : Process} (otherMember : other ∈ system.processes) (same : other.pdir = process.pdir) :
    other = process :=
  List.inj_on_of_nodup_map coherent.pdirs otherMember member same

theorem Coherent.eq_of_pid (coherent : Coherent kernel system) (member : process ∈ system.processes)
    {other : Process} (otherMember : other ∈ system.processes) (same : other.pid = process.pid) :
    other = process :=
  List.inj_on_of_nodup_map coherent.pids otherMember member same

theorem Simulates.load_eq (simulates : Simulates kernel system reference) (pid : Nat)
    {address : Nat}
    (bound : address < userEnd) : system.load pid address = reference.contents pid address := by
  unfold System.load
  cases found : system.find pid with
  | some process =>
      rcases System.of_find found with ⟨member, rfl⟩
      exact simulates.seen process member address bound
  | none =>
      refine (simulates.unseen pid (fun process member isPid => ?_) address bound).symm
      have other := List.find?_eq_none.mp found process member
      simp [isPid] at other

theorem Simulates.keep (simulates : Simulates kernel system reference) {machine : Machine}
    (mapped : ∃ tables, Mapped machine (kernel ∪ system.dirs) system.dirs tables)
    (same : ∀ process ∈ system.processes, ∀ address < userEnd,
      userLoad machine.memory process.pdir address =
        userLoad system.machine.memory process.pdir address) :
    Simulates kernel { system with machine } reference := by
  refine ⟨⟨mapped, simulates.coherent.apart, simulates.coherent.pids, simulates.coherent.pdirs,
      simulates.coherent.bound⟩,
    simulates.procPid, fun other member address bound => ?_, simulates.unseen⟩
  rw [← simulates.seen other member address bound]
  exact same other member address bound

theorem Simulates.change (simulates : Simulates kernel system reference)
    (member : process ∈ system.processes) {machine : Machine} {bytes : Nat → Option UInt8}
    (mapped : ∃ tables, Mapped machine (kernel ∪ system.dirs) system.dirs tables)
    (own : ∀ address < userEnd, userLoad machine.memory process.pdir address = bytes address)
    (others : ∀ other ∈ system.processes, other.pdir ≠ process.pdir → ∀ address < userEnd,
      userLoad machine.memory other.pdir address =
        userLoad system.machine.memory other.pdir address) :
    Simulates kernel { system with machine } (reference.setContents process.pid bytes) := by
  refine ⟨⟨mapped, simulates.coherent.apart, simulates.coherent.pids, simulates.coherent.pdirs,
      simulates.coherent.bound⟩,
    simulates.procPid, fun other isOther address bound => ?_, fun pid absent address bound => ?_⟩
  · unfold Reference.setContents
    by_cases same : other.pid = process.pid
    · rw [simulates.coherent.eq_of_pid member isOther same]
      simp only [Function.update_self]
      exact own address bound
    · have different : other.pdir ≠ process.pdir := fun samePdir =>
        same (congrArg Process.pid (simulates.coherent.eq_of_pdir member isOther samePdir))
      simp only [Function.update_of_ne same]
      rw [← simulates.seen other isOther address bound]
      exact others other isOther different address bound
  · unfold Reference.setContents
    simp only [Function.update_of_ne (Ne.symm (absent process member))]
    exact simulates.unseen pid absent address bound

theorem System.dirs_append (machine : Machine) (processes : List Process) (process : Process)
    (procPid : Nat) : System.dirs ⟨machine, processes ++ [process], procPid⟩ =
      insert process.pdir (System.dirs ⟨machine, processes, procPid⟩) := by
  ext dir
  simp [System.dirs]

theorem Simulates.add (simulates : Simulates kernel system reference) {next : System}
    (adds : Adds system next (kernel ∪ system.dirs) system.dirs process)
    {bytes : Nat → Option UInt8}
    (own : ∀ address < userEnd, userLoad next.machine.memory process.pdir address =
      bytes address) :
    Simulates kernel next { reference.setContents (reference.procPid + 1) bytes with
      procPid := reference.procPid + 1 } := by
  rcases next with ⟨machine, processes, procPid⟩
  have isProcesses : processes = system.processes ++ [process] := adds.processes
  have isProcPid : procPid = system.procPid + 1 := adds.procPid
  subst isProcesses isProcPid
  have isOld : ∀ other ∈ system.processes, other.pid ≠ process.pid := by
    intro other member same
    have less := simulates.coherent.bound other member
    rw [same, adds.isPid] at less
    omega
  have unused := Finset.notMem_union.mp adds.isNew
  refine ⟨⟨?_, ?_, ?_, ?_, ?_⟩, by rw [simulates.procPid], ?_, ?_⟩
  · rw [System.dirs_append, Finset.union_insert]
    exact adds.mapped
  · rw [System.dirs_append]
    exact Finset.disjoint_insert_right.mpr ⟨unused.1, simulates.coherent.apart⟩
  · rw [List.map_append, List.map_singleton, List.nodup_append]
    refine ⟨simulates.coherent.pids, List.nodup_singleton _, fun pid isPid other isNew => ?_⟩
    rcases List.mem_map.mp isPid with ⟨old, member, rfl⟩
    rw [List.mem_singleton.mp isNew]
    exact isOld old member
  · rw [List.map_append, List.map_singleton, List.nodup_append]
    refine ⟨simulates.coherent.pdirs, List.nodup_singleton _, fun pdir isPdir other isNew => ?_⟩
    rcases List.mem_map.mp isPdir with ⟨old, member, rfl⟩
    rw [List.mem_singleton.mp isNew]
    exact fun same => unused.2 (same ▸ System.pdir_mem member)
  · intro other member
    rcases List.mem_append.mp member with old | isNew
    · exact (simulates.coherent.bound other old).trans (Nat.le_succ _)
    · rw [List.mem_singleton.mp isNew, adds.isPid]
  · intro other member address bound
    unfold Reference.setContents
    simp only [simulates.procPid, ← adds.isPid]
    rcases List.mem_append.mp member with old | isNew
    · rw [Function.update_of_ne (isOld other old), ← simulates.seen other old address bound]
      exact userLoad_congr (adds.words _ (System.pdir_mem old) _ (page_lt bound))
    · rw [List.mem_singleton.mp isNew, Function.update_self]
      exact own address bound
  · intro pid absent address bound
    unfold Reference.setContents
    simp only [simulates.procPid, ← adds.isPid]
    have notNew : pid ≠ process.pid := fun same =>
      absent process (List.mem_append_right _ (List.mem_singleton_self _)) same.symm
    rw [Function.update_of_ne notNew]
    exact simulates.unseen pid (fun other old => absent other (List.mem_append_left _ old)) address
      bound

/-! ## The steps -/

theorem Simulates.create (simulates : Simulates kernel system reference) {current : Nat}
    {growth : Growth} (ok : (procCreate system current growth).machine.phys.Ok) (parent : Nat) :
    Simulates kernel (procCreate system current growth) (reference.step (.create parent growth)) := by
  rcases simulates.coherent.mapped with ⟨tables, mapped⟩
  rcases procCreate_spec mapped ok with ⟨process, creates⟩
  refine simulates.add creates.toAdds fun address bound => ?_
  unfold userLoad Reference.bytesOf
  rw [creates.stack _ (page_lt bound)]

theorem Simulates.fork (simulates : Simulates kernel system reference)
    (member : process ∈ system.processes) {growth : Growth}
    (ok : (procClone system process growth).machine.phys.Ok) :
    Simulates kernel (procClone system process growth)
      (reference.step (.fork process.pid growth)) := by
  rcases simulates.coherent.mapped with ⟨tables, mapped⟩
  rcases procClone_spec mapped (System.pdir_mem member) ok with ⟨child, clones⟩
  refine simulates.add clones.toAdds fun address bound => ?_
  rw [← simulates.seen process member address bound]
  exact userLoad_congr (clones.copied _ (page_lt bound))

theorem Simulates.map (simulates : Simulates kernel system reference)
    (member : process ∈ system.processes) {page : Nat} (bound : page < userPages)
    {contents : Nat → Nat}
    (ok : (mapPage system.machine process.pdir page fun _ => contents).2.phys.Ok) :
    Simulates kernel { system with
        machine := (mapPage system.machine process.pdir page fun _ => contents).2 }
      (reference.step (.map process.pid page contents)) := by
  rcases simulates.coherent.mapped with ⟨tables, mapped⟩
  rcases mapPage_spec mapped (System.pdir_mem member) bound ok with ⟨more, next, words⟩
  refine simulates.change member ⟨more, next⟩ (fun address less => ?_)
    fun other isOther different address less => ?_
  · have isPage := words _ (System.pdir_mem member) _ (page_lt less)
    unfold userLoad
    rw [isPage]
    by_cases same : address / 4096 = page
    · simp [same, Reference.bytesOf]
    · simp only [same, and_false, if_false]
      rw [← simulates.seen process member address less]
      rfl
  · refine userLoad_congr ?_
    rw [words _ (System.pdir_mem isOther) _ (page_lt less), if_neg fun both => different both.1]

theorem Simulates.store (simulates : Simulates kernel system reference)
    (member : process ∈ system.processes) {address : Nat} (bound : address < userEnd)
    {value : UInt8} {memory : Memory}
    (stored : userStore system.machine.memory process.pdir address value = some memory) :
    Simulates kernel { system with machine := { system.machine with memory } }
      (reference.step (.store process.pid address value)) := by
  rcases simulates.coherent.mapped with ⟨tables, mapped⟩
  rcases userStore_spec mapped (System.pdir_mem member) bound stored with ⟨next, loads⟩
  refine simulates.change member ⟨tables, next⟩ (fun other less => ?_)
    fun other isOther different otherAddress less => ?_
  · rw [loads _ (System.pdir_mem member) other less]
    by_cases same : other = address
    · rw [if_pos ⟨rfl, same⟩, same, Function.update_self]
    · rw [if_neg fun both => same both.2, Function.update_of_ne same]
      exact simulates.seen process member other less
  · rw [loads _ (System.pdir_mem isOther) otherAddress less, if_neg fun both => different both.1]

theorem Simulates.writeFault (simulates : Simulates kernel system reference)
    (member : process ∈ system.processes) {address : Nat} (bound : address < userEnd)
    (faults : system.faults process address = true)
    (ok : (copyOnWrite system.machine process.pdir (address / 4096)).phys.Ok) :
    Simulates kernel { system with
      machine := copyOnWrite system.machine process.pdir (address / 4096) } reference := by
  rcases simulates.coherent.mapped with ⟨tables, mapped⟩
  unfold System.faults at faults
  rw [Bool.and_eq_true, Option.isSome_iff_exists] at faults
  rcases faults with ⟨⟨word, found⟩, -⟩
  rcases copyOnWrite_spec mapped (System.pdir_mem member) (page_lt bound) found ok with
    ⟨next, words, -⟩
  refine simulates.keep ⟨tables, next⟩ fun other isOther otherAddress less => ?_
  exact userLoad_congr (words _ (System.pdir_mem isOther) _ (page_lt less))

theorem Simulates.removeAddressSpace (simulates : Simulates kernel system reference)
    (member : process ∈ system.processes) :
    Simulates kernel { system with machine := Paging.removeAddressSpace system.machine process.pdir }
      (reference.step (.removeAddressSpace process.pid)) := by
  rcases simulates.coherent.mapped with ⟨tables, mapped⟩
  rcases removeAddressSpace_pageWords mapped (System.pdir_mem member) with ⟨fewer, next, words⟩
  refine simulates.change member ⟨fewer, next⟩ (fun address less => ?_)
    fun other isOther different address less => ?_
  · unfold userLoad
    rw [words _ (System.pdir_mem member) _ (page_lt less), if_pos rfl, Option.map_none]
  · refine userLoad_congr ?_
    rw [words _ (System.pdir_mem isOther) _ (page_lt less), if_neg different]

theorem Simulates.destroy (simulates : Simulates kernel system reference)
    (member : process ∈ system.processes) :
    Simulates kernel (procDestroy system process) (reference.step (.destroy process.pid)) := by
  by_cases isKernel : process.pid = 1
  · rw [procDestroy, if_pos isKernel, Reference.step, if_pos isKernel]
    exact simulates
  · rw [procDestroy, if_neg isKernel, Reference.step, if_neg isKernel]
    rcases simulates.coherent.mapped with ⟨tables, mapped⟩
    rcases nukePageDirectory_spec mapped (System.pdir_mem member) with ⟨fewer, next, sameMemory⟩
    have isLeft : ∀ other, other ∈ system.processes.filter (fun other =>
        other.pid ≠ process.pid) ↔ other ∈ system.processes ∧ other.pid ≠ process.pid := by
      intro other
      rw [List.mem_filter, decide_eq_true_iff]
    have notKernel : process.pdir ∉ kernel := fun isKernel =>
      Finset.disjoint_left.mp simulates.coherent.apart isKernel (System.pdir_mem member)
    have left : System.dirs { system with
        machine := nukePageDirectory system.machine process.pdir
        processes := system.processes.filter fun other => other.pid ≠ process.pid } =
          system.dirs.erase process.pdir := by
      ext dir
      simp only [System.dirs, List.mem_toFinset, List.mem_map, isLeft, Finset.mem_erase]
      constructor
      · rintro ⟨other, ⟨isOther, different⟩, rfl⟩
        refine ⟨fun same => different ?_, other, isOther, rfl⟩
        rw [simulates.coherent.eq_of_pdir member isOther same]
      · rintro ⟨different, other, isOther, rfl⟩
        refine ⟨other, ⟨isOther, fun same => different ?_⟩, rfl⟩
        rw [simulates.coherent.eq_of_pid member isOther same]
    rw [Finset.erase_union_distrib, Finset.erase_eq_of_notMem notKernel, ← left] at next
    refine ⟨⟨⟨fewer, next⟩, ?_, ?_, ?_, ?_⟩, simulates.procPid, ?_, ?_⟩
    · rw [left]
      exact simulates.coherent.apart.mono_right (Finset.erase_subset _ _)
    · exact simulates.coherent.pids.sublist (List.filter_sublist.map _)
    · exact simulates.coherent.pdirs.sublist (List.filter_sublist.map _)
    · exact fun other isOther => simulates.coherent.bound other ((isLeft other).mp isOther).1
    · intro other isOther address bound
      rcases (isLeft other).mp isOther with ⟨isOld, different⟩
      unfold Reference.setContents
      simp only [sameMemory, Function.update_of_ne different]
      exact simulates.seen other isOld address bound
    · intro pid absent address bound
      unfold Reference.setContents
      by_cases same : pid = process.pid
      · rw [same]
        simp only [Function.update_self]
      · simp only [Function.update_of_ne same]
        refine simulates.unseen pid (fun other isOld isPid => ?_) address bound
        exact absent other ((isLeft other).mpr ⟨isOld, isPid.trans_ne same⟩) isPid

theorem Simulates.step {event : Event} {next : System}
    (simulates : Simulates kernel system reference)
    (stepped : system.step event = some next) (ok : next.machine.phys.Ok) :
    Simulates kernel next (reference.step event) := by
  cases event with
  | create parent growth =>
      rcases Option.map_eq_some_iff.mp stepped with ⟨process, -, rfl⟩
      exact simulates.create ok parent
  | map pid page contents =>
      rcases Option.bind_eq_some_iff.mp stepped with ⟨process, found, mapped⟩
      rcases System.of_find found with ⟨member, rfl⟩
      rw [Option.ite_none_right_eq_some, Option.some.injEq] at mapped
      rcases mapped with ⟨bound, rfl⟩
      exact simulates.map member bound ok
  | load pid address =>
      rw [System.step, Option.ite_none_right_eq_some, Option.some.injEq] at stepped
      rcases stepped with ⟨-, rfl⟩
      exact simulates
  | store pid address value =>
      rcases Option.bind_eq_some_iff.mp stepped with ⟨process, found, stored⟩
      rcases System.of_find found with ⟨member, rfl⟩
      rw [Option.ite_none_right_eq_some] at stored
      rcases stored with ⟨bound, stored⟩
      rcases Option.map_eq_some_iff.mp stored with ⟨memory, isStored, rfl⟩
      exact simulates.store member bound isStored
  | writeFault pid address =>
      rcases Option.bind_eq_some_iff.mp stepped with ⟨process, found, faulted⟩
      rcases System.of_find found with ⟨member, rfl⟩
      rw [Option.ite_none_right_eq_some, Option.some.injEq] at faulted
      rcases faulted with ⟨⟨bound, faults⟩, rfl⟩
      exact simulates.writeFault member bound faults ok
  | fork pid growth =>
      rcases Option.map_eq_some_iff.mp stepped with ⟨process, found, rfl⟩
      rcases System.of_find found with ⟨member, rfl⟩
      exact simulates.fork member ok
  | removeAddressSpace pid =>
      rcases Option.map_eq_some_iff.mp stepped with ⟨process, found, rfl⟩
      rcases System.of_find found with ⟨member, rfl⟩
      exact simulates.removeAddressSpace member
  | destroy pid =>
      rcases Option.map_eq_some_iff.mp stepped with ⟨process, found, rfl⟩
      rcases System.of_find found with ⟨member, rfl⟩
      exact simulates.destroy member

theorem System.ok_of_step (system : System) (event : Event) (next : System)
    (stepped : system.step event = some next) (ok : next.machine.phys.Ok) :
    system.machine.phys.Ok := by
  cases event with
  | create parent growth =>
      rcases Option.map_eq_some_iff.mp stepped with ⟨process, -, rfl⟩
      exact ok_of_procCreate ok
  | map pid page contents =>
      rcases Option.bind_eq_some_iff.mp stepped with ⟨process, -, mapped⟩
      rw [Option.ite_none_right_eq_some, Option.some.injEq] at mapped
      rcases mapped with ⟨-, rfl⟩
      have mapOk : (mapPage system.machine process.pdir page fun _ => contents).2.phys.Ok := ok
      exact ok_of_allocPage (ok_of_mapPage mapOk)
  | load pid address =>
      rw [System.step, Option.ite_none_right_eq_some, Option.some.injEq] at stepped
      rcases stepped with ⟨-, rfl⟩
      exact ok
  | store pid address value =>
      rcases Option.bind_eq_some_iff.mp stepped with ⟨process, -, stored⟩
      rw [Option.ite_none_right_eq_some] at stored
      rcases Option.map_eq_some_iff.mp stored.2 with ⟨memory, -, rfl⟩
      exact ok
  | writeFault pid address =>
      rcases Option.bind_eq_some_iff.mp stepped with ⟨process, -, faulted⟩
      rw [Option.ite_none_right_eq_some, Option.some.injEq] at faulted
      rcases faulted with ⟨-, rfl⟩
      exact ok_of_copyOnWrite ok
  | fork pid growth =>
      rcases Option.map_eq_some_iff.mp stepped with ⟨process, -, rfl⟩
      exact ok_of_procClone ok
  | removeAddressSpace pid =>
      rcases Option.map_eq_some_iff.mp stepped with ⟨process, -, rfl⟩
      exact (removeAddressSpace_ok _ _).mp ok
  | destroy pid =>
      rcases Option.map_eq_some_iff.mp stepped with ⟨process, -, rfl⟩
      unfold procDestroy at ok
      split at ok
      · exact ok
      · exact (nukePageDirectory_ok _ _).mp ok

end Systems

/-! ## Runs from the boot state -/

/-- What `initialise_memory` leaves behind: the directory of the kernel is allocated,
and its user half is empty. -/
structure Booted (machine : Machine) (kernelDir : Nat) : Prop where
  valid : machine.phys.Valid
  managed : machine.phys.Managed kernelDir
  allocated : 1 ≤ machine.phys.refcount kernelDir
  empty : ∀ index < 768, machine.memory kernelDir index = 0

def System.boot (machine : Machine) (kernelDir heapEnd : Nat) : System :=
  { machine
    processes := [{ pid := 1, pdir := kernelDir, ustackPhys := [], heapEnd }]
    procPid := 1 }

theorem Booted.mapped {machine : Machine} {kernelDir : Nat} (booted : Booted machine kernelDir)
    {held : Finset Nat} (isHeld : kernelDir ∈ held)
    (frames : ∀ frame ∈ held, machine.phys.Managed frame ∧ 1 ≤ machine.phys.refcount frame) :
    Mapped machine held {kernelDir} ∅ := by
  refine ⟨⟨booted.valid, by simp, frames, by simp, by simp, ?_, ?_, ?_, ?_⟩, ?_,
    Finset.singleton_subset_iff.mpr isHeld⟩
  · simp [tableEntries]
  · simp [tableEntries]
  · simp [tableEntries, naming]
  · simp [tableEntries]
  · have zero : ∀ slot ∈ directoryEntries {kernelDir}, wordAt machine.memory slot = 0 := by
      intro slot isSlot
      rcases mem_directoryEntries.mp isSlot with ⟨isDir, bound⟩
      unfold wordAt
      rw [Finset.mem_singleton.mp isDir]
      exact booted.empty _ bound
    refine ⟨fun slot isSlot present => ?_, fun slot isSlot _ _ present => ?_, fun slot isSlot _ => ?_⟩
    · rw [zero slot isSlot, presentBit_zero] at present
      cases present
    · rw [zero slot isSlot, presentBit_zero] at present
      cases present
    · rw [zero slot isSlot]
      rfl

theorem simulates_boot {machine : Machine} {kernelDir : Nat} (booted : Booted machine kernelDir)
    (heapEnd : Nat) : Simulates ∅ (System.boot machine kernelDir heapEnd) Reference.boot := by
  refine ⟨⟨⟨∅, ?_⟩, ?_, ?_, ?_, ?_⟩, rfl, ?_, fun _ _ _ _ => rfl⟩
  · have held : ∀ frame ∈ ({kernelDir} : Finset Nat),
        machine.phys.Managed frame ∧ 1 ≤ machine.phys.refcount frame := by
      intro frame isHeld
      rw [Finset.mem_singleton.mp isHeld]
      exact ⟨booted.managed, booted.allocated⟩
    simpa [System.dirs, System.boot] using booted.mapped (Finset.mem_singleton_self _) held
  · exact Finset.disjoint_empty_left _
  · exact List.nodup_singleton _
  · exact List.nodup_singleton _
  · intro process member
    rw [List.mem_singleton.mp member]
    exact Nat.le_refl 1
  · intro process member address bound
    rw [List.mem_singleton.mp member]
    unfold userLoad
    rw [pageWords_of_absent, Option.map_none]
    · rfl
    · left
      rw [show (System.boot machine kernelDir heapEnd).machine.memory kernelDir
        (address / 4096 / 1024) = 0 from
          booted.empty _ (div_lt_of_lt_userPages (page_lt bound)), presentBit_zero]

theorem simulates_run {machine : Machine} {kernelDir heapEnd : Nat}
    (booted : Booted machine kernelDir) {events : List Event} {final : System}
    (reached : run System.step (System.boot machine kernelDir heapEnd) events = some final)
    (ok : final.machine.phys.Ok) :
    Simulates ∅ final (events.foldl Reference.step Reference.boot) :=
  run_simulates System.ok_of_step
    (fun _ _ _ _ simulates stepped nextOk => simulates.step stepped nextOk)
    (simulates_boot booted heapEnd) reached ok

/-- Copy-on-write fork refines a fork that copies at once: whatever the processes have
done, each of them loads what it would load from memory of its own. -/
theorem load_eq_eagerCopy {machine : Machine} {kernelDir heapEnd : Nat}
    (booted : Booted machine kernelDir) {events : List Event} {final : System}
    (reached : run System.step (System.boot machine kernelDir heapEnd) events = some final)
    (ok : final.machine.phys.Ok) (pid : Nat) {address : Nat} (bound : address < userEnd) :
    final.load pid address =
      (events.foldl Reference.step Reference.boot).contents pid address :=
  (simulates_run booted reached ok).load_eq pid bound

/-- A process stores to its stack and forks, and the clone stores to the same address. -/
def sharedStack : List Event :=
  [.create 1 ⟨0, 0, 0⟩, .store 2 0x40000000 7, .fork 2 ⟨0, 0, 0⟩, .writeFault 3 0x40000000,
    .store 3 0x40000000 9]

/-- Two of 40 frames are taken when the machine has booted. -/
def smallMachine : Machine :=
  { memory := fun _ _ => 0
    phys :=
      { totalUsableLower := 0x28000
        totalUsableUpper := 0
        allocations := fun index => if index < 2 then 1 else 0
        freeList := []
        failed := false
        wrapped := false } }

theorem booted_smallMachine : Booted smallMachine 1 :=
  ⟨⟨by decide, by decide, by decide⟩, ⟨1, by decide, by decide⟩, by decide, fun _ _ => rfl⟩

theorem load_eq_eagerCopy_sharedStack : ∃ final,
    run System.step (System.boot smallMachine 1 0) sharedStack = some final ∧
      final.load 2 0x40000000 =
        (sharedStack.foldl Reference.step Reference.boot).contents 2 0x40000000 ∧
      final.load 3 0x40000000 =
        (sharedStack.foldl Reference.step Reference.boot).contents 3 0x40000000 := by
  have evaluated : (run System.step (System.boot smallMachine 1 0) sharedStack).any (fun final =>
      !final.machine.phys.failed && !final.machine.phys.wrapped) = true := by
    decide +kernel
  rcases (Option.any_eq_true _ _).mp evaluated with ⟨final, reached, good⟩
  rw [Bool.and_eq_true, Bool.not_eq_true', Bool.not_eq_true'] at good
  exact ⟨final, reached, load_eq_eagerCopy booted_smallMachine reached good 2 (by decide),
    load_eq_eagerCopy booted_smallMachine reached good 3 (by decide)⟩

theorem store_after_writeFault {kernel : Finset Nat} {system next : System}
    (coherent : Coherent kernel system)
    {pid address : Nat} (stepped : system.step (.writeFault pid address) = some next)
    (ok : next.machine.phys.Ok) (value : UInt8) :
    (next.step (.store pid address value)).isSome = true := by
  rcases coherent.mapped with ⟨tables, mapped⟩
  rcases Option.bind_eq_some_iff.mp stepped with ⟨process, found, faulted⟩
  rcases System.of_find found with ⟨member, rfl⟩
  rw [Option.ite_none_right_eq_some, Option.some.injEq] at faulted
  rcases faulted with ⟨⟨bound, faults⟩, rfl⟩
  unfold System.faults at faults
  rw [Bool.and_eq_true, Option.isSome_iff_exists] at faults
  rcases faults with ⟨⟨word, wordFound⟩, -⟩
  have writable := (copyOnWrite_spec mapped (System.pdir_mem member) (page_lt bound) wordFound
    ok).2.2
  have entry : (userEntry (copyOnWrite system.machine process.pdir (address / 4096)).memory
      process.pdir (address / 4096)).isSome = true := by
    unfold userWritable at writable
    rw [Bool.and_eq_true] at writable
    exact Option.isSome_of_any writable.2
  have sameFound : System.find { system with
      machine := copyOnWrite system.machine process.pdir (address / 4096) } process.pid =
        some process := found
  simp only [System.step]
  rw [sameFound]
  simp [bound, userStore, writable, entry]

end Dbos.Paging
