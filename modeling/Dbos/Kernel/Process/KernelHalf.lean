import Dbos.Kernel.Memory.CopyOnWrite

/-! # The kernel half of the address spaces

All directories name the same page tables above `0xC0000000`. They belong to the
kernel, and no process may use their entries. -/

namespace Dbos.Paging

open Dbos.Loop Dbos.Execution Phys

/-- A directory entry for a table of the kernel, none of whose pages is for users. -/
structure KernelTable (memory : Memory) (kernel : Finset Nat) (entry : Nat) : Prop where
  present : presentBit entry = true
  supervisor : userSupervisor entry = false
  isKernel : pageAddr entry ∈ kernel
  notZero : pageAddr entry ≠ 0
  entries : ∀ place < 1024, userSupervisor (memory (pageAddr entry) place) = false

/-- The upper quarter of each directory names tables of the kernel, and the last
entry names the directory itself. The window of `temp_map_page` has its table. -/
structure KernelHalf (memory : Memory) (kernel dirs : Finset Nat) : Prop where
  table : ∀ dir ∈ dirs, ∀ index, 768 ≤ index → index < 1023 →
    memory dir index = 0 ∨ KernelTable memory kernel (memory dir index)
  window : ∀ dir ∈ dirs, memory dir 768 ≠ 0
  self : ∀ dir ∈ dirs, presentBit (memory dir 1023) = true ∧
    userSupervisor (memory dir 1023) = false ∧ pageAddr (memory dir 1023) = dir

section Half

variable {memory next : Memory} {kernel dirs held : Finset Nat} {dir : Nat}

theorem KernelTable.congr {entry : Nat} (isTable : KernelTable memory kernel entry)
    (same : ∀ frame ∈ kernel, next frame = memory frame) : KernelTable next kernel entry := by
  refine ⟨isTable.present, isTable.supervisor, isTable.isKernel, isTable.notZero, ?_⟩
  rw [same _ isTable.isKernel]
  exact isTable.entries

theorem KernelHalf.congr (half : KernelHalf memory kernel dirs)
    (same : ∀ frame ∈ kernel, next frame = memory frame)
    (entries : ∀ dir ∈ dirs, ∀ index, 768 ≤ index → next dir index = memory dir index) :
    KernelHalf next kernel dirs := by
  refine ⟨fun dir isDir index above below => ?_, fun dir isDir => ?_, fun dir isDir => ?_⟩
  · rw [entries dir isDir index above]
    exact (half.table dir isDir index above below).imp_right fun isTable => isTable.congr same
  · rw [entries dir isDir 768 (Nat.le_refl _)]
    exact half.window dir isDir
  · rw [entries dir isDir 1023 (by omega)]
    exact half.self dir isDir

theorem KernelHalf.mono (half : KernelHalf memory kernel dirs) {fewer : Finset Nat}
    (subset : fewer ⊆ dirs) : KernelHalf memory kernel fewer :=
  ⟨fun dir isDir => half.table dir (subset isDir), fun dir isDir => half.window dir (subset isDir),
    fun dir isDir => half.self dir (subset isDir)⟩

theorem KernelHalf.keeps (half : KernelHalf memory kernel dirs) (apart : Disjoint kernel dirs)
    (isDir : dir ∈ dirs) (keeps : KeepsKernel memory next (kernel ∪ dirs) dir) :
    KernelHalf next kernel dirs := by
  refine half.congr (fun frame isKernel => ?_) fun other isOther index above => ?_
  · funext index
    refine keeps frame (Finset.mem_union_left _ isKernel) index (.inl ?_)
    rintro rfl
    exact Finset.disjoint_left.mp apart isKernel isDir
  · exact keeps other (Finset.mem_union_right _ isOther) index (.inr above)

theorem KernelHalf.add (half : KernelHalf memory kernel dirs) {source : Nat}
    (isSource : source ∈ dirs) (bound : dir < frameCount)
    (same : ∀ frame ∈ kernel ∪ dirs, next frame = memory frame)
    (entries : ∀ index, 768 ≤ index → index < 1023 → next dir index = memory source index)
    (own : next dir 1023 = setPageAddr (memory source 1023) dir) :
    KernelHalf next kernel (insert dir dirs) := by
  have sameKernel : ∀ frame ∈ kernel, next frame = memory frame := fun frame isKernel =>
    same frame (Finset.mem_union_left _ isKernel)
  have old := half.congr sameKernel fun other isOther index _ => by
    rw [same other (Finset.mem_union_right _ isOther)]
  refine ⟨fun other isOther index above below => ?_, fun other isOther => ?_,
    fun other isOther => ?_⟩
  · rcases Finset.mem_insert.mp isOther with isNew | isOld
    · rw [isNew, entries index above below]
      exact (half.table source isSource index above below).imp_right fun isTable =>
        isTable.congr sameKernel
    · exact old.table other isOld index above below
  · rcases Finset.mem_insert.mp isOther with isNew | isOld
    · rw [isNew, entries 768 (Nat.le_refl _) (by omega)]
      exact half.window source isSource
    · exact old.window other isOld
  · rcases Finset.mem_insert.mp isOther with isNew | isOld
    · rw [isNew, own, presentBit_setPageAddr, userSupervisor_setPageAddr,
        pageAddr_setPageAddr _ bound]
      have self := half.self source isSource
      exact ⟨self.1, self.2.1, rfl⟩
    · exact old.self other isOld

theorem KernelHalf.created (half : KernelHalf memory kernel dirs) {source : Nat}
    (isSource : source ∈ dirs) {index : Nat} (above : 768 ≤ index) (below : index < 1023) :
    createdKernelEntry (memory source index) dir index = memory source index := by
  unfold createdKernelEntry
  rw [if_neg (by omega)]
  rcases half.table source isSource index above below with absent | isTable
  · rw [absent]
    rfl
  · rw [if_pos]
    constructor
    · intro zero
      have present := isTable.present
      rw [zero, presentBit_zero] at present
      cases present
    · intro ones
      have supervisor := isTable.supervisor
      rw [ones] at supervisor
      exact absurd supervisor (by decide)

theorem KernelHalf.created_self (half : KernelHalf memory kernel dirs) {source : Nat}
    (isSource : source ∈ dirs) :
    createdKernelEntry (memory source 1023) dir 1023 = setPageAddr (memory source 1023) dir := by
  have self := half.self source isSource
  unfold createdKernelEntry
  rw [if_pos rfl, if_pos]
  constructor
  · intro zero
    rw [zero, presentBit_zero] at self
    cases self.1
  · intro ones
    rw [ones] at self
    exact absurd self.2.1 (by decide)

theorem KernelHalf.cloned (half : KernelHalf memory kernel dirs) {source : Nat}
    (isSource : source ∈ dirs) {index : Nat} (above : 768 ≤ index) (below : index < 1023) :
    clonedKernelEntry (memory source index) dir index = memory source index := by
  unfold clonedKernelEntry
  rcases half.table source isSource index above below with absent | isTable
  · rw [absent]
    rfl
  · rw [if_pos isTable.present, if_neg (by omega)]

theorem KernelHalf.cloned_self (half : KernelHalf memory kernel dirs) {source : Nat}
    (isSource : source ∈ dirs) :
    clonedKernelEntry (memory source 1023) dir 1023 = setPageAddr (memory source 1023) dir := by
  unfold clonedKernelEntry
  rw [if_pos (half.self source isSource).1, if_pos rfl]

end Half

/-! ## The operations of the system -/

/-- The address spaces are in order in both halves. -/
structure Sound (kernel : Finset Nat) (system : System) : Prop extends
    Coherent kernel system where
  half : KernelHalf system.machine.memory kernel system.dirs

section Systems

variable {kernel : Finset Nat} {system next : System} {process : Process}

theorem Coherent.find_eq (coherent : Coherent kernel system) (member : process ∈ system.processes) :
    system.find process.pid = some process := by
  cases found : system.find process.pid with
  | none =>
      have other := List.find?_eq_none.mp found process member
      simp at other
  | some other =>
      rcases System.of_find found with ⟨isMember, samePid⟩
      rw [coherent.eq_of_pid member isMember samePid]

theorem Coherent.simulates (coherent : Coherent kernel system) :
    ∃ reference, Simulates kernel system reference := by
  refine ⟨⟨system.load, system.procPid⟩, coherent, rfl, ?_, ?_⟩
  · intro process member address _
    simp only [System.load, coherent.find_eq member, Option.bind_some]
  · intro pid absent address _
    have missing : system.find pid = none :=
      List.find?_eq_none.mpr fun process member => by simpa using absent process member
    simp only [System.load, missing, Option.bind_none]

theorem Coherent.step (coherent : Coherent kernel system) {event : Event}
    (stepped : system.step event = some next) (ok : next.machine.phys.Ok) :
    Coherent kernel next := by
  rcases coherent.simulates with ⟨reference, simulates⟩
  exact (simulates.step stepped ok).coherent

theorem copyOnWrite_keepsKernel {machine : Machine} {held dirs tables : Finset Nat}
    {pdir page : Nat}
    (mapped : Mapped machine held dirs tables) (isDir : pdir ∈ dirs) (bound : page < userPages)
    {word : Nat} (found : userEntry machine.memory pdir page = some word)
    (ok : (copyOnWrite machine pdir page).phys.Ok) :
    KeepsKernel machine.memory (copyOnWrite machine pdir page).memory held pdir := by
  rcases machine with ⟨memory, phys⟩
  rcases present_of_userEntry found with ⟨present, isWord, wordPresent⟩
  have isSlot := slotOf_mem mapped.links isDir bound present
  have isTable := (mem_tableEntries.mp isSlot).1
  have notHeld : (slotOf memory pdir page).1 ∉ held := fun isHeld =>
    Finset.disjoint_left.mp mapped.counted.apart isHeld isTable
  have notZero : pageAddr (memory pdir (page / 1024)) ≠ 0 := fun zero =>
    mapped.counted.notZero (zero ▸ isTable)
  have named := mapped.counted.named _ isSlot (isWord ▸ wordPresent)
  simp only [isWord] at named
  unfold copyOnWrite at ok ⊢
  simp only [getMappedAddress_eq mapped isDir bound present, isWord] at ok ⊢
  split
  case isTrue shared =>
    simp only [shared, if_true] at ok
    have sets := decreaseRefcount_sets mapped.counted.valid named.1
    have allocOk := ok_of_setPageTableEntry ok
    have valid := sets.same.valid mapped.counted.valid
    have spec := allocPage_spec valid allocOk
    have newNotHeld : (phys.decreaseRefcount (pageAddr word)).allocPage.1 ∉ held := by
      intro isHeld
      have heldManaged := mapped.counted.heldManaged _ isHeld
      have count := sets.refcount _ heldManaged.1
      have different : (phys.decreaseRefcount (pageAddr word)).allocPage.1 ≠ pageAddr word := by
        intro same
        rw [same] at isHeld
        exact named.2.1 isHeld
      rw [spec.2.1, if_neg different] at count
      omega
    have dirNotNew : pdir ≠ (phys.decreaseRefcount (pageAddr word)).allocPage.1 := fun same =>
      newNotHeld (same ▸ mapped.subset isDir)
    rw [setPageTableEntry_of_table]
    · refine KeepsKernel.trans ?_ (KeepsKernel.write newNotHeld pdir (memory (pageAddr word)))
      refine KeepsKernel.write ?_ pdir _
      unfold slotOf
      rw [Function.update_of_ne dirNotNew]
      exact notHeld
    · rw [Function.update_of_ne dirNotNew]
      exact notZero
  case isFalse =>
    split
    · rw [setPageTableEntry_of_table _ _ _ notZero]
      exact KeepsKernel.write notHeld pdir _
    · exact .refl _ _ _

theorem Sound.add (sound : Sound kernel system) {source : Nat} (isSource : source ∈ system.dirs)
    (adds : Adds system next (kernel ∪ system.dirs) system.dirs process)
    (coherent : Coherent kernel next)
    (entries : ∀ index, 768 ≤ index → index < 1023 →
      next.machine.memory process.pdir index = system.machine.memory source index)
    (own : next.machine.memory process.pdir 1023 =
      setPageAddr (system.machine.memory source 1023) process.pdir) :
    Sound kernel next := by
  refine ⟨coherent, ?_⟩
  have isDirs : next.dirs = insert process.pdir system.dirs := by
    unfold System.dirs
    rw [adds.processes]
    ext dir
    simp
  rw [isDirs]
  rcases adds.mapped with ⟨tables, mapped⟩
  have managed := mapped.counted.heldManaged process.pdir (Finset.mem_insert_self _ _)
  exact sound.half.add isSource (managed.1.lt mapped.counted.valid) adds.same entries own

theorem Sound.event (sound : Sound kernel system) {event : Event}
    (stepped : system.step event = some next) (ok : next.machine.phys.Ok) :
    Sound kernel next := by
  have coherent := sound.toCoherent.step stepped ok
  rcases sound.mapped with ⟨tables, mapped⟩
  cases event with
  | create parent growth =>
      rcases Option.map_eq_some_iff.mp stepped with ⟨current, found, rfl⟩
      have isDir := System.pdir_mem (System.of_find found).1
      rcases procCreate_spec mapped ok with ⟨process, creates⟩
      have entries := creates.kernel (Finset.mem_union_right _ isDir)
      refine sound.add isDir creates.toAdds coherent (fun index above below => ?_) ?_
      · rw [entries index above (by omega), sound.half.created isDir above below]
      · rw [entries 1023 (by omega) (by omega), sound.half.created_self isDir]
  | map pid page contents =>
      rcases Option.bind_eq_some_iff.mp stepped with ⟨process, found, isMap⟩
      rw [Option.ite_none_right_eq_some, Option.some.injEq] at isMap
      rcases isMap with ⟨bound, rfl⟩
      have isDir := System.pdir_mem (System.of_find found).1
      have mapOk : (mapPage system.machine process.pdir page fun _ => contents).2.phys.Ok := ok
      have keeps := mapPage_keepsKernel mapped isDir bound mapOk
      exact ⟨coherent, sound.half.keeps sound.apart isDir keeps⟩
  | load pid address =>
      rw [System.step, Option.ite_none_right_eq_some, Option.some.injEq] at stepped
      rcases stepped with ⟨-, rfl⟩
      exact sound
  | store pid address value =>
      rcases Option.bind_eq_some_iff.mp stepped with ⟨process, found, stored⟩
      rw [Option.ite_none_right_eq_some] at stored
      rcases stored with ⟨bound, stored⟩
      rcases Option.map_eq_some_iff.mp stored with ⟨memory, isStored, rfl⟩
      have isDir := System.pdir_mem (System.of_find found).1
      unfold userStore at isStored
      rw [Option.ite_none_right_eq_some] at isStored
      rcases Option.map_eq_some_iff.mp isStored.2 with ⟨word, isEntry, rfl⟩
      have unused := mapped.frame_unused isDir (page_lt bound) isEntry
      refine ⟨coherent, sound.half.keeps sound.apart isDir ?_⟩
      exact KeepsKernel.write unused.1 process.pdir _
  | writeFault pid address =>
      rcases Option.bind_eq_some_iff.mp stepped with ⟨process, found, faulted⟩
      rw [Option.ite_none_right_eq_some, Option.some.injEq] at faulted
      rcases faulted with ⟨⟨bound, faults⟩, rfl⟩
      have isDir := System.pdir_mem (System.of_find found).1
      unfold System.faults at faults
      rw [Bool.and_eq_true, Option.isSome_iff_exists] at faults
      rcases faults with ⟨⟨word, isEntry⟩, -⟩
      exact ⟨coherent, sound.half.keeps sound.apart isDir
        (copyOnWrite_keepsKernel mapped isDir (page_lt bound) isEntry ok)⟩
  | fork pid growth =>
      rcases Option.map_eq_some_iff.mp stepped with ⟨parent, found, rfl⟩
      have isDir := System.pdir_mem (System.of_find found).1
      rcases procClone_spec mapped isDir ok with ⟨process, clones⟩
      refine sound.add isDir clones.toAdds coherent (fun index above below => ?_) ?_
      · rw [clones.kernel index above (by omega), sound.half.cloned isDir above below]
      · rw [clones.kernel 1023 (by omega) (by omega), sound.half.cloned_self isDir]
  | removeAddressSpace pid =>
      rcases Option.map_eq_some_iff.mp stepped with ⟨process, found, rfl⟩
      have isDir := System.pdir_mem (System.of_find found).1
      exact ⟨coherent, sound.half.keeps sound.apart isDir
        (removeAddressSpace_keepsKernel mapped isDir)⟩
  | destroy pid =>
      rcases Option.map_eq_some_iff.mp stepped with ⟨process, found, rfl⟩
      have isDir := System.pdir_mem (System.of_find found).1
      refine ⟨coherent, ?_⟩
      unfold procDestroy
      split
      · exact sound.half
      · rcases nukePageDirectory_spec mapped isDir with ⟨fewer, -, sameMemory⟩
        simp only [sameMemory]
        refine sound.half.mono ?_
        intro dir isLeft
        unfold System.dirs at isLeft ⊢
        rw [List.mem_toFinset, List.mem_map] at isLeft ⊢
        rcases isLeft with ⟨other, isOther, isPdir⟩
        exact ⟨other, (List.mem_filter.mp isOther).1, isPdir⟩

end Systems

end Dbos.Paging
