import Dbos.Kernel.Memory.PagingInvariant

/-! # Address spaces

What the operations on whole page directories do to the references, and which
words they write. -/

namespace Dbos.Paging

open Dbos.Loop Phys

/-! ## Directories -/

/-- The entries of the directories for addresses below `0xC0000000`. -/
def directoryEntries (dirs : Finset Nat) : Finset Slot := dirs ×ˢ Finset.range 768

def tableEntries (tables : Finset Nat) : Finset Slot := tables ×ˢ Finset.range 1024

/-- The directory entries lead to tables, each to one of its own, with all
permissions, or hold no address. -/
structure Links (memory : Memory) (entries : Finset Slot) (tables : Finset Nat) : Prop where
  linked : ∀ slot ∈ entries, presentBit (wordAt memory slot) = true →
    pageAddr (wordAt memory slot) ∈ tables ∧ readWrite (wordAt memory slot) = true ∧
      userSupervisor (wordAt memory slot) = true
  once : ∀ slot ∈ entries, ∀ other ∈ entries, presentBit (wordAt memory slot) = true →
    presentBit (wordAt memory other) = true →
    pageAddr (wordAt memory slot) = pageAddr (wordAt memory other) → slot = other
  blank : ∀ slot ∈ entries, presentBit (wordAt memory slot) = false →
    pageAddr (wordAt memory slot) = 0

/-- The user half of the directories is in order. What else is `held` belongs to
the kernel: its page tables, its heap and its stack. -/
structure Mapped (machine : Machine) (held dirs tables : Finset Nat) : Prop where
  counted : Counted machine held tables (tableEntries tables)
  links : Links machine.memory (directoryEntries dirs) tables
  subset : dirs ⊆ held

theorem mem_directoryEntries {dirs : Finset Nat} {slot : Slot} :
    slot ∈ directoryEntries dirs ↔ slot.1 ∈ dirs ∧ slot.2 < 768 := by
  unfold directoryEntries
  rw [Finset.mem_product, Finset.mem_range]

theorem mem_tableEntries {tables : Finset Nat} {slot : Slot} :
    slot ∈ tableEntries tables ↔ slot.1 ∈ tables ∧ slot.2 < 1024 := by
  unfold tableEntries
  rw [Finset.mem_product, Finset.mem_range]

theorem Links.mono {memory : Memory} {entries fewer : Finset Slot} {tables : Finset Nat}
    (links : Links memory entries tables) (subset : fewer ⊆ entries) :
    Links memory fewer tables :=
  ⟨fun slot member => links.linked slot (subset member),
    fun slot member other otherMember => links.once slot (subset member) other
      (subset otherMember),
    fun slot member => links.blank slot (subset member)⟩

theorem Links.congr {memory other : Memory} {entries : Finset Slot} {tables : Finset Nat}
    (links : Links memory entries tables)
    (same : ∀ slot ∈ entries, wordAt other slot = wordAt memory slot) :
    Links other entries tables := by
  refine ⟨fun slot member => ?_, fun slot member second secondMember => ?_, fun slot member => ?_⟩
  · rw [same slot member]
    exact links.linked slot member
  · rw [same slot member, same second secondMember]
    exact links.once slot member second secondMember
  · rw [same slot member]
    exact links.blank slot member

theorem Links.erase {memory : Memory} {entries : Finset Slot} {tables : Finset Nat} {slot : Slot}
    (links : Links memory entries tables) (member : slot ∈ entries)
    (present : presentBit (wordAt memory slot) = true) :
    Links memory (entries.erase slot) (tables.erase (pageAddr (wordAt memory slot))) := by
  have fewer := links.mono (Finset.erase_subset slot entries)
  refine ⟨fun other otherMember otherPresent => ?_, fewer.once, fewer.blank⟩
  rcases fewer.linked other otherMember otherPresent with ⟨isTable, flags⟩
  refine ⟨Finset.mem_erase.mpr ⟨fun same => ?_, isTable⟩, flags⟩
  rcases Finset.mem_erase.mp otherMember with ⟨different, isEntry⟩
  exact different (links.once other isEntry slot member otherPresent present same)

theorem Links.insert_wiped {memory other : Memory} {entries : Finset Slot} {tables : Finset Nat}
    {slot : Slot} (links : Links memory (entries.erase slot) tables)
    (same : ∀ other' ∈ entries, other' ≠ slot → wordAt other other' = wordAt memory other')
    (wiped : wordAt other slot = 0) : Links other entries tables := by
  have isOther : ∀ second ∈ entries, presentBit (wordAt other second) = true →
      second ∈ entries.erase slot ∧ wordAt other second = wordAt memory second := by
    intro second member present
    have different : second ≠ slot := by
      rintro rfl
      rw [wiped, presentBit_zero] at present
      cases present
    exact ⟨Finset.mem_erase.mpr ⟨different, member⟩, same second member different⟩
  refine ⟨fun second member present => ?_, fun second member third thirdMember present
    thirdPresent sameTable => ?_, fun second member absent => ?_⟩
  · rcases isOther second member present with ⟨isEntry, isWord⟩
    rw [isWord] at present ⊢
    exact links.linked second isEntry present
  · rcases isOther second member present with ⟨isEntry, isWord⟩
    rcases isOther third thirdMember thirdPresent with ⟨thirdEntry, thirdWord⟩
    rw [isWord] at present sameTable
    rw [thirdWord] at thirdPresent sameTable
    exact links.once second isEntry third thirdEntry present thirdPresent sameTable
  · by_cases same' : second = slot
    · rw [same', wiped]
      rfl
    · rw [same second member same'] at absent ⊢
      exact links.blank second (Finset.mem_erase.mpr ⟨same', member⟩) absent

theorem Links.link {memory other : Memory} {entries : Finset Slot} {tables : Finset Nat}
    {table : Nat} (links : Links memory entries tables) (isNew : table ∉ tables) (slot : Slot)
    (same : ∀ second ∈ entries, second ≠ slot → wordAt other second = wordAt memory second)
    (present : presentBit (wordAt other slot) = true)
    (isTable : pageAddr (wordAt other slot) = table)
    (flags : readWrite (wordAt other slot) = true ∧ userSupervisor (wordAt other slot) = true) :
    Links other entries (insert table tables) := by
  have differs : ∀ second ∈ entries, second ≠ slot →
      presentBit (wordAt other second) = true → pageAddr (wordAt other second) ≠ table := by
    intro second member different isPresent leads
    rw [same second member different] at isPresent leads
    exact isNew (leads ▸ (links.linked second member isPresent).1)
  refine ⟨fun second member isPresent => ?_, fun second member third thirdMember isPresent
    thirdPresent sameTable => ?_, fun second member absent => ?_⟩
  · by_cases isSlot : second = slot
    · rw [isSlot, isTable]
      exact ⟨Finset.mem_insert_self _ _, flags⟩
    · rw [same second member isSlot] at isPresent ⊢
      rcases links.linked second member isPresent with ⟨isOld, rest⟩
      exact ⟨Finset.mem_insert_of_mem isOld, rest⟩
  · by_cases isSlot : second = slot
    · by_contra different
      have thirdDiffers : third ≠ slot := fun same => different (isSlot.trans same.symm)
      refine differs third thirdMember thirdDiffers thirdPresent ?_
      rw [← sameTable, isSlot, isTable]
    · by_cases thirdSlot : third = slot
      · refine absurd ?_ (differs second member isSlot isPresent)
        rw [sameTable, thirdSlot, isTable]
      · rw [same second member isSlot] at isPresent sameTable
        rw [same third thirdMember thirdSlot] at thirdPresent sameTable
        exact links.once second member third thirdMember isPresent thirdPresent sameTable
  · have notSlot : second ≠ slot := by
      rintro rfl
      rw [present] at absent
      cases absent
    rw [same second member notSlot] at absent ⊢
    exact links.blank second member absent

theorem Links.newDirectory {memory other : Memory} {dirs tables : Finset Nat} {dir : Nat}
    (links : Links memory (directoryEntries dirs) tables)
    (same : ∀ second ∈ dirs, other second = memory second)
    (empty : ∀ index < 768, other dir index = 0) :
    Links other (directoryEntries (insert dir dirs)) tables := by
  have isOld : ∀ slot ∈ directoryEntries (insert dir dirs),
      presentBit (wordAt other slot) = true →
      slot ∈ directoryEntries dirs ∧ wordAt other slot = wordAt memory slot := by
    intro slot isSlot present
    rcases mem_directoryEntries.mp isSlot with ⟨isDir, bound⟩
    unfold wordAt at present ⊢
    rcases Finset.mem_insert.mp isDir with isNew | old
    · rw [isNew, empty _ bound, presentBit_zero] at present
      cases present
    · rw [same _ old]
      exact ⟨mem_directoryEntries.mpr ⟨old, bound⟩, rfl⟩
  refine ⟨fun slot isSlot present => ?_, fun slot isSlot second isSecond present secondPresent
    sameTable => ?_, fun slot isSlot absent => ?_⟩
  · rcases isOld slot isSlot present with ⟨old, isWord⟩
    rw [isWord] at present ⊢
    exact links.linked slot old present
  · rcases isOld slot isSlot present with ⟨old, isWord⟩
    rcases isOld second isSecond secondPresent with ⟨secondOld, secondWord⟩
    rw [isWord] at present sameTable
    rw [secondWord] at secondPresent sameTable
    exact links.once slot old second secondOld present secondPresent sameTable
  · rcases mem_directoryEntries.mp isSlot with ⟨isDir, bound⟩
    unfold wordAt at absent ⊢
    rcases Finset.mem_insert.mp isDir with isNew | old
    · rw [isNew, empty _ bound]
      rfl
    · rw [same _ old] at absent ⊢
      exact links.blank slot (mem_directoryEntries.mpr ⟨old, bound⟩) absent

/-! ## A new table -/

theorem tableEntries_insert (tables : Finset Nat) (table : Nat) :
    tableEntries (insert table tables) =
      tableEntries tables ∪ ({table} ×ˢ Finset.range 1024) := by
  ext ⟨other, index⟩
  simp only [mem_tableEntries, Finset.mem_insert, Finset.mem_union, Finset.mem_product,
    Finset.mem_singleton, Finset.mem_range]
  rw [or_comm, or_and_right]

theorem Counted.newTable {memory : Memory} {phys : Phys} {held tables : Finset Nat}
    (counted : Counted ⟨memory, phys⟩ held tables (tableEntries tables))
    (ok : phys.allocPage.2.Ok) :
    Counted ⟨clearFrame memory phys.allocPage.1, phys.allocPage.2⟩ held
      (insert phys.allocPage.1 tables) (tableEntries (insert phys.allocPage.1 tables)) := by
  rcases counted.allocPage ok with ⟨notHeld, notTable, -, notZero, isHeld⟩
  have cleared : Counted ⟨clearFrame memory phys.allocPage.1, phys.allocPage.2⟩
      (insert phys.allocPage.1 held) tables (tableEntries tables) := by
    refine isHeld.congr fun slot isSlot => ?_
    have different : slot.1 ≠ phys.allocPage.1 := fun same =>
      notTable (same ▸ (mem_tableEntries.mp isSlot).1)
    unfold wordAt
    rw [clearFrame_of_ne _ different]
  rw [tableEntries_insert]
  refine cleared.toTable notHeld notZero (fun slot isSlot => ?_) fun slot isSlot => ?_
  · exact Finset.mem_singleton.mp (Finset.mem_product.mp isSlot).1
  · have isTable := Finset.mem_singleton.mp (Finset.mem_product.mp isSlot).1
    unfold wordAt
    rw [isTable, clearFrame_self, presentBit_zero]

/-! ## Giving up a table -/

theorem releaseFrame_sets {phys : Phys} (valid : phys.Valid) {frame : Nat}
    (managed : phys.Managed frame) :
    Sets phys (releaseFrame phys frame) frame (phys.refcount frame - 1) := by
  unfold releaseFrame
  split
  case isTrue one =>
    rw [getRefcount_eq valid managed] at one
    have isOne : phys.refcount frame = 1 := by omega
    rw [isOne]
    exact free_sets valid managed
  case isFalse => exact decreaseRefcount_sets valid managed

@[simp] theorem ok_releaseFrame (phys : Phys) (frame : Nat) :
    (releaseFrame phys frame).Ok ↔ phys.Ok := by
  unfold releaseFrame
  split <;> simp

theorem sdiff_range_succ (slots : Finset Slot) (table index : Nat) :
    slots \ ({table} ×ˢ Finset.range (index + 1)) =
      (slots \ ({table} ×ˢ Finset.range index)).erase (table, index) := by
  ext ⟨other, place⟩
  simp only [Finset.mem_sdiff, Finset.mem_product, Finset.mem_singleton, Finset.mem_range,
    Finset.mem_erase, ne_eq, Prod.mk.injEq, not_and]
  constructor
  · rintro ⟨member, outside⟩
    refine ⟨fun isTable isIndex => ?_, member, fun isTable less => ?_⟩
    · exact outside isTable (by omega)
    · exact outside isTable (by omega)
  · rintro ⟨different, member, outside⟩
    refine ⟨member, fun isTable less => ?_⟩
    have notIndex := different isTable
    have notLess := outside isTable
    omega

section Release

variable {machine : Machine} {held tables : Finset Nat} {slots : Finset Slot} {ptab : Nat}

theorem removeEntry_ok (ptab : Nat) (machine : Machine) (index : Nat) :
    (removeEntry ptab machine index).phys.Ok ↔ machine.phys.Ok := by
  unfold removeEntry
  simp only
  split <;> simp

theorem nukeEntry_ok (ptab : Nat) (machine : Machine) (index : Nat) :
    (nukeEntry ptab machine index).phys.Ok ↔ machine.phys.Ok := by
  unfold nukeEntry
  simp only
  split <;> simp

theorem Counted.releaseEntry (counted : Counted machine held tables slots) {slot : Slot}
    (member : slot ∈ slots) (present : presentBit (wordAt machine.memory slot) = true) :
    Counted ⟨machine.memory, releaseFrame machine.phys (pageAddr (wordAt machine.memory slot))⟩
      held tables (slots.erase slot) :=
  counted.release member present
    (releaseFrame_sets counted.valid (counted.named slot member present).1)

theorem removeEntry_step (counted : Counted machine held tables slots) {index : Nat}
    (member : (ptab, index) ∈ slots) :
    Counted (removeEntry ptab machine index) held tables (slots.erase (ptab, index)) := by
  unfold removeEntry
  simp only
  split
  case isTrue present =>
    refine (counted.releaseEntry member present).congr fun slot isSlot => ?_
    exact wordAt_setSlot_of_ne _ 0 (Finset.ne_of_mem_erase isSlot)
  case isFalse => exact counted.mono (Finset.erase_subset _ _)

theorem nukeEntry_step (counted : Counted machine held tables slots) {index : Nat}
    (member : (ptab, index) ∈ slots) :
    Counted (nukeEntry ptab machine index) held tables (slots.erase (ptab, index)) := by
  unfold nukeEntry
  simp only
  split
  case isTrue present =>
    have released := counted.releaseEntry member present
    exact released
  case isFalse => exact counted.mono (Finset.erase_subset _ _)

/-- The next entry is still counted. -/
theorem mem_sdiff_range {index : Nat} (member : (ptab, index) ∈ slots) :
    (ptab, index) ∈ slots \ ({ptab} ×ˢ Finset.range index) := by
  rw [Finset.mem_sdiff, Finset.mem_product]
  exact ⟨member, fun both => Nat.lt_irrefl index (Finset.mem_range.mp both.2)⟩

theorem removeEntry_loop (counted : Counted machine held tables slots)
    (members : ∀ index < 1024, (ptab, index) ∈ slots) (count : Nat) (bound : count ≤ 1024) :
    Counted (loop count (removeEntry ptab) machine) held tables
        (slots \ ({ptab} ×ˢ Finset.range count)) ∧
      (∀ frame, frame ≠ ptab → (loop count (removeEntry ptab) machine).memory frame =
        machine.memory frame) ∧
      (∀ index, count ≤ index → (loop count (removeEntry ptab) machine).memory ptab index =
        machine.memory ptab index) ∧
      ((loop count (removeEntry ptab) machine).phys.Ok ↔ machine.phys.Ok) := by
  induction count with
  | zero =>
      rw [loop_zero]
      refine ⟨?_, fun _ _ => rfl, fun _ _ => rfl, Iff.rfl⟩
      simpa using counted
  | succ count induction =>
      rcases induction (by omega) with ⟨sofar, elsewhere, later, ok⟩
      rw [loop_succ, sdiff_range_succ]
      have member := mem_sdiff_range (members count (by omega))
      refine ⟨removeEntry_step sofar member, ?_, ?_, (removeEntry_ok _ _ _).trans ok⟩
      · intro frame different
        rw [← elsewhere frame different]
        unfold removeEntry
        simp only
        split
        · exact setWord_frame_of_ne _ _ _ different
        · rfl
      · intro index after
        rw [← later index (by omega)]
        unfold removeEntry
        simp only
        split
        · exact setWord_of_ne _ _ (.inr (by omega))
        · rfl

theorem nukeEntry_loop (counted : Counted machine held tables slots)
    (members : ∀ index < 1024, (ptab, index) ∈ slots) (count : Nat) (bound : count ≤ 1024) :
    Counted (loop count (nukeEntry ptab) machine) held tables
        (slots \ ({ptab} ×ˢ Finset.range count)) ∧
      (loop count (nukeEntry ptab) machine).memory = machine.memory ∧
      ((loop count (nukeEntry ptab) machine).phys.Ok ↔ machine.phys.Ok) := by
  induction count with
  | zero =>
      rw [loop_zero]
      refine ⟨?_, rfl, Iff.rfl⟩
      simpa using counted
  | succ count induction =>
      rcases induction (by omega) with ⟨sofar, same, ok⟩
      rw [loop_succ, sdiff_range_succ]
      have member := mem_sdiff_range (members count (by omega))
      refine ⟨nukeEntry_step sofar member, ?_, (nukeEntry_ok _ _ _).trans ok⟩
      rw [← same]
      unfold nukeEntry
      simp only
      split <;> rfl

theorem tableEntries_sdiff (tables : Finset Nat) (table : Nat) :
    tableEntries tables \ ({table} ×ˢ Finset.range 1024) = tableEntries (tables.erase table) := by
  ext ⟨other, index⟩
  simp only [Finset.mem_sdiff, mem_tableEntries, Finset.mem_product, Finset.mem_singleton,
    Finset.mem_range, Finset.mem_erase, not_and]
  constructor
  · rintro ⟨⟨member, bound⟩, outside⟩
    exact ⟨⟨fun same => outside same bound, member⟩, bound⟩
  · rintro ⟨⟨different, member⟩, bound⟩
    exact ⟨⟨member, bound⟩, fun same => absurd same different⟩

theorem Counted.freeTable
    (counted : Counted machine held tables (tableEntries tables \ ({ptab} ×ˢ Finset.range 1024)))
    (member : ptab ∈ tables) :
    Counted { machine with phys := machine.phys.free ptab } held (tables.erase ptab)
      (tableEntries (tables.erase ptab)) := by
  rw [tableEntries_sdiff] at counted
  have notHeld : ptab ∉ held := fun isHeld => Finset.disjoint_left.mp counted.apart isHeld member
  have noSlot : ∀ slot ∈ tableEntries (tables.erase ptab), slot.1 ≠ ptab := fun slot isSlot =>
    Finset.ne_of_mem_erase (mem_tableEntries.mp isSlot).1
  have freed := (counted.toHeld member noSlot).free (Finset.mem_insert_self ptab held)
  rwa [Finset.erase_insert notHeld] at freed

end Release

/-! ## Removing and destroying an address space -/

section Remove

variable {machine : Machine} {held dirs tables : Finset Nat} {pageDir : Nat}

theorem removeDirectoryEntry_ok (pageDir : Nat) (machine : Machine) (index : Nat) :
    (removeDirectoryEntry pageDir machine index).phys.Ok ↔ machine.phys.Ok := by
  have loopOk : ∀ (ptab count : Nat) (machine : Machine),
      (loop count (removeEntry ptab) machine).phys.Ok ↔ machine.phys.Ok := by
    intro ptab count machine
    induction count with
    | zero => rw [loop_zero]
    | succ count induction => rw [loop_succ, removeEntry_ok, induction]
  unfold removeDirectoryEntry
  simp only
  split
  · rw [ok_free, loopOk]
  · rfl

/-- What a round of `remove_address_space` leaves alone. -/
structure RemovedAt (machine next : Machine) (pageDir index : Nat) (tables fewer : Finset Nat) :
    Prop where
  subset : fewer ⊆ tables
  absent : presentBit (next.memory pageDir index) = false
  entries : ∀ place, place ≠ index → next.memory pageDir place = machine.memory pageDir place
  elsewhere : ∀ frame, frame ≠ pageDir → frame ∉ tables \ fewer →
    next.memory frame = machine.memory frame

/-- A table is given up once its entries have given up their references. -/
theorem removed_of_released (mapped : Mapped machine held dirs tables) (isDir : pageDir ∈ dirs)
    {index ptab : Nat} (bound : index < 768)
    (present : presentBit (machine.memory pageDir index) = true)
    (isPtab : pageAddr (machine.memory pageDir index) = ptab) {after : Machine}
    (released : Counted after held tables
      (tableEntries tables \ ({ptab} ×ˢ Finset.range 1024)))
    (elsewhere : ∀ frame, frame ≠ ptab →
      after.memory frame = setWord machine.memory pageDir index 0 frame) :
    Mapped { after with phys := after.phys.free ptab } held dirs (tables.erase ptab) ∧
      RemovedAt machine { after with phys := after.phys.free ptab } pageDir index tables
        (tables.erase ptab) := by
  have isEntry : (pageDir, index) ∈ directoryEntries dirs :=
    mem_directoryEntries.mpr ⟨isDir, bound⟩
  have isTable : ptab ∈ tables := isPtab ▸ (mapped.links.linked _ isEntry present).1
  have notTable : ∀ dir ∈ dirs, dir ≠ ptab := fun dir member same =>
    Finset.disjoint_left.mp mapped.counted.apart (mapped.subset member) (same ▸ isTable)
  have inDirs : ∀ slot ∈ directoryEntries dirs, slot ≠ (pageDir, index) →
      wordAt after.memory slot = wordAt machine.memory slot := by
    intro slot isSlot different
    unfold wordAt
    rw [elsewhere _ (notTable _ (mem_directoryEntries.mp isSlot).1)]
    exact wordAt_setSlot_of_ne machine.memory 0 different
  have isWiped : after.memory pageDir index = 0 := by
    rw [elsewhere _ (notTable _ isDir)]
    exact setWord_self _ _ _ _
  refine ⟨⟨released.freeTable isTable, ?_, mapped.subset⟩, Finset.erase_subset _ _, ?_, ?_, ?_⟩
  · have links := mapped.links.erase isEntry present
    rw [show pageAddr (wordAt machine.memory (pageDir, index)) = ptab from isPtab] at links
    exact links.insert_wiped inDirs isWiped
  · rw [isWiped, presentBit_zero]
  · intro place different
    rw [elsewhere _ (notTable _ isDir)]
    exact setWord_of_ne _ _ (.inr different)
  · intro frame notDir kept
    have notPtab : frame ≠ ptab := by
      rintro rfl
      exact kept (Finset.mem_sdiff.mpr ⟨isTable, Finset.notMem_erase _ _⟩)
    rw [elsewhere _ notPtab]
    exact setWord_frame_of_ne _ _ _ notDir

theorem removeDirectoryEntry_step (mapped : Mapped machine held dirs tables)
    (isDir : pageDir ∈ dirs) {index : Nat} (bound : index < 768) :
    ∃ fewer, Mapped (removeDirectoryEntry pageDir machine index) held dirs fewer ∧
      RemovedAt machine (removeDirectoryEntry pageDir machine index) pageDir index tables fewer := by
  by_cases present : presentBit (machine.memory pageDir index) = true
  · have isTable : pageAddr (machine.memory pageDir index) ∈ tables :=
      (mapped.links.linked (pageDir, index) (mem_directoryEntries.mpr ⟨isDir, bound⟩) present).1
    have wiped : Counted ⟨setWord machine.memory pageDir index 0, machine.phys⟩ held tables
        (tableEntries tables) := by
      refine mapped.counted.congr fun slot isSlot => setWord_of_ne _ _ (.inl fun same => ?_)
      exact Finset.disjoint_left.mp mapped.counted.apart (mapped.subset isDir)
        (same ▸ (mem_tableEntries.mp isSlot).1)
    have removed := removeEntry_loop wiped
      (fun place less => mem_tableEntries.mpr ⟨isTable, less⟩) 1024 (Nat.le_refl _)
    unfold removeDirectoryEntry
    simp only [present, if_true]
    exact ⟨_, removed_of_released mapped isDir bound present rfl removed.1 removed.2.1⟩
  · unfold removeDirectoryEntry
    simp only [present]
    exact ⟨tables, mapped, Finset.Subset.refl _, Bool.eq_false_iff.mpr present, fun _ _ => rfl,
      fun _ _ _ => rfl⟩

/-- `remove_address_space` empties the user half of the directory. -/
theorem removeAddressSpace_spec (mapped : Mapped machine held dirs tables)
    (isDir : pageDir ∈ dirs) :
    ∃ fewer ⊆ tables, Mapped (removeAddressSpace machine pageDir) held dirs fewer ∧
      (∀ index < 768, presentBit ((removeAddressSpace machine pageDir).memory pageDir index) =
        false) ∧
      (∀ index, 768 ≤ index → (removeAddressSpace machine pageDir).memory pageDir index =
        machine.memory pageDir index) ∧
      ∀ frame, frame ≠ pageDir → frame ∉ tables \ fewer →
        (removeAddressSpace machine pageDir).memory frame = machine.memory frame := by
  unfold removeAddressSpace
  refine loop_invariant (motive := fun count (next : Machine) => ∃ fewer ⊆ tables,
    Mapped next held dirs fewer ∧
      (∀ index < count, presentBit (next.memory pageDir index) = false) ∧
      (∀ index, 768 ≤ index → next.memory pageDir index = machine.memory pageDir index) ∧
      ∀ frame, frame ≠ pageDir → frame ∉ tables \ fewer →
        next.memory frame = machine.memory frame) ?_ ?_
  · exact ⟨tables, Finset.Subset.refl _, mapped, fun index less => absurd less (Nat.not_lt_zero _),
      fun _ _ => rfl, fun _ _ _ => rfl⟩
  · rintro count bound next ⟨some, subset, nextMapped, absent, kernel, elsewhere⟩
    rcases removeDirectoryEntry_step nextMapped isDir bound with ⟨fewer, afterMapped, removed⟩
    refine ⟨fewer, removed.subset.trans subset, afterMapped, ?_, ?_, ?_⟩
    · intro index less
      by_cases same : index = count
      · rw [same]
        exact removed.absent
      · rw [removed.entries index same]
        exact absent index (by omega)
    · intro index above
      rw [removed.entries index (by omega), kernel index above]
    · intro frame notDir kept
      rw [removed.elsewhere frame notDir fun gone => kept ?_, elsewhere frame notDir fun gone =>
        kept ?_]
      · rcases Finset.mem_sdiff.mp gone with ⟨isTable, notSome⟩
        exact Finset.mem_sdiff.mpr ⟨isTable, fun isFewer => notSome (removed.subset isFewer)⟩
      · rcases Finset.mem_sdiff.mp gone with ⟨isSome, notFewer⟩
        exact Finset.mem_sdiff.mpr ⟨subset isSome, notFewer⟩

theorem removeAddressSpace_ok (machine : Machine) (pageDir : Nat) :
    (removeAddressSpace machine pageDir).phys.Ok ↔ machine.phys.Ok := by
  unfold removeAddressSpace
  refine loop_invariant (motive := fun _ (next : Machine) => next.phys.Ok ↔ machine.phys.Ok)
    Iff.rfl fun index _ next sofar => ?_
  rw [removeDirectoryEntry_ok, sofar]

theorem nuked_of_released {after : Machine} {entries : Finset Slot} {slot : Slot} {ptab : Nat}
    (links : Links machine.memory entries tables) (member : slot ∈ entries)
    (present : presentBit (wordAt machine.memory slot) = true)
    (isPtab : pageAddr (wordAt machine.memory slot) = ptab)
    (released : Counted after held tables
      (tableEntries tables \ ({ptab} ×ˢ Finset.range 1024)))
    (same : after.memory = machine.memory) :
    Counted { after with phys := after.phys.free ptab } held (tables.erase ptab)
        (tableEntries (tables.erase ptab)) ∧
      Links machine.memory (entries.erase slot) (tables.erase ptab) ∧
      ({ after with phys := after.phys.free ptab } : Machine).memory = machine.memory := by
  subst isPtab
  have isTable := (links.linked slot member present).1
  exact ⟨released.freeTable isTable, links.erase member present, same⟩

theorem nukeDirectoryEntry_of_present {index : Nat}
    (present : presentBit (machine.memory pageDir index) = true) :
    nukeDirectoryEntry pageDir machine index =
      { loop 1024 (nukeEntry (pageAddr (machine.memory pageDir index))) machine with
        phys := (loop 1024 (nukeEntry (pageAddr (machine.memory pageDir index)))
          machine).phys.free (pageAddr (machine.memory pageDir index)) } := by
  unfold nukeDirectoryEntry
  rw [if_pos present]

theorem nukeDirectoryEntry_of_absent {index : Nat}
    (absent : ¬presentBit (machine.memory pageDir index) = true) :
    nukeDirectoryEntry pageDir machine index = machine := by
  unfold nukeDirectoryEntry
  rw [if_neg absent]

theorem nukeDirectoryEntry_step {entries : Finset Slot}
    (counted : Counted machine held tables (tableEntries tables))
    (links : Links machine.memory entries tables) {index : Nat}
    (member : (pageDir, index) ∈ entries) :
    ∃ fewer, Counted (nukeDirectoryEntry pageDir machine index) held fewer (tableEntries fewer) ∧
      Links machine.memory (entries.erase (pageDir, index)) fewer ∧
      (nukeDirectoryEntry pageDir machine index).memory = machine.memory := by
  by_cases present : presentBit (machine.memory pageDir index) = true
  · have isTable : pageAddr (machine.memory pageDir index) ∈ tables :=
      (links.linked (pageDir, index) member present).1
    have nuked := nukeEntry_loop counted
      (fun place less => mem_tableEntries.mpr ⟨isTable, less⟩) 1024 (Nat.le_refl _)
    rw [nukeDirectoryEntry_of_present present]
    exact ⟨_, nuked_of_released links member present rfl nuked.1 nuked.2.1⟩
  · rw [nukeDirectoryEntry_of_absent present]
    exact ⟨tables, counted, links.mono (Finset.erase_subset _ _), rfl⟩

theorem nukeDirectoryEntry_loop (mapped : Mapped machine held dirs tables)
    (isDir : pageDir ∈ dirs) :
    ∃ fewer, Counted (loop 768 (nukeDirectoryEntry pageDir) machine) held fewer
        (tableEntries fewer) ∧
      Links machine.memory (directoryEntries dirs \ ({pageDir} ×ˢ Finset.range 768)) fewer ∧
      (loop 768 (nukeDirectoryEntry pageDir) machine).memory = machine.memory := by
  refine loop_invariant (motive := fun count (next : Machine) => ∃ fewer,
    Counted next held fewer (tableEntries fewer) ∧
      Links machine.memory (directoryEntries dirs \ ({pageDir} ×ˢ Finset.range count)) fewer ∧
      next.memory = machine.memory) ?_ ?_
  · exact ⟨tables, mapped.counted, mapped.links.mono Finset.sdiff_subset, rfl⟩
  · rintro count bound next ⟨fewer, counted, links, same⟩
    rw [← same] at links
    have member := mem_sdiff_range (mem_directoryEntries.mpr
      (show (pageDir, count).1 ∈ dirs ∧ (pageDir, count).2 < 768 from ⟨isDir, bound⟩))
    rcases nukeDirectoryEntry_step counted links member with ⟨least, nextCounted, nextLinks, kept⟩
    rw [same] at nextLinks
    rw [sdiff_range_succ]
    exact ⟨least, nextCounted, nextLinks, kept.trans same⟩

theorem freed_of_nuked {after : Machine} {fewer : Finset Nat} (subset : dirs ⊆ held)
    (isDir : pageDir ∈ dirs) (counted : Counted after held fewer (tableEntries fewer))
    (links : Links machine.memory (directoryEntries dirs \ ({pageDir} ×ˢ Finset.range 768)) fewer)
    (same : after.memory = machine.memory) :
    Mapped { after with phys := after.phys.free pageDir } (held.erase pageDir)
        (dirs.erase pageDir) fewer ∧
      ({ after with phys := after.phys.free pageDir } : Machine).memory = machine.memory := by
  refine ⟨⟨counted.free (subset isDir), ?_, Finset.erase_subset_erase _ subset⟩, same⟩
  simp only [same]
  refine links.mono fun slot isSlot => ?_
  rcases mem_directoryEntries.mp isSlot with ⟨isOther, bound⟩
  rcases Finset.mem_erase.mp isOther with ⟨different, isDir'⟩
  rw [Finset.mem_sdiff, Finset.mem_product, Finset.mem_singleton]
  exact ⟨mem_directoryEntries.mpr ⟨isDir', bound⟩, fun both => different both.1⟩

theorem nukePageDirectory_spec (mapped : Mapped machine held dirs tables) (isDir : pageDir ∈ dirs) :
    ∃ fewer, Mapped (nukePageDirectory machine pageDir) (held.erase pageDir)
        (dirs.erase pageDir) fewer ∧
      (nukePageDirectory machine pageDir).memory = machine.memory := by
  rcases nukeDirectoryEntry_loop mapped isDir with ⟨fewer, counted, links, same⟩
  exact ⟨fewer, freed_of_nuked mapped.subset isDir counted links same⟩

theorem nukePageDirectory_ok (machine : Machine) (pageDir : Nat) :
    (nukePageDirectory machine pageDir).phys.Ok ↔ machine.phys.Ok := by
  have entryOk : ∀ (ptab : Nat) (machine : Machine),
      (loop 1024 (nukeEntry ptab) machine).phys.Ok ↔ machine.phys.Ok := by
    intro ptab machine
    refine loop_invariant (motive := fun _ (next : Machine) => next.phys.Ok ↔ machine.phys.Ok)
      Iff.rfl fun index _ next sofar => ?_
    rw [nukeEntry_ok, sofar]
  unfold nukePageDirectory
  rw [ok_free]
  refine loop_invariant (motive := fun _ (next : Machine) => next.phys.Ok ↔ machine.phys.Ok)
    Iff.rfl fun index _ next sofar => ?_
  rw [← sofar]
  unfold nukeDirectoryEntry
  simp only
  split
  · rw [ok_free, entryOk]
  · rfl

end Remove

end Dbos.Paging
