import Dbos.Kernel.Memory.UserView

/-! # Cloning page structures

`clone_page_structures` makes all entries of the source readonly and gives the
clone tables with the same entries. -/

namespace Dbos.Paging

open Dbos.Loop Phys

/-- The entries are present for the same frame and the same users. -/
structure Alike (entry other : Nat) : Prop where
  present : presentBit entry = presentBit other
  frame : presentBit other = true → pageAddr entry = pageAddr other
  user : presentBit other = true → userSupervisor entry = userSupervisor other

theorem Alike.refl (entry : Nat) : Alike entry entry := ⟨rfl, fun _ => rfl, fun _ => rfl⟩

theorem Alike.trans {entry middle other : Nat} (first : Alike entry middle)
    (second : Alike middle other) : Alike entry other :=
  ⟨first.present.trans second.present,
    fun present => (first.frame (second.present.trans present)).trans (second.frame present),
    fun present => (first.user (second.present.trans present)).trans (second.user present)⟩

theorem alike_clearReadWrite (entry : Nat) : Alike (clearReadWrite entry) entry :=
  ⟨presentBit_clearReadWrite entry, fun _ => pageAddr_clearReadWrite entry,
    fun _ => userSupervisor_clearReadWrite entry⟩

theorem alike_of_absent {entry other : Nat} (absent : presentBit entry = false)
    (otherAbsent : presentBit other = false) : Alike entry other :=
  ⟨absent.trans otherAbsent.symm, fun present => absurd present (by simp [otherAbsent]),
    fun present => absurd present (by simp [otherAbsent])⟩

/-! ## One table -/

section Table

variable {machine : Machine} {held tables : Finset Nat} {slots : Finset Slot} {source table : Nat}

theorem ok_of_cloneEntry {source table : Nat} {machine : Machine} {index : Nat}
    (ok : (cloneEntry source table machine index).phys.Ok) : machine.phys.Ok := by
  unfold cloneEntry at ok
  split at ok
  · exact ok_of_increaseRefcount ok
  · exact ok

/-- The words that a round of the inner loop may change. -/
structure ClonedAt (machine next : Machine) (source table index : Nat) : Prop where
  elsewhere : ∀ frame, frame ≠ source → frame ≠ table → next.memory frame = machine.memory frame
  sourceElsewhere : ∀ place, place ≠ index → next.memory source place = machine.memory source place
  tableElsewhere : ∀ place, place ≠ index → next.memory table place = machine.memory table place
  sourceEntry : Alike (next.memory source index) (machine.memory source index)
  tableEntry : Alike (next.memory table index) (machine.memory source index)

theorem cloneEntry_clonedAt (different : source ≠ table) {index : Nat}
    (empty : machine.memory table index = 0) :
    ClonedAt machine (cloneEntry source table machine index) source table index := by
  unfold cloneEntry
  split
  case isFalse absent =>
    refine ⟨fun _ _ _ => rfl, fun _ _ => rfl, fun _ _ => rfl, .refl _, ?_⟩
    rw [empty]
    exact alike_of_absent presentBit_zero (Bool.eq_false_iff.mpr absent)
  case isTrue present =>
    refine ⟨fun frame notSource notTable => ?_, fun place other => ?_, fun place other => ?_, ?_, ?_⟩
    · simp only
      rw [setWord_frame_of_ne _ _ _ notTable, setWord_frame_of_ne _ _ _ notSource]
    · simp only
      rw [setWord_of_ne _ _ (.inl different), setWord_of_ne _ _ (.inr other)]
    · simp only
      rw [setWord_of_ne _ _ (.inr other), setWord_of_ne _ _ (.inl (Ne.symm different))]
    · simp only
      rw [setWord_of_ne _ _ (.inl different), setWord_self]
      exact alike_clearReadWrite _
    · simp only
      rw [setWord_self, setWord_self]
      exact alike_clearReadWrite _

theorem cloneEntry_step (counted : Counted machine held tables slots) {index : Nat}
    (member : (source, index) ∈ slots) (newMember : (table, index) ∈ slots)
    (different : source ≠ table) (empty : machine.memory table index = 0)
    (ok : (cloneEntry source table machine index).phys.Ok) :
    Counted (cloneEntry source table machine index) held tables slots := by
  unfold cloneEntry at ok ⊢
  split
  case isFalse => exact counted
  case isTrue present =>
    simp only [present, if_true] at ok
    have readonly : Counted ⟨setSlot machine.memory (source, index)
        (clearReadWrite (machine.memory source index)), machine.phys⟩ held tables slots := by
      refine counted.rewrite member present ?_ ?_ ?_ ?_
      · rw [presentBit_clearReadWrite, present]
      · rw [userSupervisor_clearReadWrite]
        exact (counted.named _ member present).2.2.2
      · exact pageAddr_clearReadWrite _
      · rw [readWrite_clearReadWrite]
        exact fun impossible => absurd impossible (by decide)
    have word : wordAt (setSlot machine.memory (source, index)
        (clearReadWrite (machine.memory source index))) (source, index) =
        clearReadWrite (machine.memory source index) := wordAt_setSlot_self _ _ _
    have isPresent : presentBit (wordAt (setSlot machine.memory (source, index)
        (clearReadWrite (machine.memory source index))) (source, index)) = true := by
      rw [word, presentBit_clearReadWrite, present]
    have managed := (readonly.named _ member isPresent).1
    have referenced : 1 ≤ machine.phys.refcount (pageAddr (wordAt (setSlot machine.memory
        (source, index) (clearReadWrite (machine.memory source index))) (source, index))) :=
      (Finset.card_pos.mpr ⟨_, mem_naming.mpr ⟨member, isPresent, rfl⟩⟩).trans_le
        (readonly.counted _ managed)
    have sets := increaseRefcount_sets counted.valid managed referenced ok
    refine readonly.share member isPresent ?_ newMember ?_ sets
    · rw [word, readWrite_clearReadWrite]
    · rw [wordAt_setSlot_of_ne _ _ (fun same => different (congrArg Prod.fst same).symm)]
      unfold wordAt
      rw [empty, presentBit_zero]

/-- The entries of the table that have been copied after `count` rounds. -/
structure CopiedEntries (machine : Machine) (source table count : Nat) (next : Machine) : Prop where
  elsewhere : ∀ frame, frame ≠ source → frame ≠ table → next.memory frame = machine.memory frame
  sources : ∀ index, Alike (next.memory source index) (machine.memory source index)
  copies : ∀ index < count, Alike (next.memory table index) (machine.memory source index)
  rest : ∀ index, count ≤ index → next.memory table index = 0

theorem copiedEntries_zero (source : Nat) (empty : ∀ index, machine.memory table index = 0) :
    CopiedEntries machine source table 0 machine :=
  ⟨fun _ _ _ => rfl, fun _ => .refl _, fun _ less => absurd less (Nat.not_lt_zero _),
    fun index _ => empty index⟩

theorem CopiedEntries.next {count : Nat} {next : Machine}
    (sofar : CopiedEntries machine source table count next) (different : source ≠ table) :
    CopiedEntries machine source table (count + 1) (cloneEntry source table next count) := by
  have cloned := cloneEntry_clonedAt different (sofar.rest count (Nat.le_refl _))
  refine ⟨fun frame notSource notTable => ?_, fun index => ?_, fun index less => ?_,
    fun index after => ?_⟩
  · rw [cloned.elsewhere frame notSource notTable, sofar.elsewhere frame notSource notTable]
  · by_cases same : index = count
    · rw [same]
      exact cloned.sourceEntry.trans (sofar.sources count)
    · rw [cloned.sourceElsewhere index same]
      exact sofar.sources index
  · by_cases same : index = count
    · rw [same]
      exact cloned.tableEntry.trans (sofar.sources count)
    · rw [cloned.tableElsewhere index same]
      exact sofar.copies index (by omega)
  · rw [cloned.tableElsewhere index (by omega)]
    exact sofar.rest index (by omega)

theorem cloneEntry_loop (counted : Counted machine held tables slots)
    (members : ∀ index < 1024, (source, index) ∈ slots)
    (newMembers : ∀ index < 1024, (table, index) ∈ slots) (different : source ≠ table)
    (empty : ∀ index, machine.memory table index = 0)
    (ok : (loop 1024 (cloneEntry source table) machine).phys.Ok) :
    Counted (loop 1024 (cloneEntry source table) machine) held tables slots ∧
      (∀ frame, frame ≠ source → frame ≠ table →
        (loop 1024 (cloneEntry source table) machine).memory frame = machine.memory frame) ∧
      (∀ index, Alike ((loop 1024 (cloneEntry source table) machine).memory source index)
        (machine.memory source index)) ∧
      ∀ index < 1024, Alike ((loop 1024 (cloneEntry source table) machine).memory table index)
        (machine.memory source index) := by
  have invariant : ∀ next : Machine, next = loop 1024 (cloneEntry source table) machine →
      Counted next held tables slots ∧ CopiedEntries machine source table 1024 next := by
    rintro next rfl
    refine loop_guarded (fun next : Machine => next.phys.Ok)
      (motive := fun count (next : Machine) => Counted next held tables slots ∧
        CopiedEntries machine source table count next)
      (fun _ _ => ok_of_cloneEntry) ok ⟨counted, copiedEntries_zero source empty⟩ ?_
    rintro count bound next nextOk ⟨sofar, copied⟩
    exact ⟨cloneEntry_step sofar (members count bound) (newMembers count bound) different
      (copied.rest count (Nat.le_refl _)) nextOk, copied.next different⟩
  rcases invariant _ rfl with ⟨final, copied⟩
  exact ⟨final, copied.elsewhere, copied.sources, copied.copies⟩

theorem Alike.mirrors {next memory : Memory} {word other : Nat} (alike : Alike word other)
    (same : presentBit other = true → next (pageAddr other) = memory (pageAddr other)) :
    Mirrors next word memory other :=
  ⟨alike.present, alike.user, fun present => by rw [alike.frame present, same present]⟩

/-- The state after the inner loop is named, since it must not be computed. -/
theorem cloneTable_eq (newPageDir : Nat) (machine : Machine) (index srcEntry : Nat) :
    ∃ copied, copied = loop 1024 (cloneEntry (pageAddr srcEntry) machine.phys.allocPage.1)
        ⟨clearFrame machine.memory machine.phys.allocPage.1, machine.phys.allocPage.2⟩ ∧
      cloneTable newPageDir machine index srcEntry =
        ⟨setWord copied.memory newPageDir index
          (setPageAddr srcEntry machine.phys.allocPage.1), copied.phys⟩ :=
  ⟨_, rfl, rfl⟩

/-- What the copy of a table changes. -/
structure ClonedTable (machine next : Machine) (newPageDir index srcEntry newPageTable : Nat)
    (held tables : Finset Nat) : Prop where
  isNew : newPageTable ∉ held ∧ newPageTable ∉ tables
  bound : newPageTable < frameCount
  counted : Counted next held (insert newPageTable tables)
    (tableEntries (insert newPageTable tables))
  entry : next.memory newPageDir index = setPageAddr srcEntry newPageTable
  entries : ∀ place, place ≠ index → next.memory newPageDir place = machine.memory newPageDir place
  keeps : Keeps next.memory machine.memory (held.erase newPageDir) tables
  same : ∀ frame ∈ held, frame ≠ newPageDir → next.memory frame = machine.memory frame
  copied : ∀ place < 1024, Mirrors next.memory (next.memory newPageTable place) machine.memory
    (machine.memory (pageAddr srcEntry) place)

theorem clonedTable_of_copied {next : Machine} {newPageDir index srcEntry newPageTable : Nat}
    (counted : Counted machine held tables (tableEntries tables)) (isHeld : newPageDir ∈ held)
    (isTable : pageAddr srcEntry ∈ tables) (notHeld : newPageTable ∉ held)
    (notTable : newPageTable ∉ tables) (bound : newPageTable < frameCount)
    (notNamed : ∀ slot ∈ tableEntries tables, presentBit (wordAt machine.memory slot) = true →
      pageAddr (wordAt machine.memory slot) ≠ newPageTable)
    (copied : Counted next held (insert newPageTable tables)
      (tableEntries (insert newPageTable tables)))
    (elsewhere : ∀ frame, frame ≠ pageAddr srcEntry → frame ≠ newPageTable →
      next.memory frame = machine.memory frame)
    (sources : ∀ place, Alike (next.memory (pageAddr srcEntry) place)
      (machine.memory (pageAddr srcEntry) place))
    (copies : ∀ place < 1024, Alike (next.memory newPageTable place)
      (machine.memory (pageAddr srcEntry) place)) :
    ClonedTable machine
      ⟨setWord next.memory newPageDir index (setPageAddr srcEntry newPageTable), next.phys⟩
      newPageDir index srcEntry newPageTable held tables := by
  have apart : ∀ frame ∈ held, frame ∉ tables := fun frame isFrame =>
    Finset.disjoint_left.mp counted.apart isFrame
  have isDir : ∀ frame ∈ held, next.memory frame = machine.memory frame := by
    intro frame isFrame
    refine elsewhere frame (fun same => apart frame isFrame (same ▸ isTable)) ?_
    exact fun same => notHeld (same ▸ isFrame)
  have tableWord : ∀ frame, frame ∈ insert newPageTable tables →
      setWord next.memory newPageDir index (setPageAddr srcEntry newPageTable) frame =
        next.memory frame := by
    intro frame isFrame
    refine setWord_frame_of_ne _ _ _ ?_
    rintro rfl
    rcases Finset.mem_insert.mp isFrame with same | isOld
    · exact notHeld (same ▸ isHeld)
    · exact apart _ isHeld isOld
  -- The frames with the data are neither directories nor tables.
  have dataWord : ∀ table ∈ tables, ∀ place < 1024,
      presentBit (machine.memory table place) = true →
      setWord next.memory newPageDir index (setPageAddr srcEntry newPageTable)
        (pageAddr (machine.memory table place)) =
          machine.memory (pageAddr (machine.memory table place)) := by
    intro table isOld place less present
    have isSlot : (table, place) ∈ tableEntries tables := mem_tableEntries.mpr ⟨isOld, less⟩
    rcases counted.named _ isSlot present with ⟨-, notInHeld, notInTables, -⟩
    rw [setWord_frame_of_ne _ _ _ fun same => notInHeld ?_]
    · refine elsewhere _ (fun same => notInTables ?_) (notNamed _ isSlot present)
      exact (show pageAddr (wordAt machine.memory (table, place)) = _ from same) ▸ isTable
    · exact (show pageAddr (wordAt machine.memory (table, place)) = _ from same) ▸ isHeld
  refine ⟨⟨notHeld, notTable⟩, bound, ?_, setWord_self _ _ _ _, ?_, ⟨?_, ?_⟩, ?_, ?_⟩
  · refine copied.congr fun slot isSlot => ?_
    unfold wordAt
    rw [tableWord _ (mem_tableEntries.mp isSlot).1]
  · intro place different
    rw [← isDir _ isHeld]
    exact setWord_of_ne _ _ (.inr different)
  · intro dir isOther place _
    rcases Finset.mem_erase.mp isOther with ⟨different, inHeld⟩
    rw [← isDir _ inHeld]
    exact setWord_of_ne _ _ (.inl different)
  · intro table isOld place less
    simp only
    rw [tableWord table (Finset.mem_insert_of_mem isOld)]
    refine Alike.mirrors ?_ (dataWord table isOld place less)
    by_cases same : table = pageAddr srcEntry
    · rw [same]
      exact sources place
    · rw [elsewhere table same fun isNew => notTable (isNew ▸ isOld)]
      exact .refl _
  · intro frame isFrame different
    rw [← isDir frame isFrame]
    exact setWord_frame_of_ne _ _ _ different
  · intro place less
    simp only
    rw [tableWord _ (Finset.mem_insert_self _ _)]
    exact (copies place less).mirrors (dataWord _ isTable place less)

theorem ok_of_cloneTable {newPageDir index srcEntry : Nat}
    (ok : (cloneTable newPageDir machine index srcEntry).phys.Ok) :
    machine.phys.allocPage.2.Ok := by
  rcases cloneTable_eq newPageDir machine index srcEntry with ⟨copied, isLoop, isClone⟩
  rw [isClone] at ok
  have loopOk : copied.phys.Ok := ok
  rw [isLoop] at loopOk
  exact guard_of_loop (fun next : Machine => next.phys.Ok) (fun _ _ => ok_of_cloneEntry) loopOk

theorem cloneTable_spec {newPageDir index srcEntry : Nat}
    (counted : Counted machine held tables (tableEntries tables)) (isHeld : newPageDir ∈ held)
    (isTable : pageAddr srcEntry ∈ tables)
    (ok : (cloneTable newPageDir machine index srcEntry).phys.Ok) :
    ClonedTable machine (cloneTable newPageDir machine index srcEntry) newPageDir index srcEntry
      machine.phys.allocPage.1 held tables := by
  have allocOk := ok_of_cloneTable ok
  rcases counted.allocPage allocOk with ⟨notHeld, notTable, notNamed, -, -⟩
  have bound := (allocPage_spec counted.valid allocOk).1.lt counted.valid
  have different : pageAddr srcEntry ≠ machine.phys.allocPage.1 := fun same =>
    notTable (same ▸ isTable)
  have ready := counted.newTable allocOk
  rcases cloneTable_eq newPageDir machine index srcEntry with ⟨next, isLoop, isClone⟩
  rw [isClone] at ok ⊢
  have loopOk : next.phys.Ok := ok
  rw [isLoop] at loopOk
  have members : ∀ place < 1024, (pageAddr srcEntry, place) ∈
      tableEntries (insert machine.phys.allocPage.1 tables) := fun place less =>
    mem_tableEntries.mpr ⟨Finset.mem_insert_of_mem isTable, less⟩
  have newMembers : ∀ place < 1024, (machine.phys.allocPage.1, place) ∈
      tableEntries (insert machine.phys.allocPage.1 tables) := fun place less =>
    mem_tableEntries.mpr ⟨Finset.mem_insert_self _ _, less⟩
  have copied := cloneEntry_loop ready members newMembers different
    (fun place => clearFrame_self _ _ _) loopOk
  rw [← isLoop] at copied
  simp only [clearFrame_of_ne _ different] at copied
  refine clonedTable_of_copied counted isHeld isTable notHeld notTable bound notNamed copied.1 ?_
    copied.2.2.1 copied.2.2.2
  intro frame notSource notNew
  rw [copied.2.1 frame notSource notNew, clearFrame_of_ne _ notNew]

end Table

/-! ## The directory -/

section Directory

variable {machine next : Machine} {held dirs tables more : Finset Nat} {srcDir newPageDir : Nat}

/-- The entry of the kernel half that the new directory gets. -/
def clonedKernelEntry (entry newPageDir index : Nat) : Nat :=
  if presentBit entry then if index = 1023 then setPageAddr entry newPageDir else entry else 0

/-- The clone has come to the entry `count`. -/
structure Cloning (machine : Machine) (held dirs tables : Finset Nat)
    (srcDir newPageDir count : Nat) (next : Machine) (more : Finset Nat) : Prop where
  subset : tables ⊆ more
  mapped : Mapped next (insert newPageDir held) (insert newPageDir dirs) more
  keeps : Keeps next.memory machine.memory dirs tables
  copied : ∀ index < 768, index < count → MirrorsTable next.memory (next.memory newPageDir index)
    machine.memory (machine.memory srcDir index)
  rest : ∀ index < 768, count ≤ index → next.memory newPageDir index = 0
  same : ∀ frame ∈ held, next.memory frame = machine.memory frame
  kernel : ∀ index, 768 ≤ index → next.memory newPageDir index =
    if index < count then clonedKernelEntry (machine.memory srcDir index) newPageDir index else 0

theorem Cloning.advance {count : Nat} (mapped : Mapped machine held dirs tables)
    (isDir : srcDir ∈ dirs)
    (cloning : Cloning machine held dirs tables srcDir newPageDir count next more)
    {after : Machine} {evenMore : Finset Nat} (grows : more ⊆ evenMore)
    (afterMapped : Mapped after (insert newPageDir held) (insert newPageDir dirs) evenMore)
    (keeps : Keeps after.memory next.memory dirs more)
    (same : ∀ frame ∈ held, after.memory frame = next.memory frame)
    (entries : ∀ index, index ≠ count →
      after.memory newPageDir index = next.memory newPageDir index)
    (entry : count < 768 → MirrorsTable after.memory (after.memory newPageDir count) next.memory
      (next.memory srcDir count))
    (kernelEntry : 768 ≤ count → after.memory newPageDir count =
      clonedKernelEntry (next.memory srcDir count) newPageDir count) :
    Cloning machine held dirs tables srcDir newPageDir (count + 1) after evenMore := by
  refine ⟨cloning.subset.trans grows, afterMapped,
    (keeps.mono (Finset.Subset.refl _) cloning.subset).trans cloning.keeps, ?_, ?_,
    fun frame isHeld => (same frame isHeld).trans (cloning.same frame isHeld), ?_⟩
  · intro index bound less
    by_cases same : index = count
    · subst same
      exact (entry bound).trans (cloning.keeps.mirrorsTable mapped.links isDir bound)
    · refine MirrorsTable.trans ?_ (cloning.copied index bound (by omega))
      rw [entries index same]
      refine ⟨rfl, fun _ => rfl, fun present place => keeps.pages _ ?_ place⟩
      have isEntry : (newPageDir, index) ∈ directoryEntries (insert newPageDir dirs) :=
        mem_directoryEntries.mpr ⟨Finset.mem_insert_self _ _, bound⟩
      exact (cloning.mapped.links.linked _ isEntry present).1
  · intro index bound after
    rw [entries index (by omega)]
    exact cloning.rest index bound (by omega)
  · intro index above
    by_cases isCount : index = count
    · subst isCount
      rw [kernelEntry above, cloning.same srcDir (mapped.subset isDir), if_pos (Nat.lt_succ_self _)]
    · rw [entries index isCount, cloning.kernel index above]
      refine if_congr ?_ rfl rfl
      omega

theorem Cloning.skip {count : Nat} (mapped : Mapped machine held dirs tables)
    (isDir : srcDir ∈ dirs)
    (cloning : Cloning machine held dirs tables srcDir newPageDir count next more)
    (absent : presentBit (next.memory srcDir count) = false) :
    Cloning machine held dirs tables srcDir newPageDir (count + 1) next more := by
  refine cloning.advance mapped isDir (Finset.Subset.refl _) cloning.mapped (Keeps.refl _ _ _)
    (fun _ _ => rfl) (fun _ _ => rfl) (fun bound => ?_) fun above => ?_
  · rw [cloning.rest count bound (Nat.le_refl _)]
    refine ⟨presentBit_zero.trans absent.symm, fun present => ?_, fun present => ?_⟩
    · rw [absent] at present
      cases present
    · rw [absent] at present
      cases present
  · rw [cloning.kernel count above, if_neg (Nat.lt_irrefl _)]
    simp [clonedKernelEntry, absent]

theorem Cloning.kernelEntry {count : Nat} (mapped : Mapped machine held dirs tables)
    (isDir : srcDir ∈ dirs) (notHeld : newPageDir ∉ held)
    (cloning : Cloning machine held dirs tables srcDir newPageDir count next more)
    (kernel : 768 ≤ count) {word : Nat}
    (isEntry : word = clonedKernelEntry (next.memory srcDir count) newPageDir count) :
    Cloning machine held dirs tables srcDir newPageDir (count + 1)
      ⟨setWord next.memory newPageDir count word, next.phys⟩ more := by
  have sameTables : ∀ frame, frame ∉ insert newPageDir held →
      setWord next.memory newPageDir count word frame = next.memory frame := by
    intro frame isOther
    exact setWord_frame_of_ne _ _ _ fun same => isOther (same ▸ Finset.mem_insert_self _ _)
  have sameHeld : ∀ frame ∈ held,
      setWord next.memory newPageDir count word frame = next.memory frame := by
    intro frame isHeld
    exact setWord_frame_of_ne _ _ _ fun same => notHeld (same ▸ isHeld)
  refine cloning.advance mapped isDir (Finset.Subset.refl _) ⟨?_, ?_, cloning.mapped.subset⟩
    (keeps_of_elsewhere cloning.mapped.counted (fun dir isOther =>
      sameHeld dir (mapped.subset isOther)) sameTables) sameHeld
    (fun index different => setWord_of_ne _ _ (.inr different))
    (fun bound => absurd bound (by omega)) fun _ => ?_
  · refine cloning.mapped.counted.congr fun slot isSlot => ?_
    unfold wordAt
    rw [sameTables slot.1 fun isHeld => Finset.disjoint_left.mp cloning.mapped.counted.apart
      isHeld (mem_tableEntries.mp isSlot).1]
  · refine cloning.mapped.links.congr fun slot isSlot => ?_
    rcases mem_directoryEntries.mp isSlot with ⟨-, bound⟩
    exact setWord_of_ne _ _ (.inr (by omega))
  · rw [← isEntry]
    exact setWord_self _ _ _ _

theorem Cloning.userEntry {count : Nat} (mapped : Mapped machine held dirs tables)
    (isDir : srcDir ∈ dirs) (notHeld : newPageDir ∉ held)
    (cloning : Cloning machine held dirs tables srcDir newPageDir count next more)
    (user : count < 768) (present : presentBit (next.memory srcDir count) = true)
    (ok : (cloneTable newPageDir next count (next.memory srcDir count)).phys.Ok) :
    Cloning machine held dirs tables srcDir newPageDir (count + 1)
      (cloneTable newPageDir next count (next.memory srcDir count))
      (insert next.phys.allocPage.1 more) := by
  have isHeld : newPageDir ∈ insert newPageDir held := Finset.mem_insert_self _ _
  have isEntry : (srcDir, count) ∈ directoryEntries (insert newPageDir dirs) :=
    mem_directoryEntries.mpr ⟨Finset.mem_insert_of_mem isDir, user⟩
  have linked : pageAddr (next.memory srcDir count) ∈ more ∧
      readWrite (next.memory srcDir count) = true ∧
      userSupervisor (next.memory srcDir count) = true :=
    cloning.mapped.links.linked _ isEntry present
  have cloned := cloneTable_spec cloning.mapped.counted isHeld linked.1 ok
  have keeps := cloned.keeps
  rw [Finset.erase_insert notHeld] at keeps
  have sameHeld : ∀ frame ∈ held, (cloneTable newPageDir next count
      (next.memory srcDir count)).memory frame = next.memory frame := fun frame isOld =>
    cloned.same frame (Finset.mem_insert_of_mem isOld) fun same => notHeld (same ▸ isOld)
  refine cloning.advance mapped isDir (Finset.subset_insert _ _)
    ⟨cloned.counted, ?_, cloning.mapped.subset⟩ (keeps.mono mapped.subset (Finset.Subset.refl _))
    sameHeld (fun index different => cloned.entries index different) (fun _ => ?_)
    fun above => absurd above (by omega)
  · refine cloning.mapped.links.link cloned.isNew.2 (newPageDir, count)
      (fun slot isSlot different => ?_) ?_ ?_ ?_
    · rcases mem_directoryEntries.mp isSlot with ⟨isOther, bound⟩
      rcases Finset.mem_insert.mp isOther with same | isOld
      · unfold wordAt
        rw [same]
        exact cloned.entries slot.2 fun isCount => different (Prod.ext same isCount)
      · exact keeps.entries slot.1 (mapped.subset isOld) slot.2 bound
    · unfold wordAt
      rw [cloned.entry, presentBit_setPageAddr, present]
    · unfold wordAt
      rw [cloned.entry, pageAddr_setPageAddr _ cloned.bound]
    · unfold wordAt
      rw [cloned.entry, readWrite_setPageAddr, userSupervisor_setPageAddr]
      exact linked.2
  · rw [cloned.entry]
    refine ⟨presentBit_setPageAddr _ _, fun _ => userSupervisor_setPageAddr _ _, fun _ => ?_⟩
    rw [pageAddr_setPageAddr _ cloned.bound]
    exact cloned.copied

theorem ok_of_cloneDirectoryEntry {index : Nat}
    (ok : (cloneDirectoryEntry srcDir newPageDir machine index).phys.Ok) : machine.phys.Ok := by
  unfold cloneDirectoryEntry at ok
  simp only at ok
  split at ok
  · split at ok
    · exact ok
    · exact ok_of_allocPage (ok_of_cloneTable ok)
  · exact ok

theorem Cloning.step {count : Nat} (mapped : Mapped machine held dirs tables)
    (isDir : srcDir ∈ dirs) (notHeld : newPageDir ∉ held)
    (cloning : Cloning machine held dirs tables srcDir newPageDir count next more)
    (ok : (cloneDirectoryEntry srcDir newPageDir next count).phys.Ok) :
    ∃ evenMore, Cloning machine held dirs tables srcDir newPageDir (count + 1)
      (cloneDirectoryEntry srcDir newPageDir next count) evenMore := by
  unfold cloneDirectoryEntry at ok ⊢
  by_cases present : presentBit (next.memory srcDir count) = true
  · simp only [present, if_true] at ok ⊢
    by_cases kernel : count ≥ 768
    · simp only [kernel, if_true] at ok ⊢
      refine ⟨more, cloning.kernelEntry mapped isDir notHeld kernel ?_⟩
      simp only [clonedKernelEntry, present, if_true]
    · simp only [kernel, if_false] at ok ⊢
      exact ⟨_, cloning.userEntry mapped isDir notHeld (by omega) present ok⟩
  · simp only [present]
    exact ⟨more, cloning.skip mapped isDir (Bool.eq_false_iff.mpr present)⟩

theorem cloning_initial (srcDir : Nat) (mapped : Mapped machine held dirs tables)
    (ok : machine.phys.allocPage.2.Ok) :
    machine.phys.allocPage.1 ∉ held ∧
      Cloning machine held dirs tables srcDir machine.phys.allocPage.1 0
        ⟨clearFrame machine.memory machine.phys.allocPage.1, machine.phys.allocPage.2⟩ tables := by
  rcases mapped.newDirectory ok (fun frame isOld => clearFrame_of_ne _ isOld)
    (fun index _ => clearFrame_self _ _ _) with ⟨notHeld, ready, keeps⟩
  exact ⟨notHeld, Finset.Subset.refl _, ready, keeps,
    fun index _ less => absurd less (Nat.not_lt_zero _), fun index _ _ => clearFrame_self _ _ _,
    fun frame isHeld => clearFrame_of_ne _ fun same => notHeld (same ▸ isHeld),
    fun index _ => by rw [if_neg (Nat.not_lt_zero _)]; exact clearFrame_self _ _ _⟩

theorem clonePageStructures_eq (machine : Machine) (srcDir : Nat) :
    ∃ final, final = loop 1024 (cloneDirectoryEntry srcDir machine.phys.allocPage.1)
        ⟨clearFrame machine.memory machine.phys.allocPage.1, machine.phys.allocPage.2⟩ ∧
      clonePageStructures machine srcDir = (machine.phys.allocPage.1, final) :=
  ⟨_, rfl, rfl⟩

theorem ok_of_clonePageStructures (ok : (clonePageStructures machine srcDir).2.phys.Ok) :
    machine.phys.allocPage.2.Ok := by
  rcases clonePageStructures_eq machine srcDir with ⟨final, isLoop, isClone⟩
  rw [isClone] at ok
  have loopOk : final.phys.Ok := ok
  rw [isLoop] at loopOk
  exact guard_of_loop (fun next : Machine => next.phys.Ok)
    (fun _ _ => ok_of_cloneDirectoryEntry) loopOk

theorem clonePageStructures_cloning (mapped : Mapped machine held dirs tables)
    (isDir : srcDir ∈ dirs) (ok : (clonePageStructures machine srcDir).2.phys.Ok) :
    (clonePageStructures machine srcDir).1 ∉ held ∧
      ∃ more, Cloning machine held dirs tables srcDir (clonePageStructures machine srcDir).1 1024
        (clonePageStructures machine srcDir).2 more := by
  rcases cloning_initial srcDir mapped (ok_of_clonePageStructures ok) with
    ⟨notHeld, initial⟩
  rcases clonePageStructures_eq machine srcDir with ⟨final, isLoop, isClone⟩
  rw [isClone] at ok ⊢
  have loopOk : final.phys.Ok := ok
  rw [isLoop] at loopOk
  refine ⟨notHeld, ?_⟩
  simp only
  rw [isLoop]
  refine loop_guarded (fun next : Machine => next.phys.Ok)
    (motive := fun count (next : Machine) => ∃ more,
      Cloning machine held dirs tables srcDir machine.phys.allocPage.1 count next more)
    (fun _ _ => ok_of_cloneDirectoryEntry) loopOk ⟨tables, initial⟩ ?_
  rintro count - next nextOk ⟨more, cloning⟩
  exact cloning.step mapped isDir notHeld nextOk

/-- `clone_page_structures` gives a directory that shows the pages of the source;
the other directories show what they showed. -/
theorem clonePageStructures_spec (mapped : Mapped machine held dirs tables) (isDir : srcDir ∈ dirs)
    (ok : (clonePageStructures machine srcDir).2.phys.Ok) :
    (clonePageStructures machine srcDir).1 ∉ held ∧
      ∃ more, Mapped (clonePageStructures machine srcDir).2
          (insert (clonePageStructures machine srcDir).1 held)
          (insert (clonePageStructures machine srcDir).1 dirs) more ∧
        (∀ dir ∈ dirs, ∀ page < userPages,
          pageWords (clonePageStructures machine srcDir).2.memory dir page =
            pageWords machine.memory dir page) ∧
        ∀ page < userPages, pageWords (clonePageStructures machine srcDir).2.memory
            (clonePageStructures machine srcDir).1 page =
          pageWords machine.memory srcDir page := by
  rcases clonePageStructures_cloning mapped isDir ok with ⟨notHeld, more, cloning⟩
  refine ⟨notHeld, more, cloning.mapped, fun dir isOther page bound => ?_, fun page bound => ?_⟩
  · exact cloning.keeps.pageWords mapped.links isOther bound
  · have index := div_lt_of_lt_userPages bound
    exact (cloning.copied _ index (by omega)).pageWords

end Directory

end Dbos.Paging
