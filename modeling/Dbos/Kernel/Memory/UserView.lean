import Dbos.Kernel.Memory.AddressSpace

/-! # What a process sees

The user pages of a directory as the processor finds them, and what an operation
has to keep for a directory to show the same pages as before. -/

namespace Dbos.Paging

/-! ## Translation -/

/-- The table entry that an access in user mode ends at, if both levels let it through. -/
def userEntry (memory : Memory) (dir page : Nat) : Option Nat :=
  let entry := memory dir (page / 1024)
  let word := memory (pageAddr entry) (page % 1024)
  if presentBit entry && userSupervisor entry && presentBit word && userSupervisor word then
    some word
  else none

def userWritable (memory : Memory) (dir page : Nat) : Bool :=
  readWrite (memory dir (page / 1024)) && (userEntry memory dir page).any readWrite

def pageWords (memory : Memory) (dir page : Nat) : Option (Nat → Nat) :=
  (userEntry memory dir page).map fun word => memory (pageAddr word)

/-- The number of pages below `0xC0000000`. -/
def userPages : Nat := 768 * 1024

theorem div_lt_of_lt_userPages {page : Nat} (bound : page < userPages) : page / 1024 < 768 := by
  unfold userPages at bound
  omega

/-! ## Directories that show the same pages -/

/-- The entry of a table in one memory gives the page that another one gives. -/
structure Mirrors (next : Memory) (word : Nat) (memory : Memory) (other : Nat) : Prop where
  present : presentBit word = presentBit other
  user : presentBit other = true → userSupervisor word = userSupervisor other
  words : presentBit other = true → next (pageAddr word) = memory (pageAddr other)

theorem Mirrors.trans {last next memory : Memory} {third word other : Nat}
    (second : Mirrors last third next word) (first : Mirrors next word memory other) :
    Mirrors last third memory other :=
  ⟨second.present.trans first.present,
    fun present => (second.user (first.present.trans present)).trans (first.user present),
    fun present => (second.words (first.present.trans present)).trans (first.words present)⟩

theorem pageWords_eq {next memory : Memory} {copy dir page : Nat}
    (present : presentBit (next copy (page / 1024)) = presentBit (memory dir (page / 1024)))
    (user : presentBit (memory dir (page / 1024)) = true →
      userSupervisor (next copy (page / 1024)) = userSupervisor (memory dir (page / 1024)))
    (words : presentBit (memory dir (page / 1024)) = true →
      Mirrors next (next (pageAddr (next copy (page / 1024))) (page % 1024))
        memory (memory (pageAddr (memory dir (page / 1024))) (page % 1024))) :
    pageWords next copy page = pageWords memory dir page := by
  unfold pageWords userEntry
  simp only
  cases isPresent : presentBit (memory dir (page / 1024)) with
  | false => simp [present, isPresent]
  | true =>
      have mirrors := words isPresent
      rw [present, isPresent, user isPresent, mirrors.present]
      cases wordPresent :
          presentBit (memory (pageAddr (memory dir (page / 1024))) (page % 1024)) with
      | false => simp
      | true =>
          rw [mirrors.user wordPresent]
          split
          · simp only [Option.map_some]
            rw [mirrors.words wordPresent]
          · rfl

/-- The tables behind two directory entries give the same pages. -/
structure MirrorsTable (next : Memory) (entry : Nat) (memory : Memory) (other : Nat) : Prop where
  present : presentBit entry = presentBit other
  user : presentBit other = true → userSupervisor entry = userSupervisor other
  words : presentBit other = true → ∀ place < 1024,
    Mirrors next (next (pageAddr entry) place) memory (memory (pageAddr other) place)

theorem MirrorsTable.trans {last next memory : Memory} {third entry other : Nat}
    (second : MirrorsTable last third next entry) (first : MirrorsTable next entry memory other) :
    MirrorsTable last third memory other := by
  refine ⟨second.present.trans first.present, fun present => ?_, fun present place bound => ?_⟩
  · exact (second.user (first.present.trans present)).trans (first.user present)
  · exact (second.words (first.present.trans present) place bound).trans
      (first.words present place bound)

theorem MirrorsTable.pageWords {next memory : Memory} {copy dir page : Nat}
    (mirrors : MirrorsTable next (next copy (page / 1024)) memory (memory dir (page / 1024))) :
    pageWords next copy page = pageWords memory dir page :=
  pageWords_eq mirrors.present mirrors.user fun present =>
    mirrors.words present _ (Nat.mod_lt _ (by decide))

/-- The directories have kept their entries, and the tables their pages. -/
structure Keeps (next memory : Memory) (dirs tables : Finset Nat) : Prop where
  entries : ∀ dir ∈ dirs, ∀ index < 768, next dir index = memory dir index
  pages : ∀ table ∈ tables, ∀ place < 1024,
    Mirrors next (next table place) memory (memory table place)

section Keeps

variable {last next memory : Memory} {held dirs tables : Finset Nat}

theorem Keeps.refl (memory : Memory) (dirs tables : Finset Nat) : Keeps memory memory dirs tables :=
  ⟨fun _ _ _ _ => rfl, fun _ _ _ _ => ⟨rfl, fun _ => rfl, fun _ => rfl⟩⟩

theorem Keeps.trans (second : Keeps last next dirs tables) (first : Keeps next memory dirs tables) :
    Keeps last memory dirs tables :=
  ⟨fun dir isDir index bound =>
      (second.entries dir isDir index bound).trans (first.entries dir isDir index bound),
    fun table isTable place bound =>
      (second.pages table isTable place bound).trans (first.pages table isTable place bound)⟩

theorem Keeps.mono (keeps : Keeps next memory dirs tables) {fewerDirs fewer : Finset Nat}
    (dirsSubset : fewerDirs ⊆ dirs) (subset : fewer ⊆ tables) :
    Keeps next memory fewerDirs fewer :=
  ⟨fun dir isDir => keeps.entries dir (dirsSubset isDir),
    fun table isTable => keeps.pages table (subset isTable)⟩

theorem Keeps.mirrorsTable (keeps : Keeps next memory dirs tables)
    (links : Links memory (directoryEntries dirs) tables) {dir index : Nat} (isDir : dir ∈ dirs)
    (bound : index < 768) :
    MirrorsTable next (next dir index) memory (memory dir index) := by
  rw [keeps.entries dir isDir index bound]
  refine ⟨rfl, fun _ => rfl, fun present place less => keeps.pages _ ?_ place less⟩
  exact (links.linked (dir, index) (mem_directoryEntries.mpr ⟨isDir, bound⟩) present).1

theorem Keeps.pageWords (keeps : Keeps next memory dirs tables)
    (links : Links memory (directoryEntries dirs) tables) {dir page : Nat} (isDir : dir ∈ dirs)
    (bound : page < userPages) : pageWords next dir page = pageWords memory dir page := by
  exact (keeps.mirrorsTable links isDir (div_lt_of_lt_userPages bound)).pageWords

theorem Keeps.links (keeps : Keeps next memory dirs tables)
    (links : Links memory (directoryEntries dirs) tables) :
    Links next (directoryEntries dirs) tables := by
  refine links.congr fun slot isSlot => ?_
  rcases mem_directoryEntries.mp isSlot with ⟨isDir, bound⟩
  exact keeps.entries slot.1 isDir slot.2 bound

theorem keeps_of_elsewhere {phys : Phys}
    (counted : Counted ⟨memory, phys⟩ held tables (tableEntries tables))
    (sameDirs : ∀ dir ∈ dirs, next dir = memory dir)
    (same : ∀ frame, frame ∉ held → next frame = memory frame) :
    Keeps next memory dirs tables := by
  refine ⟨fun dir isDir index _ => by rw [sameDirs dir isDir], fun table isTable place bound => ?_⟩
  have notHeld : table ∉ held := fun isHeld =>
    Finset.disjoint_left.mp counted.apart isHeld isTable
  rw [same table notHeld]
  refine ⟨rfl, fun _ => rfl, fun present => same _ ?_⟩
  exact (counted.named (table, place) (mem_tableEntries.mpr ⟨isTable, bound⟩) present).2.1

theorem Mapped.newDirectory {phys : Phys} (mapped : Mapped ⟨memory, phys⟩ held dirs tables)
    (ok : phys.allocPage.2.Ok)
    (same : ∀ frame, frame ≠ phys.allocPage.1 → next frame = memory frame)
    (empty : ∀ index < 768, next phys.allocPage.1 index = 0) :
    phys.allocPage.1 ∉ held ∧
      Mapped ⟨next, phys.allocPage.2⟩ (insert phys.allocPage.1 held)
        (insert phys.allocPage.1 dirs) tables ∧
      Keeps next memory dirs tables := by
  rcases mapped.counted.allocPage ok with ⟨notHeld, notTable, -, -, isHeld⟩
  have sameDirs : ∀ dir ∈ dirs, next dir = memory dir := fun dir isDir =>
    same dir fun isNew => notHeld (isNew ▸ mapped.subset isDir)
  have sameFrames : ∀ frame, frame ∉ insert phys.allocPage.1 held → next frame = memory frame :=
    fun frame notHeld => same frame fun isNew =>
      notHeld (isNew ▸ Finset.mem_insert_self _ _)
  refine ⟨notHeld, ⟨?_, mapped.links.newDirectory sameDirs empty,
    Finset.insert_subset_insert _ mapped.subset⟩,
    keeps_of_elsewhere isHeld sameDirs sameFrames⟩
  refine isHeld.congr fun slot isSlot => ?_
  have isOld : slot.1 ≠ phys.allocPage.1 := fun isNew =>
    notTable (isNew ▸ (mem_tableEntries.mp isSlot).1)
  exact congrFun (same _ isOld) slot.2

end Keeps

/-! ## Removing an address space -/

section Remove

variable {machine next : Machine} {held dirs tables fewer : Finset Nat} {pageDir : Nat}

theorem mirrorsTable_of_removed (mapped : Mapped machine held dirs tables) (isDir : pageDir ∈ dirs)
    (subset : fewer ⊆ tables) (final : Mapped next held dirs fewer)
    (elsewhere : ∀ frame, frame ≠ pageDir → frame ∉ tables \ fewer →
      next.memory frame = machine.memory frame)
    {dir index : Nat} (isOther : dir ∈ dirs) (different : dir ≠ pageDir) (bound : index < 768) :
    MirrorsTable next.memory (next.memory dir index) machine.memory
      (machine.memory dir index) := by
  have kept : next.memory dir = machine.memory dir :=
    elsewhere dir different fun gone =>
      Finset.disjoint_left.mp mapped.counted.apart (mapped.subset isOther)
        (Finset.mem_sdiff.mp gone).1
  refine ⟨by rw [kept], fun _ => by rw [kept], fun present place less => ?_⟩
  rw [kept]
  have isTable : pageAddr (machine.memory dir index) ∈ fewer := by
    have linked := final.links.linked (dir, index) (mem_directoryEntries.mpr ⟨isOther, bound⟩)
    unfold wordAt at linked
    simp only [kept] at linked
    exact (linked present).1
  rw [elsewhere _ (fun same => Finset.disjoint_left.mp final.counted.apart (final.subset isDir)
    (same ▸ isTable)) fun gone => (Finset.mem_sdiff.mp gone).2 isTable]
  refine ⟨rfl, fun _ => rfl, fun wordPresent => ?_⟩
  have isSlot : (pageAddr (machine.memory dir index), place) ∈ tableEntries tables :=
    mem_tableEntries.mpr ⟨subset isTable, less⟩
  rcases mapped.counted.named _ isSlot wordPresent with ⟨-, notDir, notInTables, -⟩
  exact elsewhere _ (fun same => notDir (same ▸ mapped.subset isDir)) fun gone =>
    notInTables (Finset.mem_sdiff.mp gone).1

theorem removeAddressSpace_pageWords (mapped : Mapped machine held dirs tables)
    (isDir : pageDir ∈ dirs) :
    ∃ fewer, Mapped (removeAddressSpace machine pageDir) held dirs fewer ∧
      ∀ dir ∈ dirs, ∀ page < userPages,
        pageWords (removeAddressSpace machine pageDir).memory dir page =
          if dir = pageDir then none else pageWords machine.memory dir page := by
  rcases removeAddressSpace_spec mapped isDir with ⟨fewer, subset, final, absent, -, elsewhere⟩
  refine ⟨fewer, final, fun dir isOther page bound => ?_⟩
  split
  case isTrue same =>
    unfold pageWords userEntry
    simp [same, absent (page / 1024) (div_lt_of_lt_userPages bound)]
  case isFalse different =>
    exact (mirrorsTable_of_removed mapped isDir subset final elsewhere isOther different
      (div_lt_of_lt_userPages bound)).pageWords

end Remove

end Dbos.Paging
