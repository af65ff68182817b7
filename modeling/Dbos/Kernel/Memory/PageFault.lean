import Dbos.Kernel.Memory.UserView

/-! # Pages that are put in, written to or copied

`set_page_table_entry` and the part of `page_fault_handler` that copies a page,
and what a store in user mode does. Each concerns one page of one directory. -/

namespace Dbos.Paging

open Phys

/-- The slot that an access to the page goes through. -/
def slotOf (memory : Memory) (dir page : Nat) : Slot :=
  (pageAddr (memory dir (page / 1024)), page % 1024)

section Slots

variable {memory next : Memory} {phys : Phys} {held dirs tables : Finset Nat} {dir page : Nat}

theorem slotOf_mem (links : Links memory (directoryEntries dirs) tables) (isDir : dir ∈ dirs)
    (bound : page < userPages) (present : presentBit (memory dir (page / 1024)) = true) :
    slotOf memory dir page ∈ tableEntries tables := by
  have isEntry : (dir, page / 1024) ∈ directoryEntries dirs :=
    mem_directoryEntries.mpr ⟨isDir, div_lt_of_lt_userPages bound⟩
  refine mem_tableEntries.mpr ⟨(links.linked _ isEntry present).1, ?_⟩
  exact Nat.mod_lt _ (by decide)

theorem slotOf_injective (links : Links memory (directoryEntries dirs) tables)
    (isDir : dir ∈ dirs) (bound : page < userPages)
    (present : presentBit (memory dir (page / 1024)) = true) {other otherPage : Nat}
    (isOther : other ∈ dirs) (otherBound : otherPage < userPages)
    (otherPresent : presentBit (memory other (otherPage / 1024)) = true)
    (same : slotOf memory other otherPage = slotOf memory dir page) :
    other = dir ∧ otherPage = page := by
  have isEntry : (dir, page / 1024) ∈ directoryEntries dirs :=
    mem_directoryEntries.mpr ⟨isDir, div_lt_of_lt_userPages bound⟩
  have otherEntry : (other, otherPage / 1024) ∈ directoryEntries dirs :=
    mem_directoryEntries.mpr ⟨isOther, div_lt_of_lt_userPages otherBound⟩
  rcases Prod.ext_iff.mp same with ⟨sameTable, samePlace⟩
  have sameEntry := links.once _ otherEntry _ isEntry otherPresent present sameTable
  rcases Prod.ext_iff.mp sameEntry with ⟨sameDir, sameIndex⟩
  simp only [slotOf] at sameDir sameIndex samePlace
  exact ⟨sameDir, by omega⟩

theorem pageWords_congr (entry : next dir (page / 1024) = memory dir (page / 1024))
    (word : presentBit (memory dir (page / 1024)) = true →
      wordAt next (slotOf memory dir page) = wordAt memory (slotOf memory dir page) ∧
        (presentBit (wordAt memory (slotOf memory dir page)) = true →
          next (pageAddr (wordAt memory (slotOf memory dir page))) =
            memory (pageAddr (wordAt memory (slotOf memory dir page))))) :
    pageWords next dir page = pageWords memory dir page := by
  refine pageWords_eq (by rw [entry]) (fun _ => by rw [entry]) fun present => ?_
  rcases word present with ⟨sameWord, sameFrame⟩
  unfold wordAt slotOf at sameWord sameFrame
  rw [entry, sameWord]
  exact ⟨rfl, fun _ => rfl, sameFrame⟩

theorem userEntry_congr (entry : next dir (page / 1024) = memory dir (page / 1024))
    (word : presentBit (memory dir (page / 1024)) = true →
      wordAt next (slotOf memory dir page) = wordAt memory (slotOf memory dir page)) :
    userEntry next dir page = userEntry memory dir page := by
  unfold userEntry
  unfold wordAt slotOf at word
  rw [entry]
  cases present : presentBit (memory dir (page / 1024)) with
  | false => simp [present]
  | true => simp only [word present]

theorem userEntry_of_present (present : presentBit (memory dir (page / 1024)) = true)
    (user : userSupervisor (memory dir (page / 1024)) = true)
    (wordPresent : presentBit (wordAt memory (slotOf memory dir page)) = true)
    (wordUser : userSupervisor (wordAt memory (slotOf memory dir page)) = true) :
    userEntry memory dir page = some (wordAt memory (slotOf memory dir page)) := by
  unfold userEntry
  unfold wordAt slotOf at wordPresent wordUser ⊢
  simp [present, user, wordPresent, wordUser]

theorem pageWords_of_userEntry {word : Nat} (found : userEntry memory dir page = some word) :
    pageWords memory dir page = some (memory (pageAddr word)) := by
  unfold pageWords
  rw [found, Option.map_some]

theorem present_of_userEntry {word : Nat} (found : userEntry memory dir page = some word) :
    presentBit (memory dir (page / 1024)) = true ∧
      wordAt memory (slotOf memory dir page) = word ∧ presentBit word = true := by
  unfold userEntry at found
  simp only [Option.ite_none_right_eq_some, Bool.and_eq_true, Option.some.injEq] at found
  rcases found with ⟨⟨⟨⟨present, -⟩, wordPresent⟩, -⟩, isWord⟩
  exact ⟨present, isWord, isWord ▸ wordPresent⟩

theorem userEntry_of_absent (absent : presentBit (memory dir (page / 1024)) = false ∨
      presentBit (wordAt memory (slotOf memory dir page)) = false) :
    userEntry memory dir page = none := by
  unfold userEntry
  unfold wordAt slotOf at absent
  rcases absent with absent | absent <;> simp [absent]

theorem pageWords_of_absent (absent : presentBit (memory dir (page / 1024)) = false ∨
      presentBit (wordAt memory (slotOf memory dir page)) = false) :
    pageWords memory dir page = none := by
  unfold pageWords
  rw [userEntry_of_absent absent, Option.map_none]

theorem setSlot_dir (apart : Disjoint held tables) (subset : dirs ⊆ held)
    (links : Links memory (directoryEntries dirs) tables) (isDir : dir ∈ dirs)
    (bound : page < userPages) (present : presentBit (memory dir (page / 1024)) = true)
    (word : Nat) {other : Nat} (isOther : other ∈ dirs) :
    setSlot memory (slotOf memory dir page) word other = memory other := by
  have isTable := (mem_tableEntries.mp (slotOf_mem links isDir bound present)).1
  refine setWord_frame_of_ne _ _ _ fun same => ?_
  exact Finset.disjoint_left.mp apart (subset isOther) (same ▸ isTable)

theorem userEntry_setSlot (apart : Disjoint held tables) (subset : dirs ⊆ held)
    (links : Links memory (directoryEntries dirs) tables) (isDir : dir ∈ dirs)
    (bound : page < userPages) (present : presentBit (memory dir (page / 1024)) = true)
    {word : Nat} (wordPresent : presentBit word = true) (wordUser : userSupervisor word = true) :
    userEntry (setSlot memory (slotOf memory dir page) word) dir page = some word := by
  have sameDir := setSlot_dir apart subset links isDir bound present word isDir
  have sameSlot : slotOf (setSlot memory (slotOf memory dir page) word) dir page =
      slotOf memory dir page := by
    unfold slotOf at sameDir ⊢
    rw [sameDir]
  have isEntry : (dir, page / 1024) ∈ directoryEntries dirs :=
    mem_directoryEntries.mpr ⟨isDir, div_lt_of_lt_userPages bound⟩
  rw [userEntry_of_present, sameSlot, wordAt_setSlot_self]
  · rwa [sameDir]
  · rw [sameDir]
    exact (links.linked _ isEntry present).2.2
  · rwa [sameSlot, wordAt_setSlot_self]
  · rwa [sameSlot, wordAt_setSlot_self]

theorem userWritable_setSlot (apart : Disjoint held tables) (subset : dirs ⊆ held)
    (links : Links memory (directoryEntries dirs) tables) (isDir : dir ∈ dirs)
    (bound : page < userPages) (present : presentBit (memory dir (page / 1024)) = true)
    {word : Nat} (wordPresent : presentBit word = true) (wordUser : userSupervisor word = true)
    (writable : readWrite word = true) :
    userWritable (setSlot memory (slotOf memory dir page) word) dir page = true := by
  have isEntry : (dir, page / 1024) ∈ directoryEntries dirs :=
    mem_directoryEntries.mpr ⟨isDir, div_lt_of_lt_userPages bound⟩
  have entryWritable : readWrite (memory dir (page / 1024)) = true :=
    (links.linked _ isEntry present).2.1
  unfold userWritable
  rw [userEntry_setSlot apart subset links isDir bound present wordPresent wordUser,
    setSlot_dir apart subset links isDir bound present word isDir, entryWritable]
  simp [writable]

theorem userEntry_exchange (apart : Disjoint held tables) (subset : dirs ⊆ held)
    (links : Links memory (directoryEntries dirs) tables) (isDir : dir ∈ dirs)
    (bound : page < userPages) (present : presentBit (memory dir (page / 1024)) = true)
    {word : Nat} (wordPresent : presentBit word = true) (wordUser : userSupervisor word = true)
    {other otherPage : Nat} (isOther : other ∈ dirs) (otherBound : otherPage < userPages) :
    userEntry (setSlot memory (slotOf memory dir page) word) other otherPage =
      if other = dir ∧ otherPage = page then some word
      else userEntry memory other otherPage := by
  split
  case isTrue same =>
    rw [same.1, same.2]
    exact userEntry_setSlot apart subset links isDir bound present wordPresent wordUser
  case isFalse different =>
    have sameDir := setSlot_dir apart subset links isDir bound present word isOther
    refine userEntry_congr (by rw [sameDir]) fun otherPresent => ?_
    refine wordAt_setSlot_of_ne _ _ fun same => different ?_
    exact slotOf_injective links isDir bound present isOther otherBound otherPresent same

/-- One page is exchanged, in the slot that leads to it. -/
theorem pageWords_exchange (counted : Counted ⟨memory, phys⟩ held tables
      ((tableEntries tables).erase (slotOf memory dir page)))
    (links : Links memory (directoryEntries dirs) tables) (subset : dirs ⊆ held)
    (isDir : dir ∈ dirs) (bound : page < userPages)
    (present : presentBit (memory dir (page / 1024)) = true) {word : Nat}
    (wordPresent : presentBit word = true) (wordUser : userSupervisor word = true)
    (notTable : pageAddr word ∉ tables) {other otherPage : Nat} (isOther : other ∈ dirs)
    (otherBound : otherPage < userPages) :
    pageWords (setSlot memory (slotOf memory dir page) word) other otherPage =
      if other = dir ∧ otherPage = page then some (memory (pageAddr word))
      else pageWords memory other otherPage := by
  have isTable := (mem_tableEntries.mp (slotOf_mem links isDir bound present)).1
  have sameFrame : ∀ frame, frame ∉ tables →
      setSlot memory (slotOf memory dir page) word frame = memory frame := by
    intro frame isData
    exact setWord_frame_of_ne _ _ _ fun same => isData (same ▸ isTable)
  split
  case isTrue same =>
    have found := userEntry_setSlot counted.apart subset links isDir bound present wordPresent
      wordUser
    rw [same.1, same.2, pageWords_of_userEntry found, sameFrame _ notTable]
  case isFalse different =>
    have sameDir := setSlot_dir counted.apart subset links isDir bound present word isOther
    refine pageWords_congr (by rw [sameDir]) fun otherPresent => ?_
    have differs : slotOf memory other otherPage ≠ slotOf memory dir page := fun same =>
      different (slotOf_injective links isDir bound present isOther otherBound otherPresent same)
    refine ⟨wordAt_setSlot_of_ne _ _ differs, fun isPresent => sameFrame _ ?_⟩
    have isMember := Finset.mem_erase.mpr
      ⟨differs, slotOf_mem links isOther otherBound otherPresent⟩
    exact (counted.named _ isMember isPresent).2.2.1

end Slots

/-! ## `set_page_table_entry` -/

section SetEntry

variable {memory : Memory} {phys : Phys} {held dirs tables : Finset Nat} {dir page : Nat}

theorem setPageTableEntry_of_table (frame present user : Nat)
    (isTable : pageAddr (memory dir (page / 1024)) ≠ 0) :
    setPageTableEntry ⟨memory, phys⟩ dir page frame present user =
      ⟨setSlot memory (slotOf memory dir page) (makeEntry present user frame), phys⟩ := by
  unfold setPageTableEntry
  rw [if_neg isTable]
  rfl

/-- The memory with a new table for the page. -/
def withTable (memory : Memory) (dir page table user : Nat) : Memory :=
  clearFrame (setWord memory dir (page / 1024) (makeEntry 1 user table)) table

theorem withTable_entry (page : Nat) (memory : Memory) {table : Nat} (user : Nat)
    (different : dir ≠ table) :
    withTable memory dir page table user dir (page / 1024) = makeEntry 1 user table := by
  unfold withTable
  rw [clearFrame_of_ne _ different, setWord_self]

theorem withTable_of_ne (memory : Memory) {table other : Nat} (user : Nat)
    (notDir : other ≠ dir) (notTable : other ≠ table) :
    withTable memory dir page table user other = memory other := by
  unfold withTable
  rw [clearFrame_of_ne _ notTable, setWord_frame_of_ne _ _ _ notDir]

theorem setPageTableEntry_of_missing (frame present user : Nat)
    (missing : pageAddr (memory dir (page / 1024)) = 0) (different : dir ≠ phys.allocPage.1)
    (bound : phys.allocPage.1 < frameCount) (notZero : phys.allocPage.1 ≠ 0) :
    setPageTableEntry ⟨memory, phys⟩ dir page frame present user =
      setPageTableEntry ⟨withTable memory dir page phys.allocPage.1 user, phys.allocPage.2⟩
        dir page frame present user := by
  have entry := withTable_entry page memory user different
  have isTable : pageAddr (withTable memory dir page phys.allocPage.1 user dir (page / 1024)) =
      phys.allocPage.1 := by
    rw [entry, pageAddr_makeEntry _ _ bound]
  have isNotZero : pageAddr (withTable memory dir page phys.allocPage.1 user dir (page / 1024)) ≠
      0 := by
    rw [isTable]
    exact notZero
  rw [setPageTableEntry_of_table frame present user isNotZero]
  unfold setPageTableEntry slotOf setSlot
  rw [if_pos missing, isTable]
  rfl

theorem ok_of_setPageTableEntry {frame present user : Nat}
    (ok : (setPageTableEntry ⟨memory, phys⟩ dir page frame present user).phys.Ok) : phys.Ok := by
  unfold setPageTableEntry at ok
  simp only at ok
  split at ok
  · exact ok_of_allocPage ok
  · exact ok

section NewTable

variable (counted : Counted ⟨memory, phys⟩ held tables (tableEntries tables))
include counted

theorem absent_of_missing (links : Links memory (directoryEntries dirs) tables)
    (isDir : dir ∈ dirs) (bound : page < userPages)
    (missing : pageAddr (memory dir (page / 1024)) = 0) :
    presentBit (memory dir (page / 1024)) = false := by
  by_contra present
  rw [Bool.not_eq_false] at present
  have isEntry : (dir, page / 1024) ∈ directoryEntries dirs :=
    mem_directoryEntries.mpr ⟨isDir, div_lt_of_lt_userPages bound⟩
  have isTable := (links.linked _ isEntry present).1
  exact counted.notZero (missing ▸ isTable)

variable (subset : dirs ⊆ held)
include subset

theorem table_ne_dir (isDir : dir ∈ dirs) {table : Nat} (isTable : table ∈ tables) : table ≠ dir :=
  fun same => Finset.disjoint_left.mp counted.apart (subset isDir) (same ▸ isTable)

theorem dir_ne_newTable (isDir : dir ∈ dirs) (ok : phys.allocPage.2.Ok) :
    dir ≠ phys.allocPage.1 :=
  fun same => (counted.allocPage ok).1 (same ▸ subset isDir)

variable (links : Links memory (directoryEntries dirs) tables) (isDir : dir ∈ dirs)
  (ok : phys.allocPage.2.Ok)
include isDir ok

omit isDir in
theorem wordAt_withTable {slot : Slot} (isSlot : slot ∈ directoryEntries dirs)
    (different : slot ≠ (dir, page / 1024)) :
    wordAt (withTable memory dir page phys.allocPage.1 1) slot = wordAt memory slot := by
  unfold withTable wordAt
  rw [clearFrame_of_ne _ (dir_ne_newTable counted subset (mem_directoryEntries.mp isSlot).1 ok)]
  exact wordAt_setSlot_of_ne memory _ different

theorem counted_withTable :
    Counted ⟨withTable memory dir page phys.allocPage.1 1, phys.allocPage.2⟩ held
      (insert phys.allocPage.1 tables) (tableEntries (insert phys.allocPage.1 tables)) := by
  refine (counted.newTable ok).congr fun slot isSlot => ?_
  unfold wordAt withTable
  rcases Finset.mem_insert.mp (mem_tableEntries.mp isSlot).1 with isNew | isOld
  · rw [isNew, clearFrame_self, clearFrame_self]
  · have different : slot.1 ≠ phys.allocPage.1 := fun same =>
      (counted.allocPage ok).2.1 (same ▸ isOld)
    rw [clearFrame_of_ne _ different, clearFrame_of_ne _ different,
      setWord_frame_of_ne _ _ _ (table_ne_dir counted subset isDir isOld)]

include links

theorem links_withTable :
    Links (withTable memory dir page phys.allocPage.1 1) (directoryEntries dirs)
      (insert phys.allocPage.1 tables) := by
  have less : phys.allocPage.1 < frameCount :=
    (allocPage_spec counted.valid ok).1.lt counted.valid
  have entry := withTable_entry page memory 1 (dir_ne_newTable counted subset isDir ok)
  refine links.link (counted.allocPage ok).2.1 (dir, page / 1024)
    (fun slot isSlot => wordAt_withTable counted subset ok isSlot) ?_ ?_ ⟨?_, ?_⟩
  · unfold wordAt
    rw [entry, presentBit_makeEntry]
  · unfold wordAt
    rw [entry, pageAddr_makeEntry _ _ less]
  · unfold wordAt
    rw [entry, readWrite_makeEntry]
  · unfold wordAt
    rw [entry, userSupervisor_makeEntry]

/-- No page is mapped by the new table. -/
theorem userEntry_withTable (bound : page < userPages)
    (missing : pageAddr (memory dir (page / 1024)) = 0) {other : Nat} (isOther : other ∈ dirs)
    {otherPage : Nat} (otherBound : otherPage < userPages) :
    userEntry (withTable memory dir page phys.allocPage.1 1) other otherPage =
        userEntry memory other otherPage ∧
      pageWords (withTable memory dir page phys.allocPage.1 1) other otherPage =
        pageWords memory other otherPage := by
  rcases counted.allocPage ok with ⟨-, notTable, notNamed, -, -⟩
  by_cases same : (other, otherPage / 1024) = (dir, page / 1024)
  · rcases Prod.ext_iff.mp same with ⟨sameDir, sameIndex⟩
    simp only at sameDir sameIndex
    have less : phys.allocPage.1 < frameCount :=
      (allocPage_spec counted.valid ok).1.lt counted.valid
    have entry := withTable_entry page memory 1 (dir_ne_newTable counted subset isDir ok)
    have before : presentBit (memory other (otherPage / 1024)) = false := by
      rw [sameDir, sameIndex, absent_of_missing counted links isDir bound missing]
    have after : presentBit (wordAt (withTable memory dir page phys.allocPage.1 1)
        (slotOf (withTable memory dir page phys.allocPage.1 1) other otherPage)) = false := by
      unfold wordAt slotOf
      rw [sameDir, sameIndex, entry, pageAddr_makeEntry _ _ less]
      unfold withTable
      rw [clearFrame_self, presentBit_zero]
    rw [userEntry_of_absent (.inr after), userEntry_of_absent (.inl before),
      pageWords_of_absent (.inr after), pageWords_of_absent (.inl before)]
    exact ⟨rfl, rfl⟩
  · have isOtherEntry : (other, otherPage / 1024) ∈ directoryEntries dirs :=
      mem_directoryEntries.mpr ⟨isOther, div_lt_of_lt_userPages otherBound⟩
    have sameEntry := wordAt_withTable counted subset ok isOtherEntry same
    have sameWord : presentBit (memory other (otherPage / 1024)) = true →
        wordAt (withTable memory dir page phys.allocPage.1 1) (slotOf memory other otherPage) =
          wordAt memory (slotOf memory other otherPage) := by
      intro present
      have isTable := (mem_tableEntries.mp (slotOf_mem links isOther otherBound present)).1
      have isOld : (slotOf memory other otherPage).1 ≠ phys.allocPage.1 := fun isNew =>
        notTable (isNew ▸ isTable)
      unfold wordAt
      rw [withTable_of_ne memory 1 (table_ne_dir counted subset isDir isTable) isOld]
    refine ⟨userEntry_congr sameEntry sameWord, pageWords_congr sameEntry fun present =>
      ⟨sameWord present, fun wordPresent => ?_⟩⟩
    have isSlot := slotOf_mem links isOther otherBound present
    refine withTable_of_ne memory 1 (fun isFrame => ?_) (notNamed _ isSlot wordPresent)
    exact (counted.named _ isSlot wordPresent).2.1 (isFrame ▸ subset isDir)

end NewTable

/-- A held frame is put in the place of a page whose entry is not counted. -/
theorem Mapped.exchange {frame : Nat} (counted : Counted ⟨memory, phys⟩ (insert frame held) tables
      ((tableEntries tables).erase (slotOf memory dir page)))
    (links : Links memory (directoryEntries dirs) tables) (subset : dirs ⊆ held)
    (notHeld : frame ∉ held) (isDir : dir ∈ dirs) (bound : page < userPages)
    (present : presentBit (memory dir (page / 1024)) = true) :
    Mapped (setPageTableEntry ⟨memory, phys⟩ dir page frame 1 1) held dirs tables ∧
      ∀ other ∈ dirs, ∀ otherPage < userPages,
        userEntry (setPageTableEntry ⟨memory, phys⟩ dir page frame 1 1).memory other otherPage =
            (if other = dir ∧ otherPage = page then some (makeEntry 1 1 frame)
            else userEntry memory other otherPage) ∧
          pageWords (setPageTableEntry ⟨memory, phys⟩ dir page frame 1 1).memory other otherPage =
            if other = dir ∧ otherPage = page then some (memory frame)
            else pageWords memory other otherPage := by
  have isSlot := slotOf_mem links isDir bound present
  have isTable := (mem_tableEntries.mp isSlot).1
  have isHeld : frame ∈ insert frame held := Finset.mem_insert_self _ _
  have less := (counted.heldManaged frame isHeld).1.lt counted.valid
  have isFrame := pageAddr_makeEntry 1 1 less
  have notZero : pageAddr (memory dir (page / 1024)) ≠ 0 := fun zero =>
    counted.notZero (zero ▸ isTable)
  rw [setPageTableEntry_of_table _ _ _ notZero]
  have installed := counted.install (Finset.notMem_erase _ _) isTable
    (userSupervisor_makeEntry 1 frame) (isFrame.symm ▸ isHeld)
  rw [Finset.insert_erase isSlot, isFrame, Finset.erase_insert notHeld] at installed
  refine ⟨⟨installed, links.congr fun slot isEntry => ?_, subset⟩,
    fun other isOther otherPage less => ?_⟩
  · unfold wordAt
    refine congrFun (setWord_frame_of_ne _ _ _ fun same => ?_) slot.2
    exact Finset.disjoint_left.mp installed.apart (subset (mem_directoryEntries.mp isEntry).1)
      (same ▸ isTable)
  · have notTable : pageAddr (makeEntry 1 1 frame) ∉ tables := by
      rw [isFrame]
      exact Finset.disjoint_left.mp counted.apart isHeld
    have words := pageWords_exchange counted links (subset.trans (Finset.subset_insert _ _)) isDir
      bound present
      (presentBit_makeEntry 1 frame) (userSupervisor_makeEntry 1 frame) notTable isOther less
    rw [isFrame] at words
    exact ⟨userEntry_exchange installed.apart subset links isDir bound present
      (presentBit_makeEntry 1 frame) (userSupervisor_makeEntry 1 frame) isOther less, words⟩

/-- The tables when the page has got an entry. -/
def tablesWith (machine : Machine) (dir page : Nat) (tables : Finset Nat) : Finset Nat :=
  if pageAddr (machine.memory dir (page / 1024)) = 0 then insert machine.phys.allocPage.1 tables
  else tables

theorem setPageTableEntry_spec {frame : Nat}
    (counted : Counted ⟨memory, phys⟩ (insert frame held) tables (tableEntries tables))
    (links : Links memory (directoryEntries dirs) tables) (subset : dirs ⊆ held)
    (notHeld : frame ∉ held) (isDir : dir ∈ dirs) (bound : page < userPages)
    (ok : (setPageTableEntry ⟨memory, phys⟩ dir page frame 1 1).phys.Ok) :
    Mapped (setPageTableEntry ⟨memory, phys⟩ dir page frame 1 1) held dirs
        (tablesWith ⟨memory, phys⟩ dir page tables) ∧
      ∀ other ∈ dirs, ∀ otherPage < userPages,
        userEntry (setPageTableEntry ⟨memory, phys⟩ dir page frame 1 1).memory other otherPage =
            (if other = dir ∧ otherPage = page then some (makeEntry 1 1 frame)
            else userEntry memory other otherPage) ∧
          pageWords (setPageTableEntry ⟨memory, phys⟩ dir page frame 1 1).memory other otherPage =
            if other = dir ∧ otherPage = page then some (memory frame)
            else pageWords memory other otherPage := by
  unfold tablesWith
  by_cases missing : pageAddr (memory dir (page / 1024)) = 0
  · have allocOk : phys.allocPage.2.Ok := by
      unfold setPageTableEntry at ok
      rw [if_pos missing] at ok
      exact ok
    have within := subset.trans (Finset.subset_insert frame held)
    rcases counted.allocPage allocOk with ⟨isNew, -, -, notZero, -⟩
    have less := (allocPage_spec counted.valid allocOk).1.lt counted.valid
    have different : dir ≠ phys.allocPage.1 := fun same => isNew (same ▸ within isDir)
    have frameDiffers : frame ≠ phys.allocPage.1 := fun same =>
      isNew (same ▸ Finset.mem_insert_self _ _)
    have notThisDir : frame ≠ dir := fun same => notHeld (same ▸ subset isDir)
    have entry := withTable_entry page memory 1 different
    have present : presentBit (withTable memory dir page phys.allocPage.1 1 dir (page / 1024)) =
        true := by
      rw [entry, presentBit_makeEntry]
    rw [setPageTableEntry_of_missing _ _ _ missing different less notZero]
    rcases Mapped.exchange ((counted_withTable counted within isDir allocOk).mono
      (Finset.erase_subset _ _)) (links_withTable counted within links isDir allocOk) subset notHeld
      isDir bound present with ⟨mapped, words⟩
    rw [if_pos missing]
    refine ⟨mapped, fun other isOther otherPage otherBound => ?_⟩
    have same := userEntry_withTable counted within links isDir allocOk bound missing isOther
      otherBound
    rw [(words other isOther otherPage otherBound).1, (words other isOther otherPage otherBound).2,
      same.1, same.2, withTable_of_ne memory 1 notThisDir frameDiffers]
    exact ⟨rfl, rfl⟩
  · have present : presentBit (memory dir (page / 1024)) = true := by
      by_contra absent
      rw [Bool.not_eq_true] at absent
      have isEntry : (dir, page / 1024) ∈ directoryEntries dirs :=
        mem_directoryEntries.mpr ⟨isDir, div_lt_of_lt_userPages bound⟩
      exact missing (links.blank _ isEntry absent)
    rw [if_neg missing]
    exact Mapped.exchange (counted.mono (Finset.erase_subset _ _)) links subset notHeld isDir bound
      present

end SetEntry

/-! ## Copying a page when it is written to -/

section Copy

variable {machine : Machine} {held dirs tables : Finset Nat} {dir page : Nat}

theorem getMappedAddress_eq (mapped : Mapped machine held dirs tables) (isDir : dir ∈ dirs)
    (bound : page < userPages) (present : presentBit (machine.memory dir (page / 1024)) = true) :
    getMappedAddress machine dir page =
      pageAddr (wordAt machine.memory (slotOf machine.memory dir page)) := by
  have isTable := (mem_tableEntries.mp (slotOf_mem mapped.links isDir bound present)).1
  have notZero : pageAddr (machine.memory dir (page / 1024)) ≠ 0 := fun zero =>
    mapped.counted.notZero (zero ▸ isTable)
  unfold getMappedAddress
  rw [if_pos notZero]
  rfl

/-- A page that is alone in its frame is made writable again. -/
theorem reclaim_spec (mapped : Mapped machine held dirs tables) (isDir : dir ∈ dirs)
    (bound : page < userPages) {word : Nat}
    (found : userEntry machine.memory dir page = some word)
    (alone : machine.phys.refcount (pageAddr word) = 1) :
    Mapped (setPageTableEntry machine dir page (pageAddr word) 1 1) held dirs tables ∧
      (∀ other ∈ dirs, ∀ otherPage < userPages,
        pageWords (setPageTableEntry machine dir page (pageAddr word) 1 1).memory other otherPage =
          pageWords machine.memory other otherPage) ∧
      userWritable (setPageTableEntry machine dir page (pageAddr word) 1 1).memory dir page =
        true := by
  rcases machine with ⟨memory, phys⟩
  rcases present_of_userEntry found with ⟨present, isWord, wordPresent⟩
  have isSlot := slotOf_mem mapped.links isDir bound present
  have isTable := (mem_tableEntries.mp isSlot).1
  have notZero : pageAddr (memory dir (page / 1024)) ≠ 0 := fun zero =>
    mapped.counted.notZero (zero ▸ isTable)
  have named := mapped.counted.named _ isSlot (isWord ▸ wordPresent)
  simp only [isWord] at named
  have isFrame := pageAddr_makeEntry 1 1 (named.1.lt mapped.counted.valid)
  have isPresent := presentBit_makeEntry 1 (pageAddr word)
  have isUser := userSupervisor_makeEntry 1 (pageAddr word)
  rw [setPageTableEntry_of_table _ _ _ notZero]
  refine ⟨⟨?_, ?_, mapped.subset⟩, fun other isOther otherPage otherBound => ?_, ?_⟩
  · refine mapped.counted.rewrite isSlot (isWord ▸ wordPresent) isPresent isUser ?_ fun _ => ?_
    · rw [isFrame, isWord]
    · rw [isFrame, ← alone]
      exact mapped.counted.counted _ named.1
  · refine mapped.links.congr fun slot isEntry => ?_
    exact congrFun (setSlot_dir mapped.counted.apart mapped.subset mapped.links isDir
      bound present _ (mem_directoryEntries.mp isEntry).1) slot.2
  · rw [pageWords_exchange (mapped.counted.mono (Finset.erase_subset _ _)) mapped.links
      mapped.subset isDir bound present isPresent isUser (isFrame.symm ▸ named.2.2.1)
      isOther otherBound, isFrame]
    split
    case isTrue same => rw [same.1, same.2, pageWords_of_userEntry found]
    case isFalse => rfl
  · exact userWritable_setSlot mapped.counted.apart mapped.subset mapped.links isDir
      bound present isPresent isUser (readWrite_makeEntry 1 1 _)

/-- A frame that has been handed out for the copy of a page. -/
structure HandedOut (memory : Memory) (phys : Phys) (held tables : Finset Nat) (dir page newFrame : Nat) :
    Prop where
  notHeld : newFrame ∉ held
  notTable : newFrame ∉ tables
  notNamed : ∀ slot ∈ (tableEntries tables).erase (slotOf memory dir page),
    presentBit (wordAt memory slot) = true → pageAddr (wordAt memory slot) ≠ newFrame
  counted : Counted ⟨memory, phys⟩ (insert newFrame held) tables
    ((tableEntries tables).erase (slotOf memory dir page))

section Shared

variable {memory copied : Memory} {phys next : Phys} {word newFrame : Nat}

theorem Mapped.handedOut (mapped : Mapped ⟨memory, phys⟩ held dirs tables) (isDir : dir ∈ dirs)
    (bound : page < userPages) (found : userEntry memory dir page = some word)
    (allocated : (phys.decreaseRefcount (pageAddr word)).allocPage = (newFrame, next))
    (ok : next.Ok) : HandedOut memory next held tables dir page newFrame := by
  rcases present_of_userEntry found with ⟨present, isWord, wordPresent⟩
  have isSlot := slotOf_mem mapped.links isDir bound present
  have named := mapped.counted.named _ isSlot (isWord ▸ wordPresent)
  simp only [isWord] at named
  have released : Counted ⟨memory, phys.decreaseRefcount (pageAddr word)⟩ held tables
      ((tableEntries tables).erase (slotOf memory dir page)) := by
    refine mapped.counted.release isSlot (isWord ▸ wordPresent) ?_
    rw [isWord]
    exact decreaseRefcount_sets mapped.counted.valid named.1
  have isHeld := released.allocPage (by rw [allocated]; exact ok)
  rw [allocated] at isHeld
  exact ⟨isHeld.1, isHeld.2.1, isHeld.2.2.1, isHeld.2.2.2.2⟩

/-- The directories and the tables are not touched by the copy. -/
theorem HandedOut.sameFrames (handed : HandedOut memory next held tables dir page newFrame)
    (isCopy : copied = Function.update memory newFrame (memory (pageAddr word))) :
    (∀ frame, frame ≠ newFrame → copied frame = memory frame) ∧
      (∀ other ∈ held, copied other = memory other) ∧
      ∀ table ∈ tables, copied table = memory table := by
  have sameFrame : ∀ frame, frame ≠ newFrame → copied frame = memory frame := by
    intro frame isOld
    rw [isCopy, Function.update_of_ne isOld]
  exact ⟨sameFrame, fun other isOther => sameFrame other fun same => handed.notHeld (same ▸ isOther),
    fun table isOther => sameFrame table fun same => handed.notTable (same ▸ isOther)⟩

/-- A page that is shared is given a frame of its own. -/
theorem copy_spec (mapped : Mapped ⟨memory, phys⟩ held dirs tables)
    (isDir : dir ∈ dirs) (bound : page < userPages)
    (found : userEntry memory dir page = some word)
    (allocated : (phys.decreaseRefcount (pageAddr word)).allocPage = (newFrame, next))
    (ok : next.Ok) (isCopy : copied = Function.update memory newFrame (memory (pageAddr word))) :
    Mapped (setPageTableEntry ⟨copied, next⟩ dir page newFrame 1 1) held dirs tables ∧
      (∀ other ∈ dirs, ∀ otherPage < userPages,
        pageWords (setPageTableEntry ⟨copied, next⟩ dir page newFrame 1 1).memory other
            otherPage = pageWords memory other otherPage) ∧
      userWritable (setPageTableEntry ⟨copied, next⟩ dir page newFrame 1 1).memory dir page =
        true := by
  rcases present_of_userEntry found with ⟨present, -, -⟩
  have handed := mapped.handedOut isDir bound found allocated ok
  rcases handed.sameFrames isCopy with ⟨sameFrame, sameHeld, sameTable⟩
  have sameDir : ∀ other ∈ dirs, copied other = memory other := fun other isOther =>
    sameHeld other (mapped.subset isOther)
  have sameSlot : slotOf copied dir page = slotOf memory dir page := by
    unfold slotOf
    rw [sameDir dir isDir]
  have ready : Counted ⟨copied, next⟩ (insert newFrame held) tables
      ((tableEntries tables).erase (slotOf copied dir page)) := by
    rw [sameSlot]
    refine handed.counted.congr fun slot isOther => ?_
    unfold wordAt
    rw [sameTable _ (mem_tableEntries.mp (Finset.mem_of_mem_erase isOther)).1]
  have links : Links copied (directoryEntries dirs) tables := by
    refine mapped.links.congr fun slot isEntry => ?_
    unfold wordAt
    rw [sameDir _ (mem_directoryEntries.mp isEntry).1]
  have stillPresent : presentBit (copied dir (page / 1024)) = true := by
    rwa [sameDir dir isDir]
  rcases Mapped.exchange ready links mapped.subset handed.notHeld isDir bound stillPresent with
    ⟨final, words⟩
  refine ⟨final, fun other isOther otherPage otherBound => ?_, ?_⟩
  · rw [(words other isOther otherPage otherBound).2]
    split
    case isTrue same =>
      rw [same.1, same.2, pageWords_of_userEntry found, isCopy, Function.update_self]
    case isFalse notPage =>
      refine pageWords_congr (by rw [sameDir other isOther]) fun otherPresent => ?_
      have isOtherSlot := slotOf_mem mapped.links isOther otherBound otherPresent
      have differs : slotOf memory other otherPage ≠ slotOf memory dir page := fun same =>
        notPage (slotOf_injective mapped.links isDir bound present isOther otherBound
          otherPresent same)
      refine ⟨?_, fun isPresent => sameFrame _ ?_⟩
      · unfold wordAt
        rw [sameTable _ (mem_tableEntries.mp isOtherSlot).1]
      · exact handed.notNamed _ (Finset.mem_erase.mpr ⟨differs, isOtherSlot⟩) isPresent
  · have notZero : pageAddr (copied dir (page / 1024)) ≠ 0 := fun zero =>
      mapped.counted.notZero (zero ▸ (mem_tableEntries.mp
        (slotOf_mem links isDir bound stillPresent)).1)
    rw [setPageTableEntry_of_table _ _ _ notZero]
    exact userWritable_setSlot mapped.counted.apart mapped.subset links isDir bound
      stillPresent (presentBit_makeEntry 1 _) (userSupervisor_makeEntry 1 _)
      (readWrite_makeEntry 1 1 _)

end Shared

theorem copyOnWrite_of_shared {frame : Nat} (isFrame : getMappedAddress machine dir page = frame)
    (shared : machine.phys.getRefcount frame > 1) :
    copyOnWrite machine dir page =
      setPageTableEntry ⟨Function.update machine.memory
        (machine.phys.decreaseRefcount frame).allocPage.1 (machine.memory frame),
        (machine.phys.decreaseRefcount frame).allocPage.2⟩ dir page
        (machine.phys.decreaseRefcount frame).allocPage.1 1 1 := by
  unfold copyOnWrite
  simp only [isFrame, shared, if_true]

theorem copyOnWrite_of_alone {frame : Nat} (isFrame : getMappedAddress machine dir page = frame)
    (alone : machine.phys.getRefcount frame = 1) :
    copyOnWrite machine dir page = setPageTableEntry machine dir page frame 1 1 := by
  unfold copyOnWrite
  simp [isFrame, alone]

theorem ok_of_copyOnWrite (ok : (copyOnWrite machine dir page).phys.Ok) : machine.phys.Ok := by
  unfold copyOnWrite at ok
  simp only at ok
  split at ok
  · exact (ok_decreaseRefcount _ _).mp (ok_of_allocPage (ok_of_setPageTableEntry ok))
  · split at ok
    · exact ok_of_setPageTableEntry ok
    · exact ok

/-- A write fault changes no page, and the store that caused it may go on. -/
theorem copyOnWrite_spec (mapped : Mapped machine held dirs tables) (isDir : dir ∈ dirs)
    (bound : page < userPages) {word : Nat}
    (found : userEntry machine.memory dir page = some word)
    (ok : (copyOnWrite machine dir page).phys.Ok) :
    Mapped (copyOnWrite machine dir page) held dirs tables ∧
      (∀ other ∈ dirs, ∀ otherPage < userPages,
        pageWords (copyOnWrite machine dir page).memory other otherPage =
          pageWords machine.memory other otherPage) ∧
      userWritable (copyOnWrite machine dir page).memory dir page = true := by
  rcases present_of_userEntry found with ⟨present, isWord, wordPresent⟩
  have isSlot := slotOf_mem mapped.links isDir bound present
  have isFrame := getMappedAddress_eq mapped isDir bound present
  rw [isWord] at isFrame
  have managed := (mapped.counted.named _ isSlot (isWord ▸ wordPresent)).1
  rw [isWord] at managed
  have isCount := getRefcount_eq mapped.counted.valid managed
  have isNaming : slotOf machine.memory dir page ∈
      naming machine.memory (tableEntries tables) (pageAddr word) :=
    mem_naming.mpr ⟨isSlot, isWord ▸ wordPresent, congrArg pageAddr isWord⟩
  have positive : 1 ≤ machine.phys.refcount (pageAddr word) :=
    (Finset.card_pos.mpr ⟨_, isNaming⟩).trans_le (mapped.counted.counted _ managed)
  by_cases shared : 1 < machine.phys.refcount (pageAddr word)
  · rw [copyOnWrite_of_shared isFrame (by omega)] at ok ⊢
    refine copy_spec mapped isDir bound found rfl ?_ rfl
    exact ok_of_setPageTableEntry ok
  · rw [copyOnWrite_of_alone isFrame (by omega)]
    exact reclaim_spec mapped isDir bound found (by omega)

end Copy

end Dbos.Paging
