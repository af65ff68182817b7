import Mathlib.Data.Set.Basic
import Dbos.Kernel.Memory.Window

/-! # Page tables as maps

What `get_mapped_address` says about the pages of a directory after
`set_page_table_entry` and `unset_page_table_entry`. -/

namespace Dbos.Paging.Window

open Phys (alignPage)

/-- The directories of the machine. Each leads to tables of its own in its entries but the
last, which leads to the directory itself. The table with the entry of the window has one
place, also where it is shared. -/
structure WellFormed (memory : Memory) (cr3 kernelTable : Nat) (dirs : Set Nat) : Prop where
  current : cr3 ∈ dirs
  ready : Ready memory cr3 kernelTable
  notNull : 0 ∉ dirs ∧ kernelTable ≠ 0
  bound : ∀ dir ∈ dirs, dir < frameCount
  recursive : ∀ dir ∈ dirs, pageAddr (memory dir 1023) = dir
  distinct : ∀ dir ∈ dirs, ∀ index < 1023, ∀ other < 1023, pageAddr (memory dir index) ≠ 0 →
    pageAddr (memory dir index) = pageAddr (memory dir other) → index = other
  notDirectory : ∀ dir ∈ dirs, ∀ index < 1023, pageAddr (memory dir index) ≠ 0 →
    pageAddr (memory dir index) ∉ dirs
  kernelPlace : ∀ dir ∈ dirs, ∀ index < 1023, pageAddr (memory dir index) = kernelTable → index = 768

/-- The frame is not used for page structures. -/
structure Unused (memory : Memory) (dirs : Set Nat) (frame : Nat) : Prop where
  notZero : frame ≠ 0
  bound : frame < frameCount
  notDirectory : frame ∉ dirs
  notTable : ∀ dir ∈ dirs, ∀ index < 1023, pageAddr (memory dir index) ≠ frame

section WellFormed

variable {memory next : Memory} {cr3 kernelTable dir other page table : Nat} {dirs : Set Nat}

theorem WellFormed.kernelTable_notMem (wellFormed : WellFormed memory cr3 kernelTable dirs) :
    kernelTable ∉ dirs := by
  have isTable := wellFormed.ready.kernelEntry.2
  have notMember := wellFormed.notDirectory cr3 wellFormed.current 768 (by decide)
  rw [isTable] at notMember
  exact notMember wellFormed.notNull.2

theorem WellFormed.ne_kernelTable (wellFormed : WellFormed memory cr3 kernelTable dirs)
    (isDir : dir ∈ dirs) : dir ≠ kernelTable := fun same =>
  wellFormed.kernelTable_notMem (same ▸ isDir)

theorem mappedFrame_congr (notKernel : dir ≠ kernelTable) (agrees : Agrees kernelTable next memory)
    (page : Nat) : mappedFrame kernelTable next dir page = mappedFrame kernelTable memory dir page := by
  unfold mappedFrame
  rw [agrees dir (page / 1024) (.inl notKernel)]
  simp only
  split
  · rfl
  · split
    · rfl
    case isFalse notWindow =>
      rw [agrees _ _ (not_and_or.mp notWindow)]

theorem mappedFrame_of_same (sameEntry : next dir (page / 1024) = memory dir (page / 1024))
    (sameWord : pageAddr (memory dir (page / 1024)) ≠ 0 →
      next (pageAddr (memory dir (page / 1024))) (page % 1024) =
        memory (pageAddr (memory dir (page / 1024))) (page % 1024)) :
    mappedFrame kernelTable next dir page = mappedFrame kernelTable memory dir page := by
  unfold mappedFrame
  rw [sameEntry]
  simp only
  split
  · rfl
  case isFalse notZero =>
    rw [sameWord notZero]

theorem WellFormed.table_ne (wellFormed : WellFormed memory cr3 kernelTable dirs)
    (isDir : dir ∈ dirs) {index place : Nat} (bound : index < 1023) (placeBound : place < 1024)
    (notZero : pageAddr (memory dir index) ≠ 0) (different : place ≠ index) :
    pageAddr (memory dir place) ≠ pageAddr (memory dir index) := by
  intro same
  by_cases isLast : place = 1023
  · subst isLast
    rw [wellFormed.recursive dir isDir] at same
    exact wellFormed.notDirectory dir isDir index bound notZero (same ▸ isDir)
  · exact different (wellFormed.distinct dir isDir index bound place (by omega) notZero same.symm).symm

theorem WellFormed.mappedFrame_recursive (wellFormed : WellFormed memory cr3 kernelTable dirs)
    (isDir : dir ∈ dirs) (sameEntry : next dir 1023 = memory dir 1023)
    (isLast : page / 1024 = 1023) :
    mappedFrame kernelTable next dir page = pageAddr (next dir (page % 1024)) := by
  have notNull : dir ≠ 0 := fun same => wellFormed.notNull.1 (same ▸ isDir)
  unfold mappedFrame
  rw [isLast, sameEntry, wellFormed.recursive dir isDir]
  simp only
  rw [if_neg notNull, if_neg (fun both => wellFormed.ne_kernelTable isDir both.1)]

theorem WellFormed.notWindow (wellFormed : WellFormed memory cr3 kernelTable dirs)
    (isDir : dir ∈ dirs) (bound : page / 1024 < 1023) (notWindowPage : page ≠ windowPage) :
    ¬(pageAddr (memory dir (page / 1024)) = kernelTable ∧ page % 1024 = 0) := by
  rintro ⟨isKernel, isFirst⟩
  have isPlace := wellFormed.kernelPlace dir isDir _ bound isKernel
  apply notWindowPage
  unfold windowPage
  omega

theorem WellFormed.table_ne_current (wellFormed : WellFormed memory cr3 kernelTable dirs)
    (isDir : dir ∈ dirs) (bound : page / 1024 < 1023) :
    pageAddr (memory dir (page / 1024)) ≠ cr3 := by
  intro same
  have notNull : cr3 ≠ 0 := fun isNull => wellFormed.notNull.1 (isNull ▸ wellFormed.current)
  exact wellFormed.notDirectory dir isDir _ bound (same ▸ notNull) (same ▸ wellFormed.current)

/-! ## A table that exists -/

theorem mappedFrame_setWord (wellFormed : WellFormed memory cr3 kernelTable dirs)
    (isDir : dir ∈ dirs) (bound : page / 1024 < 1023) (notWindowPage : page ≠ windowPage)
    (notZero : pageAddr (memory dir (page / 1024)) ≠ 0) (word : Nat) {otherPage : Nat}
    (otherBound : otherPage < frameCount) :
    mappedFrame kernelTable (setWord memory (pageAddr (memory dir (page / 1024))) (page % 1024) word)
        dir otherPage =
      if otherPage = page then pageAddr word else mappedFrame kernelTable memory dir otherPage := by
  have notDir : dir ≠ pageAddr (memory dir (page / 1024)) := fun same =>
    wellFormed.notDirectory dir isDir _ bound notZero (same ▸ isDir)
  have sameEntry : ∀ index, setWord memory (pageAddr (memory dir (page / 1024))) (page % 1024) word
      dir index = memory dir index := fun index => setWord_of_ne _ _ (.inl notDir)
  split
  case isTrue same =>
    subst same
    unfold mappedFrame
    rw [sameEntry]
    simp only
    rw [if_neg notZero, if_neg (wellFormed.notWindow isDir bound notWindowPage), setWord_self]
  case isFalse different =>
    apply mappedFrame_of_same (sameEntry _)
    intro _
    apply setWord_of_ne
    by_cases sameTable : otherPage / 1024 = page / 1024
    · exact .inr (by omega)
    · refine .inl (wellFormed.table_ne isDir bound ?_ notZero sameTable)
      unfold frameCount at otherBound
      omega

/-- The other directories do not notice, unless they share the table. -/
theorem mappedFrame_setWord_other (wellFormed : WellFormed memory cr3 kernelTable dirs)
    (isOther : other ∈ dirs) (notDirectory : table ∉ dirs)
    (notShared : ∀ index < 1023, pageAddr (memory other index) ≠ table) (place word : Nat)
    (otherBound : page < frameCount) :
    mappedFrame kernelTable (setWord memory table place word) other page =
      mappedFrame kernelTable memory other page := by
  have notTable : other ≠ table := fun same => notDirectory (same ▸ isOther)
  apply mappedFrame_of_same (setWord_of_ne _ _ (.inl notTable))
  intro _
  refine setWord_of_ne _ _ (.inl ?_)
  by_cases isLast : page / 1024 = 1023
  · rw [isLast, wellFormed.recursive other isOther]
    exact notTable
  · apply notShared
    unfold frameCount at otherBound
    omega

/-! ## A table that is made -/

/-- The memory after a table has been made and one of its entries has been written. -/
def withNewTable (memory : Memory) (dir index userSupervisor table place word : Nat) : Memory :=
  setWord (clearFrame (setWord memory dir index (makeEntry 1 userSupervisor table)) table) table
    place word

theorem withNewTable_elsewhere (memory : Memory) {dir table frame : Nat}
    (index userSupervisor place word : Nat) (notDir : frame ≠ dir) (notTable : frame ≠ table) :
    withNewTable memory dir index userSupervisor table place word frame = memory frame := by
  unfold withNewTable
  rw [setWord_frame_of_ne _ _ _ notTable, clearFrame_of_ne _ notTable,
    setWord_frame_of_ne _ _ _ notDir]

theorem withNewTable_directory (memory : Memory) {dir table : Nat}
    (index userSupervisor place word entry : Nat) (different : dir ≠ table) :
    withNewTable memory dir index userSupervisor table place word dir entry =
      if entry = index then makeEntry 1 userSupervisor table else memory dir entry := by
  unfold withNewTable
  rw [setWord_frame_of_ne _ _ _ different, clearFrame_of_ne _ different]
  split
  case isTrue same =>
    rw [same, setWord_self]
  case isFalse other =>
    rw [setWord_of_ne _ _ (.inr other)]

theorem withNewTable_table (memory : Memory) (dir index userSupervisor table place word entry : Nat) :
    withNewTable memory dir index userSupervisor table place word table entry =
      if entry = place then word else 0 := by
  unfold withNewTable
  split
  case isTrue same =>
    rw [same, setWord_self]
  case isFalse other =>
    rw [setWord_of_ne _ _ (.inr other), clearFrame_self]

/-- The page of the recursive slot that shows the table for a page. -/
def tablePage (page : Nat) : Nat := 0xFFC00 + page / 1024

/-- The page gets its entry in the new table, which appears in the recursive slot. -/
theorem mappedFrame_withNewTable (wellFormed : WellFormed memory cr3 kernelTable dirs)
    (isDir : dir ∈ dirs) (bound : page / 1024 < 1023)
    (missing : pageAddr (memory dir (page / 1024)) = 0) (unused : Unused memory dirs table)
    (userSupervisor word : Nat) {otherPage : Nat} (otherBound : otherPage < frameCount) :
    mappedFrame kernelTable (withNewTable memory dir (page / 1024) userSupervisor table (page % 1024)
        word) dir otherPage =
      if otherPage = page then pageAddr word
      else if otherPage = tablePage page then table
      else mappedFrame kernelTable memory dir otherPage := by
  have notDir : dir ≠ table := fun same => unused.notDirectory (same ▸ isDir)
  have notKernel : table ≠ kernelTable := by
    have isTable := unused.notTable cr3 wellFormed.current 768 (by decide)
    rw [wellFormed.ready.kernelEntry.2] at isTable
    exact Ne.symm isTable
  have entries := fun entry => withNewTable_directory memory (page / 1024) userSupervisor
    (page % 1024) word entry notDir
  by_cases sameTable : otherPage / 1024 = page / 1024
  · -- The page is in the new table, which was empty.
    have notTablePage : otherPage ≠ tablePage page := by
      unfold tablePage
      omega
    have wasZero : mappedFrame kernelTable memory dir otherPage = 0 := by
      unfold mappedFrame
      rw [sameTable]
      exact if_pos missing
    rw [if_neg notTablePage, wasZero]
    unfold mappedFrame
    rw [entries, if_pos sameTable, pageAddr_makeEntry 1 userSupervisor unused.bound]
    simp only
    rw [if_neg unused.notZero, if_neg (fun both => notKernel both.1), withNewTable_table]
    by_cases same : otherPage = page
    · rw [if_pos same, if_pos (by rw [same])]
    · rw [if_neg same, if_neg (by omega)]
      rfl
  · have different : otherPage ≠ page := fun same => sameTable (by rw [same])
    have sameEntry : withNewTable memory dir (page / 1024) userSupervisor table (page % 1024) word dir
        (otherPage / 1024) = memory dir (otherPage / 1024) := by
      rw [entries, if_neg sameTable]
    rw [if_neg different]
    by_cases isLast : otherPage / 1024 = 1023
    · rw [wellFormed.mappedFrame_recursive isDir (by rw [← isLast, sameEntry]) isLast,
        wellFormed.mappedFrame_recursive isDir rfl isLast, entries]
      by_cases isShown : otherPage % 1024 = page / 1024
      · rw [if_pos isShown, if_pos (by unfold tablePage; omega),
          pageAddr_makeEntry 1 userSupervisor unused.bound]
      · rw [if_neg isShown, if_neg (by unfold tablePage; omega)]
    · have tableBound : otherPage / 1024 < 1023 := by
        unfold frameCount at otherBound
        omega
      rw [if_neg (by unfold tablePage; omega)]
      apply mappedFrame_of_same sameEntry
      intro notZero
      rw [withNewTable_elsewhere _ _ _ _ _ _ (unused.notTable dir isDir _ tableBound)]
      have notMember := wellFormed.notDirectory dir isDir _ tableBound notZero
      intro same
      rw [same] at notMember
      exact notMember isDir

theorem mappedFrame_withNewTable_other (wellFormed : WellFormed memory cr3 kernelTable dirs)
    (isDir : dir ∈ dirs) (isOther : other ∈ dirs) (different : other ≠ dir)
    (unused : Unused memory dirs table) (index userSupervisor place word : Nat)
    (otherBound : page < frameCount) :
    mappedFrame kernelTable (withNewTable memory dir index userSupervisor table place word) other
      page = mappedFrame kernelTable memory other page := by
  have notTable : other ≠ table := fun same => unused.notDirectory (same ▸ isOther)
  apply mappedFrame_of_same
  · rw [withNewTable_elsewhere _ _ _ _ _ different notTable]
  · intro notZero
    by_cases isLast : page / 1024 = 1023
    · rw [isLast, wellFormed.recursive other isOther,
        withNewTable_elsewhere _ _ _ _ _ different notTable]
    · have tableBound : page / 1024 < 1023 := by
        unfold frameCount at otherBound
        omega
      rw [withNewTable_elsewhere _ _ _ _ _ _ (unused.notTable other isOther _ tableBound)]
      have notMember := wellFormed.notDirectory other isOther _ tableBound notZero
      intro same
      rw [same] at notMember
      exact notMember isDir

end WellFormed

/-! ## The map -/

/-- The other directory shares the table that the directory has for the page. -/
def SharesTable (memory : Memory) (dir other page : Nat) : Prop :=
  pageAddr (memory dir (page / 1024)) ≠ 0 ∧
    ∃ index < 1023, pageAddr (memory other index) = pageAddr (memory dir (page / 1024))

/-- The page of `virtAddr` is mapped to the address, and `newTable`, if there is one, has
appeared in the recursive slot. All other pages are mapped as before. -/
structure Updates (cr3 : Nat) (before after : Memory) (dirs : Set Nat) (dir virtAddr address : Nat)
    (newTable : Option Nat) : Prop where
  here : ∀ addr < 2 ^ 32, addr / 4096 = virtAddr / 4096 →
    mappedAddress cr3 after (dir * 4096) addr = some address
  slot : ∀ table, newTable = some table → ∀ addr < 2 ^ 32,
    addr / 4096 = tablePage (virtAddr / 4096) →
    mappedAddress cr3 after (dir * 4096) addr = some (table * 4096)
  elsewhere : ∀ addr < 2 ^ 32, addr / 4096 ≠ virtAddr / 4096 →
    (newTable = none ∨ addr / 4096 ≠ tablePage (virtAddr / 4096)) →
    mappedAddress cr3 after (dir * 4096) addr = mappedAddress cr3 before (dir * 4096) addr
  others : ∀ other ∈ dirs, other ≠ dir → ¬SharesTable before dir other (virtAddr / 4096) →
    ∀ addr < 2 ^ 32,
      mappedAddress cr3 after (other * 4096) addr = mappedAddress cr3 before (other * 4096) addr
  defined : ∀ other ∈ dirs, ∀ addr < 2 ^ 32,
    (mappedAddress cr3 before (other * 4096) addr).isSome = true ∧
      (mappedAddress cr3 after (other * 4096) addr).isSome = true

section Update

variable {memory next direct : Memory} {cr3 kernelTable dir virtAddr : Nat} {dirs : Set Nat}

theorem updates_of_frames (wellFormed : WellFormed memory cr3 kernelTable dirs) (isDir : dir ∈ dirs)
    (ready : Ready next cr3 kernelTable) (agrees : Agrees kernelTable next direct)
    {frame : Nat} {newTable : Option Nat}
    (here : mappedFrame kernelTable direct dir (virtAddr / 4096) = frame)
    (slot : ∀ table, newTable = some table →
      mappedFrame kernelTable direct dir (tablePage (virtAddr / 4096)) = table)
    (elsewhere : ∀ page < frameCount, page ≠ virtAddr / 4096 →
      (newTable = none ∨ page ≠ tablePage (virtAddr / 4096)) →
      mappedFrame kernelTable direct dir page = mappedFrame kernelTable memory dir page)
    (others : ∀ other ∈ dirs, other ≠ dir → ¬SharesTable memory dir other (virtAddr / 4096) →
      ∀ page < frameCount,
        mappedFrame kernelTable direct other page = mappedFrame kernelTable memory other page) :
    Updates cr3 memory next dirs dir virtAddr (frame * 4096) newTable := by
  have after : ∀ other ∈ dirs, ∀ addr < 2 ^ 32, mappedAddress cr3 next (other * 4096) addr =
      some (mappedFrame kernelTable direct other (addr / 4096) * 4096) := by
    intro other isOther addr small
    have notKernel := wellFormed.ne_kernelTable isOther
    rw [mappedAddress_eq ready (wellFormed.bound other isOther) notKernel small,
      mappedFrame_congr notKernel agrees]
  have before : ∀ other ∈ dirs, ∀ addr < 2 ^ 32, mappedAddress cr3 memory (other * 4096) addr =
      some (mappedFrame kernelTable memory other (addr / 4096) * 4096) := by
    intro other isOther addr small
    exact mappedAddress_eq wellFormed.ready (wellFormed.bound other isOther)
      (wellFormed.ne_kernelTable isOther) small
  have pageBound : ∀ addr < 2 ^ 32, addr / 4096 < frameCount := by
    intro addr small
    unfold frameCount
    omega
  refine ⟨fun addr small isPage => ?_, fun table isTable addr small isPage => ?_,
    fun addr small notPage notSlot => ?_, fun other isOther different notShared addr small => ?_,
    fun other isOther addr small => ?_⟩
  · rw [after dir isDir addr small, isPage, here]
  · rw [after dir isDir addr small, isPage, slot table isTable]
  · rw [after dir isDir addr small, before dir isDir addr small,
      elsewhere _ (pageBound addr small) notPage notSlot]
  · rw [after other isOther addr small, before other isOther addr small,
      others other isOther different notShared _ (pageBound addr small)]
  · rw [after other isOther addr small, before other isOther addr small]
    exact ⟨rfl, rfl⟩

theorem updates_of_setWord (wellFormed : WellFormed memory cr3 kernelTable dirs)
    (isDir : dir ∈ dirs) (bound : virtAddr / 4096 / 1024 < 1023)
    (notWindowPage : virtAddr / 4096 ≠ windowPage) (small : virtAddr < 2 ^ 32)
    (notZero : pageAddr (memory dir (virtAddr / 4096 / 1024)) ≠ 0) {word : Nat}
    (ready : Ready next cr3 kernelTable)
    (agrees : Agrees kernelTable next (setWord memory
      (pageAddr (memory dir (virtAddr / 4096 / 1024))) (virtAddr / 4096 % 1024) word)) :
    Updates cr3 memory next dirs dir virtAddr (pageAddr word * 4096) none := by
  have frames : ∀ page < frameCount, mappedFrame kernelTable (setWord memory
      (pageAddr (memory dir (virtAddr / 4096 / 1024))) (virtAddr / 4096 % 1024) word) dir page =
      if page = virtAddr / 4096 then pageAddr word else mappedFrame kernelTable memory dir page :=
    fun page pageBound => mappedFrame_setWord wellFormed isDir bound notWindowPage notZero word
      pageBound
  have pageBound : virtAddr / 4096 < frameCount := by
    unfold frameCount
    omega
  refine updates_of_frames wellFormed isDir ready agrees ?_ (fun table isTable => ?_) ?_ ?_
  · rw [frames _ pageBound, if_pos rfl]
  · cases isTable
  · intro page less notPage _
    rw [frames page less, if_neg notPage]
  · intro other isOther _ notShared page less
    apply mappedFrame_setWord_other wellFormed isOther
    · exact wellFormed.notDirectory dir isDir _ bound notZero
    · intro index indexBound same
      exact notShared ⟨notZero, index, indexBound, same⟩
    · exact less

theorem unsetPageTableEntry_updates (wellFormed : WellFormed memory cr3 kernelTable dirs)
    (isDir : dir ∈ dirs) (bound : virtAddr / 4096 / 1024 < 1023)
    (notWindowPage : virtAddr / 4096 ≠ windowPage) (small : virtAddr < 2 ^ 32) :
    ∃ next, unsetPageTableEntry cr3 memory (dir * 4096) virtAddr = some next ∧
      Updates cr3 memory next dirs dir virtAddr 0 none := by
  rcases unsetPageTableEntry_refines wellFormed.ready (wellFormed.bound dir isDir)
    (wellFormed.ne_kernelTable isDir) small (wellFormed.table_ne_current isDir bound)
    (wellFormed.notWindow isDir bound notWindowPage) with ⟨next, isNext, agrees, ready⟩
  refine ⟨next, isNext, ?_⟩
  by_cases missing : pageAddr (memory dir (virtAddr / 4096 / 1024)) = 0
  · rw [if_pos missing] at agrees
    have notMapped : mappedFrame kernelTable memory dir (virtAddr / 4096) = 0 := by
      unfold mappedFrame
      exact if_pos missing
    have updates := updates_of_frames wellFormed isDir ready agrees notMapped
      (fun table (isTable : none = some table) => nomatch isTable) (fun _ _ _ _ => rfl)
      fun _ _ _ _ _ _ => rfl
    rwa [Nat.zero_mul] at updates
  · rw [if_neg missing] at agrees
    exact updates_of_setWord wellFormed isDir bound notWindowPage small missing ready agrees

/-- The table that `set_page_table_entry` makes. -/
def madeTable (machine : Machine) (dir virtAddr : Nat) : Option Nat :=
  if pageAddr (machine.memory dir (virtAddr / 4096 / 1024)) = 0 then some machine.phys.allocPage.1
  else none

theorem setPageTableEntry_updates {machine : Machine}
    (wellFormed : WellFormed machine.memory cr3 kernelTable dirs)
    (isDir : dir ∈ dirs) (bound : virtAddr / 4096 / 1024 < 1023)
    (notWindowPage : virtAddr / 4096 ≠ windowPage) (small : virtAddr < 2 ^ 32)
    (canAllocate : ∀ table, madeTable machine dir virtAddr = some table →
      Unused machine.memory dirs table)
    {physAddr : Nat} (physSmall : physAddr < 2 ^ 32) (userSupervisor : Nat) :
    ∃ next, setPageTableEntry cr3 machine (dir * 4096) virtAddr physAddr 1 userSupervisor =
        some next ∧
      Updates cr3 machine.memory next.memory dirs dir virtAddr (alignPage physAddr)
        (madeTable machine dir virtAddr) := by
  have isFrame : pageAddr (makeEntry 1 userSupervisor (physAddr / 4096)) * 4096 =
      alignPage physAddr := by
    rw [pageAddr_makeEntry 1 userSupervisor (show physAddr / 4096 < 2 ^ 20 by omega),
      Phys.alignPage_eq, Nat.mul_comm]
  have pageBound : virtAddr / 4096 < frameCount := by
    unfold frameCount
    omega
  have canCreate : pageAddr (machine.memory dir (virtAddr / 4096 / 1024)) = 0 →
      (dir ≠ cr3 ∨ virtAddr / 4096 / 1024 ≠ 768 ∧ virtAddr / 4096 / 1024 ≠ 1023) ∧
        NewTable machine cr3 kernelTable := by
    intro missing
    have unused := canAllocate machine.phys.allocPage.1 (if_pos missing)
    refine ⟨?_, unused.bound, ?_, ?_⟩
    · by_cases isCurrent : dir = cr3
      · refine .inr ⟨fun isKernel => ?_, by omega⟩
        rw [isCurrent, isKernel, wellFormed.ready.kernelEntry.2] at missing
        exact wellFormed.notNull.2 missing
      · exact .inl isCurrent
    · exact fun same => unused.notDirectory (same ▸ wellFormed.current)
    · have notTable := unused.notTable cr3 wellFormed.current 768 (by decide)
      rw [wellFormed.ready.kernelEntry.2] at notTable
      exact Ne.symm notTable
  rcases setPageTableEntry_refines wellFormed.ready (wellFormed.bound dir isDir)
    (wellFormed.ne_kernelTable isDir) small (wellFormed.table_ne_current isDir bound)
    (wellFormed.notWindow isDir bound notWindowPage) canCreate physAddr 1 userSupervisor with
    ⟨next, isNext, agrees, ready⟩
  refine ⟨next, isNext, ?_⟩
  rw [← isFrame]
  unfold Paging.setPageTableEntry at agrees
  by_cases missing : pageAddr (machine.memory dir (virtAddr / 4096 / 1024)) = 0
  · have isTable : madeTable machine dir virtAddr = some machine.phys.allocPage.1 := if_pos missing
    have unused := canAllocate _ isTable
    simp only [missing, if_true] at agrees
    have frames := fun page (less : page < frameCount) => mappedFrame_withNewTable wellFormed isDir
      bound missing unused userSupervisor (makeEntry 1 userSupervisor (physAddr / 4096)) less
    rw [isTable]
    refine updates_of_frames wellFormed isDir ready agrees ?_ ?_ ?_ ?_
    · exact (frames _ pageBound).trans (if_pos rfl)
    · intro table same
      cases same
      have slotBound : tablePage (virtAddr / 4096) < frameCount := by
        unfold tablePage frameCount
        omega
      have differs : tablePage (virtAddr / 4096) ≠ virtAddr / 4096 := by
        unfold tablePage
        omega
      exact (frames _ slotBound).trans ((if_neg differs).trans (if_pos rfl))
    · intro page less notPage notSlot
      have isOther : page ≠ tablePage (virtAddr / 4096) := by
        rcases notSlot with none | notSlot
        · cases none
        · exact notSlot
      exact (frames page less).trans ((if_neg notPage).trans (if_neg isOther))
    · intro other isOther different _ page less
      exact mappedFrame_withNewTable_other wellFormed isDir isOther different unused _ _ _ _ less
  · have noTable : madeTable machine dir virtAddr = none := if_neg missing
    simp only [missing, if_false] at agrees
    rw [noTable]
    exact updates_of_setWord wellFormed isDir bound notWindowPage small missing ready agrees

/-- `set_page_table_entry` and `unset_page_table_entry` change the map of the directory at
one page. A table that has to be made for it appears in the recursive slot. -/
theorem pageTables_map {machine : Machine}
    (wellFormed : WellFormed machine.memory cr3 kernelTable dirs) (isDir : dir ∈ dirs)
    (outsideSlot : virtAddr < 0xFFC00000) (outsideWindow : virtAddr / 4096 ≠ windowPage)
    (canAllocate : ∀ table, madeTable machine dir virtAddr = some table →
      Unused machine.memory dirs table)
    {physAddr : Nat} (physSmall : physAddr < 2 ^ 32) (userSupervisor : Nat) :
    (∃ next, setPageTableEntry cr3 machine (dir * 4096) virtAddr physAddr 1 userSupervisor =
        some next ∧
      Updates cr3 machine.memory next.memory dirs dir virtAddr (alignPage physAddr)
        (madeTable machine dir virtAddr)) ∧
      ∃ next, unsetPageTableEntry cr3 machine.memory (dir * 4096) virtAddr = some next ∧
        Updates cr3 machine.memory next dirs dir virtAddr 0 none := by
  have small : virtAddr < 2 ^ 32 := by omega
  have bound : virtAddr / 4096 / 1024 < 1023 := by omega
  exact ⟨setPageTableEntry_updates wellFormed isDir bound outsideWindow small canAllocate physSmall
      userSupervisor,
    unsetPageTableEntry_updates wellFormed isDir bound outsideWindow small⟩

end Update

/-! ## A machine with one directory -/

/-- The directory is in frame 1, and the table with the entry of the window in frame 2. -/
def oneDirectory : Machine :=
  { memory := fun frame place =>
      if frame = 1 ∧ place = 768 then makeEntry 1 0 2
      else if frame = 1 ∧ place = 1023 then makeEntry 1 0 1
      else if frame = 2 ∧ place = 0 then makeEntry 1 0 0
      else 0
    phys :=
      { totalUsableLower := 0x28000
        totalUsableUpper := 0
        allocations := fun index => if index < 3 then 1 else 0
        freeList := []
        failed := false
        wrapped := false } }

theorem oneDirectory_entry {index : Nat} (bound : index < 1023) (different : index ≠ 768) :
    oneDirectory.memory 1 index = 0 := by
  unfold oneDirectory
  simp only
  rw [if_neg (fun both => different both.2), if_neg (by omega), if_neg (by omega)]

theorem oneDirectory_table {index : Nat} (bound : index < 1023)
    (notZero : pageAddr (oneDirectory.memory 1 index) ≠ 0) : index = 768 := by
  by_contra different
  rw [oneDirectory_entry bound different] at notZero
  exact notZero rfl

theorem wellFormed_oneDirectory : WellFormed oneDirectory.memory 1 2 {1} := by
  have only : ∀ dir ∈ ({1} : Set Nat), dir = 1 := fun dir member => member
  refine ⟨rfl, ⟨by decide, by decide, by decide⟩, ⟨by decide, by decide⟩, ?_, ?_, ?_, ?_, ?_⟩
  · intro dir member
    rw [only dir member]
    decide
  · intro dir member
    rw [only dir member]
    decide
  · intro dir member index bound other otherBound notZero same
    rw [only dir member] at notZero same
    have isKernel := oneDirectory_table bound notZero
    rw [same] at notZero
    rw [isKernel, oneDirectory_table otherBound notZero]
  · intro dir member index bound notZero isMember
    rw [only dir member] at notZero isMember
    rw [oneDirectory_table bound notZero] at isMember
    exact absurd (only _ isMember) (by decide)
  · intro dir member index bound isKernel
    rw [only dir member] at isKernel
    apply oneDirectory_table bound
    rw [isKernel]
    decide

theorem unused_oneDirectory : Unused oneDirectory.memory {1} 3 := by
  refine ⟨by decide, by decide, by decide, fun dir member index bound => ?_⟩
  rw [show dir = 1 from member]
  by_cases isKernel : index = 768
  · subst isKernel
    decide
  · rw [oneDirectory_entry bound isKernel]
    decide

/-- The page at `0x10000000` is mapped, and unmapped. -/
theorem pageTables_map_oneDirectory :
    (∃ next, setPageTableEntry 1 oneDirectory (1 * 4096) 0x10000000 0x5000 1 1 = some next ∧
      Updates 1 oneDirectory.memory next.memory {1} 1 0x10000000 0x5000
        (madeTable oneDirectory 1 0x10000000)) ∧
      ∃ next, unsetPageTableEntry 1 oneDirectory.memory (1 * 4096) 0x10000000 = some next ∧
        Updates 1 oneDirectory.memory next {1} 1 0x10000000 0 none :=
  pageTables_map wellFormed_oneDirectory rfl (by decide) (by decide)
    (fun table isTable => by
      have isThird : table = 3 := by
        rw [show madeTable oneDirectory 1 0x10000000 = some 3 by decide, Option.some.injEq] at isTable
        exact isTable.symm
      rw [isThird]
      exact unused_oneDirectory)
    (by decide) 1

/-- Mapping that page makes a table, and with it the address `0xFFC40000` in the recursive
slot is mapped, which was not mapped before. -/
theorem pageTables_recursiveSlot :
    WellFormed oneDirectory.memory 1 2 {1} ∧
      madeTable oneDirectory 1 0x10000000 = some 3 ∧ Unused oneDirectory.memory {1} 3 ∧
      mappedAddress 1 oneDirectory.memory (1 * 4096) 0xFFC40000 = some 0 ∧
      ∃ next, setPageTableEntry 1 oneDirectory (1 * 4096) 0x10000000 0x5000 1 1 = some next ∧
        mappedAddress 1 next.memory (1 * 4096) 0xFFC40000 = some 0x3000 := by
  have evaluated : ((setPageTableEntry 1 oneDirectory (1 * 4096) 0x10000000 0x5000 1 1).any
      fun next => mappedAddress 1 next.memory (1 * 4096) 0xFFC40000 = some 0x3000) = true := by
    decide +kernel
  rcases (Option.any_eq_true _ _).mp evaluated with ⟨next, isNext, isMapped⟩
  exact ⟨wellFormed_oneDirectory, by decide, unused_oneDirectory, by decide +kernel, next, isNext,
    of_decide_eq_true isMapped⟩

end Dbos.Paging.Window
