import Dbos.Kernel.Memory.PageMap
import Dbos.Kernel.Memory.KernelAccess

/-! # The frames of the kernel half

What each frame is used for while the heap of the kernel grows page by page, and what one more
page changes. -/

namespace Dbos.Paging.KernelPages

open Window

/-- The first page of the heap. -/
def heapPage : Nat := 0xD0000

/-- The page of `VIRT_PAGE_TAB_ADDR`, where the heap has to end. -/
def tablesPage : Nat := 0xFFC00

def Occupied (phys : Phys) (frame : Nat) : Prop := phys.Managed frame → phys.refcount frame ≠ 0

inductive Use where
  | directory
  | table (index : Nat)
  | page (page : Nat)
  | kept (frame : Nat)

/-- What the frame is used for, where the heap ends at the page `last` and `kept` are the frames
that nobody is to touch. -/
def UsedAs (kept : Set Nat) (memory : Memory) (cr3 last frame : Nat) : Use → Prop
  | .directory => frame = cr3
  | .table index => 768 ≤ index ∧ index < 1023 ∧ frame ≠ 0 ∧ pageAddr (memory cr3 index) = frame
  | .page page => heapPage ≤ page ∧ page < last ∧ walk memory cr3 page = some frame
  | .kept other => other ∈ kept ∧ frame = other

/-- Every frame in use has one use, and is not handed out. -/
structure Layout (kept : Set Nat) (cr3 kernelTable : Nat) (machine : Machine) (last : Nat) : Prop where
  ready : Ready machine.memory cr3 kernelTable
  valid : machine.phys.Valid
  notNull : cr3 ≠ 0
  bound : cr3 < frameCount
  lower : heapPage ≤ last
  upper : last ≤ tablesPage
  present : ∀ index, 768 ≤ index → index < 1023 →
    (presentBit (machine.memory cr3 index) = true ↔ pageAddr (machine.memory cr3 index) ≠ 0)
  pages : ∀ page, heapPage ≤ page → page < last →
    ∃ frame, walk machine.memory cr3 page = some frame
  alone : ∀ frame use other, UsedAs kept machine.memory cr3 last frame use →
    UsedAs kept machine.memory cr3 last frame other → use = other
  occupied : ∀ frame use, UsedAs kept machine.memory cr3 last frame use →
    Occupied machine.phys frame

section Occupied

variable {phys : Phys} {frame : Nat}

theorem occupied_allocPage (valid : phys.Valid) (ok : phys.allocPage.2.Ok) :
    ¬Occupied phys phys.allocPage.1 ∧ phys.allocPage.2.Valid ∧ phys.allocPage.1 ≠ 0 ∧
      phys.allocPage.1 < frameCount ∧ Occupied phys.allocPage.2 phys.allocPage.1 ∧
      ∀ frame, Occupied phys frame → Occupied phys.allocPage.2 frame := by
  rcases Phys.allocPage_spec valid ok with ⟨managed, free, notNull, sets⟩
  refine ⟨fun occupied => occupied managed free, sets.same.valid valid, notNull, managed.lt valid,
    fun _ => ?_, fun frame occupied isManaged => ?_⟩
  · rw [sets.refcount _ managed, if_pos rfl]
    decide
  · have wasManaged := (sets.same.managed_iff frame).mp isManaged
    rw [sets.refcount _ wasManaged]
    split
    · decide
    · exact occupied wasManaged

end Occupied

section Layout

variable {kept : Set Nat} {machine : Machine} {cr3 kernelTable last : Nat}

theorem usedAs_directory {memory : Memory} : UsedAs kept memory cr3 last cr3 .directory := rfl

theorem Layout.isKernelTable (layout : Layout kept cr3 kernelTable machine last) :
    UsedAs kept machine.memory cr3 last kernelTable (.table 768) := by
  have present := layout.ready.kernelEntry.1
  have notNull := (layout.present 768 (by decide) (by decide)).mp present
  rw [layout.ready.kernelEntry.2] at notNull
  exact ⟨by decide, by decide, notNull, layout.ready.kernelEntry.2⟩

theorem Layout.ne_of_use (layout : Layout kept cr3 kernelTable machine last) {frame other : Nat}
    {use otherUse : Use} (isUse : UsedAs kept machine.memory cr3 last frame use)
    (isOther : UsedAs kept machine.memory cr3 last other otherUse) (different : use ≠ otherUse) :
    frame ≠ other := fun same => different (layout.alone frame use otherUse isUse (same ▸ isOther))

theorem Layout.table (layout : Layout kept cr3 kernelTable machine last) {index : Nat}
    (low : 768 ≤ index) (high : index < 1023)
    (present : presentBit (machine.memory cr3 index) = true) :
    UsedAs kept machine.memory cr3 last (pageAddr (machine.memory cr3 index)) (.table index) :=
  ⟨low, high, (layout.present index low high).mp present, rfl⟩

theorem Layout.ne_kernelTable (layout : Layout kept cr3 kernelTable machine last) :
    cr3 ≠ kernelTable :=
  layout.ne_of_use usedAs_directory layout.isKernelTable (by simp)

theorem Layout.table_ne (layout : Layout kept cr3 kernelTable machine last)
    (room : last < tablesPage) :
    pageAddr (machine.memory cr3 (last / 1024)) ≠ cr3 ∧
      pageAddr (machine.memory cr3 (last / 1024)) ≠ kernelTable := by
  have lower := layout.lower
  unfold heapPage tablesPage at *
  have isTable : pageAddr (machine.memory cr3 (last / 1024)) ≠ 0 → UsedAs kept machine.memory cr3
      last (pageAddr (machine.memory cr3 (last / 1024))) (.table (last / 1024)) := fun notNull =>
    ⟨by omega, by omega, notNull, rfl⟩
  constructor
  · intro same
    have use := isTable fun isNull => layout.notNull (same.symm.trans isNull)
    exact layout.ne_of_use use usedAs_directory (by simp) same
  · intro same
    have use := isTable fun isNull => layout.isKernelTable.2.2.1 (same.symm.trans isNull)
    refine layout.ne_of_use use layout.isKernelTable ?_ same
    rw [ne_eq, Use.table.injEq]
    omega

theorem Layout.fresh (layout : Layout kept cr3 kernelTable machine last) {phys : Phys}
    (valid : phys.Valid) (occupied : ∀ other, Occupied machine.phys other → Occupied phys other)
    (ok : phys.allocPage.2.Ok) {other : Nat} {use : Use}
    (isUse : UsedAs kept machine.memory cr3 last other use) : phys.allocPage.1 ≠ other := fun same =>
  (occupied_allocPage valid ok).1 (same ▸ occupied other (layout.occupied other use isUse))

end Layout

/-! ## One more page -/

/-- The page has got an entry, and perhaps a table for it. -/
structure NewEntry (memory next : Memory) (cr3 kernelTable page frame table : Nat) : Prop where
  ready : Ready next cr3 kernelTable
  entries : ∀ index, index ≠ page / 1024 → next cr3 index = memory cr3 index
  present : presentBit (next cr3 (page / 1024)) = true
  isTable : pageAddr (next cr3 (page / 1024)) = table
  word : next table (page % 1024) = makeEntry 1 0 frame
  others : ∀ place, place ≠ page % 1024 → next table place =
    if pageAddr (memory cr3 (page / 1024)) = 0 then 0 else memory table place
  window : ∀ place, place ≠ 0 → next kernelTable place = memory kernelTable place
  shown : walk next cr3 windowPage = some table
  elsewhere : ∀ other, other ≠ cr3 → other ≠ table → other ≠ kernelTable → next other = memory other

/-- Whatever the page tables are, no frame has been asked for in vain before. -/
theorem ok_of_setPageTableEntry {machine next : Machine} {cr3 dir virtAddr physAddr present
    userSupervisor : Nat}
    (isNext : Window.setPageTableEntry cr3 machine dir virtAddr physAddr present userSupervisor =
      some next) (ok : next.phys.Ok) : machine.phys.Ok := by
  unfold Window.setPageTableEntry createPageTable at isNext
  simp only [Option.bind_eq_bind, Option.bind_some] at isNext
  rcases Option.bind_eq_some_iff.mp isNext with ⟨shown, -, isNext⟩
  rcases Option.bind_eq_some_iff.mp isNext with ⟨entry, -, isNext⟩
  by_cases missing : pageAddr entry * 4096 = 0
  · rw [if_pos missing] at isNext
    rcases Option.bind_eq_some_iff.mp isNext with ⟨⟨pageTab, made⟩, isMade, isNext⟩
    rcases Option.bind_eq_some_iff.mp isMade with ⟨entered, -, isMade⟩
    rcases Option.bind_eq_some_iff.mp isMade with ⟨mapped, -, isMade⟩
    rcases Option.bind_eq_some_iff.mp isMade with ⟨cleared, -, isMade⟩
    rcases Option.bind_eq_some_iff.mp isNext with ⟨mappedTable, -, isNext⟩
    rcases Option.bind_eq_some_iff.mp isNext with ⟨stored, -, isNext⟩
    cases isMade
    cases isNext
    exact Phys.ok_of_allocPage ok
  · rw [if_neg missing] at isNext
    rcases Option.bind_eq_some_iff.mp isNext with ⟨mappedTable, -, isNext⟩
    rcases Option.bind_eq_some_iff.mp isNext with ⟨stored, -, isNext⟩
    cases isNext
    exact ok

theorem setPageTableEntry_phys {machine next : Machine} {cr3 kernelTable dir virtAddr physAddr
    present userSupervisor : Nat} (ready : Ready machine.memory cr3 kernelTable)
    (bound : dir < frameCount) (notKernel : dir ≠ kernelTable) (small : virtAddr < 2 ^ 32)
    (isNext : Window.setPageTableEntry cr3 machine (dir * 4096) virtAddr physAddr present userSupervisor =
      some next) :
    next.phys = if pageAddr (machine.memory dir (virtAddr / 4096 / 1024)) = 0
      then machine.phys.allocPage.2 else machine.phys := by
  unfold Window.setPageTableEntry createPageTable at isNext
  simp only [getPageDirectoryIndex_alignPage small, tempMapPage_eq ready, Option.bind_eq_bind,
    Option.bind_some, loadWord_showing ready bound, showing_of_ne _ _ (.inl notKernel),
    pageAddr_mul_eq_zero] at isNext
  by_cases missing : pageAddr (machine.memory dir (virtAddr / 4096 / 1024)) = 0
  · rw [if_pos missing] at isNext ⊢
    rcases Option.bind_eq_some_iff.mp isNext with ⟨⟨pageTab, made⟩, isMade, isNext⟩
    rcases Option.bind_eq_some_iff.mp isMade with ⟨entered, -, isMade⟩
    rcases Option.bind_eq_some_iff.mp isMade with ⟨shown, -, isMade⟩
    rcases Option.bind_eq_some_iff.mp isMade with ⟨cleared, -, isMade⟩
    rcases Option.bind_eq_some_iff.mp isNext with ⟨mapped, -, isNext⟩
    rcases Option.bind_eq_some_iff.mp isNext with ⟨stored, -, isNext⟩
    cases isMade
    cases isNext
    rfl
  · rw [if_neg missing] at isNext ⊢
    rcases Option.bind_eq_some_iff.mp isNext with ⟨mapped, -, isNext⟩
    rcases Option.bind_eq_some_iff.mp isNext with ⟨stored, -, isNext⟩
    cases isNext
    rfl

theorem walk_setWord_showing {memory : Memory} {cr3 kernelTable table index : Nat}
    (ready : Ready memory cr3 kernelTable) (bound : table < frameCount) (notDirectory : table ≠ cr3)
    (notWindow : ¬(table = kernelTable ∧ index = 0)) (word : Nat) :
    walk (setWord (showing kernelTable memory table) table index word) cr3 windowPage =
      some table := by
  have isReady := (ready.showing table).setWord word (.inl notDirectory) notWindow
  have entry : setWord (showing kernelTable memory table) table index word kernelTable 0 =
      showing kernelTable memory table kernelTable 0 := by
    apply setWord_of_ne
    by_contra same
    rw [not_or, not_not, not_not] at same
    exact notWindow ⟨same.1.symm, same.2.symm⟩
  rw [walk_windowPage isReady, entry, ← walk_windowPage (ready.showing table), walk_showing ready bound]

/-- `set_page_table_entry` leaves the table in the window. -/
theorem setPageTableEntry_shows {machine next : Machine} {cr3 kernelTable dir virtAddr : Nat}
    (ready : Ready machine.memory cr3 kernelTable)
    (bound : dir < frameCount) (notKernel : dir ≠ kernelTable) (small : virtAddr < 2 ^ 32)
    (notDirectory : pageAddr (machine.memory dir (virtAddr / 4096 / 1024)) ≠ cr3)
    (notWindow : ¬(pageAddr (machine.memory dir (virtAddr / 4096 / 1024)) = kernelTable ∧
      virtAddr / 4096 % 1024 = 0))
    (canCreate : pageAddr (machine.memory dir (virtAddr / 4096 / 1024)) = 0 →
      (dir ≠ cr3 ∨ virtAddr / 4096 / 1024 ≠ 768 ∧ virtAddr / 4096 / 1024 ≠ 1023) ∧
        NewTable machine cr3 kernelTable) {physAddr present userSupervisor : Nat}
    (isNext : Window.setPageTableEntry cr3 machine (dir * 4096) virtAddr physAddr present
      userSupervisor = some next) :
    walk next.memory cr3 windowPage =
      some (if pageAddr (machine.memory dir (virtAddr / 4096 / 1024)) = 0
        then machine.phys.allocPage.1 else pageAddr (machine.memory dir (virtAddr / 4096 / 1024))) := by
  unfold Window.setPageTableEntry at isNext
  simp only [getPageDirectoryIndex_alignPage small, getPageTableIndex_alignPage,
    tempMapPage_eq ready, Option.bind_eq_bind, Option.bind_some, loadWord_showing ready bound,
    showing_of_ne _ _ (.inl notKernel), pageAddr_mul_eq_zero] at isNext
  by_cases missing : pageAddr (machine.memory dir (virtAddr / 4096 / 1024)) = 0
  · rcases canCreate missing with ⟨otherEntry, new⟩
    rcases createPageTable_refines ready bound notKernel otherEntry new.bound new.notDirectory
      new.notKernel userSupervisor with ⟨memory, created, -, createdReady⟩
    simp only [missing, if_true, created, Option.bind_some, tempMapPage_eq createdReady,
      storeWord_showing createdReady new.bound] at isNext
    cases isNext
    rw [if_pos missing]
    exact walk_setWord_showing createdReady new.bound new.notDirectory
      (fun both => new.notKernel both.1) _
  · simp only [missing, if_false, Option.bind_some, tempMapPage_eq (ready.showing dir),
      storeWord_showing (ready.showing dir) (pageAddr_lt _)] at isNext
    cases isNext
    rw [if_neg missing]
    exact walk_setWord_showing (ready.showing dir) (pageAddr_lt _) notDirectory notWindow _

section NewEntry

variable {kept : Set Nat} {machine next : Machine} {cr3 kernelTable last : Nat}

theorem Layout.sets_phys (layout : Layout kept cr3 kernelTable machine last)
    (room : last < tablesPage) {phys : Phys} {frame : Nat}
    (isNext : Window.setPageTableEntry cr3 ⟨machine.memory, phys⟩ (cr3 * 4096) (last * 4096)
      (frame * 4096) 1 0 = some next) :
    next.phys = if pageAddr (machine.memory cr3 (last / 1024)) = 0 then phys.allocPage.2 else phys := by
  unfold tablesPage at room
  have isPage : last * 4096 / 4096 = last := Nat.mul_div_cancel _ (by decide)
  have ready : Ready (Machine.mk machine.memory phys).memory cr3 kernelTable := layout.ready
  have isPhys := setPageTableEntry_phys ready layout.bound layout.ne_kernelTable
    (show last * 4096 < 2 ^ 32 by omega) isNext
  rw [isPage] at isPhys
  exact isPhys

/-- `set_page_table_entry` for the page behind the heap returns if there is a frame for a table. -/
theorem Layout.sets (layout : Layout kept cr3 kernelTable machine last)
    (room : last < tablesPage) {phys : Phys} (valid : phys.Valid)
    (occupied : ∀ other, Occupied machine.phys other → Occupied phys other)
    (allocated : pageAddr (machine.memory cr3 (last / 1024)) = 0 → phys.allocPage.2.Ok)
    (frame : Nat) :
    ∃ next, Window.setPageTableEntry cr3 ⟨machine.memory, phys⟩ (cr3 * 4096) (last * 4096)
        (frame * 4096) 1 0 = some next ∧
      Agrees kernelTable next.memory
        (Paging.setPageTableEntry ⟨machine.memory, phys⟩ cr3 last frame 1 0).memory ∧
      Ready next.memory cr3 kernelTable ∧
      walk next.memory cr3 windowPage =
        some (if pageAddr (machine.memory cr3 (last / 1024)) = 0 then phys.allocPage.1
          else pageAddr (machine.memory cr3 (last / 1024))) := by
  have lower := layout.lower
  have notTable := layout.table_ne room
  unfold heapPage tablesPage at *
  have isPage : last * 4096 / 4096 = last := Nat.mul_div_cancel _ (by decide)
  have isFrame : frame * 4096 / 4096 = frame := Nat.mul_div_cancel _ (by decide)
  have ready : Ready (Machine.mk machine.memory phys).memory cr3 kernelTable := layout.ready
  have small : last * 4096 < 2 ^ 32 := by omega
  have notDirectory : pageAddr (machine.memory cr3 (last * 4096 / 4096 / 1024)) ≠ cr3 := by
    rw [isPage]
    exact notTable.1
  have notWindow : ¬(pageAddr (machine.memory cr3 (last * 4096 / 4096 / 1024)) = kernelTable ∧
      last * 4096 / 4096 % 1024 = 0) := by
    rw [isPage]
    exact fun both => notTable.2 both.1
  have canCreate : pageAddr (machine.memory cr3 (last * 4096 / 4096 / 1024)) = 0 →
      (cr3 ≠ cr3 ∨ last * 4096 / 4096 / 1024 ≠ 768 ∧ last * 4096 / 4096 / 1024 ≠ 1023) ∧
        NewTable ⟨machine.memory, phys⟩ cr3 kernelTable := by
    rw [isPage]
    intro missing
    have ok := allocated missing
    rcases occupied_allocPage valid ok with ⟨-, -, -, less, -⟩
    exact ⟨.inr ⟨by omega, by omega⟩, less, layout.fresh valid occupied ok usedAs_directory,
      layout.fresh valid occupied ok layout.isKernelTable⟩
  rcases setPageTableEntry_refines ready layout.bound layout.ne_kernelTable small notDirectory
    notWindow canCreate (frame * 4096) 1 0 with ⟨next, isNext, agrees, isReady⟩
  have shown := setPageTableEntry_shows ready layout.bound layout.ne_kernelTable small notDirectory
    notWindow canCreate isNext
  rw [isPage, isFrame] at agrees
  rw [isPage] at shown
  exact ⟨next, isNext, agrees, isReady, shown⟩

/-- `set_page_table_entry` for the page behind the heap, which is mapped to a frame that has
just been handed out. -/
theorem Layout.newEntry (layout : Layout kept cr3 kernelTable machine last)
    (room : last < tablesPage) {phys : Phys} (valid : phys.Valid) {frame : Nat}
    (occupied : ∀ other, Occupied machine.phys other → Occupied phys other)
    (isNext : Window.setPageTableEntry cr3 ⟨machine.memory, phys⟩ (cr3 * 4096) (last * 4096) (frame * 4096)
      1 0 = some next) (ok : next.phys.Ok) :
    ∃ table, NewEntry machine.memory next.memory cr3 kernelTable last frame table ∧
      if pageAddr (machine.memory cr3 (last / 1024)) = 0 then
        table = phys.allocPage.1 ∧ next.phys = phys.allocPage.2 ∧ phys.allocPage.2.Ok
      else table = pageAddr (machine.memory cr3 (last / 1024)) ∧ next.phys = phys := by
  have isPhys := layout.sets_phys room isNext
  have allocated : pageAddr (machine.memory cr3 (last / 1024)) = 0 → phys.allocPage.2.Ok := by
    intro missing
    rw [if_pos missing] at isPhys
    exact isPhys ▸ ok
  have notDirectory := (layout.table_ne room).1
  have notKernelTable := (layout.table_ne room).2
  have notKernel := layout.ne_kernelTable
  rcases layout.sets room valid occupied allocated frame with ⟨other, isOther, agrees, ready, shown⟩
  rw [isNext, Option.some_inj] at isOther
  subst isOther
  unfold Paging.setPageTableEntry at agrees
  by_cases missing : pageAddr (machine.memory cr3 (last / 1024)) = 0
  · have tableOk := allocated missing
    rcases occupied_allocPage valid tableOk with ⟨-, -, -, less, -⟩
    rw [if_pos missing] at isPhys
    simp only [missing, if_true] at agrees shown
    refine ⟨phys.allocPage.1, ?_, by rw [if_pos missing]; exact ⟨rfl, isPhys, tableOk⟩⟩
    have notDir : cr3 ≠ phys.allocPage.1 := (layout.fresh valid occupied tableOk usedAs_directory).symm
    have notWindow : kernelTable ≠ phys.allocPage.1 :=
      (layout.fresh valid occupied tableOk layout.isKernelTable).symm
    have words : ∀ index, next.memory cr3 index =
        if index = last / 1024 then makeEntry 1 0 phys.allocPage.1 else machine.memory cr3 index := by
      intro index
      rw [agrees cr3 index (.inl notKernel)]
      exact withNewTable_directory machine.memory (last / 1024) 0 (last % 1024)
        (makeEntry 1 0 frame) index notDir
    have places : ∀ place, next.memory phys.allocPage.1 place =
        if place = last % 1024 then makeEntry 1 0 frame else 0 := by
      intro place
      rw [agrees _ place (.inl notWindow.symm)]
      exact withNewTable_table machine.memory cr3 (last / 1024) 0 phys.allocPage.1 (last % 1024)
        (makeEntry 1 0 frame) place
    have elsewhere : ∀ other place, other ≠ cr3 → other ≠ phys.allocPage.1 →
        other ≠ kernelTable ∨ place ≠ 0 → next.memory other place = machine.memory other place := by
      intro other place otherDir otherTable different
      rw [agrees other place different]
      exact congrFun (withNewTable_elsewhere machine.memory (last / 1024) 0 (last % 1024)
        (makeEntry 1 0 frame) otherDir otherTable) place
    refine ⟨ready, fun index different => ?_, ?_, ?_, ?_, fun place different => ?_,
      fun place notFirst => elsewhere kernelTable place notKernel.symm notWindow (.inr notFirst),
      shown,
      fun other otherDir otherTable otherKernel => funext fun place =>
        elsewhere other place otherDir otherTable (.inl otherKernel)⟩
    · rw [words, if_neg different]
    · rw [words, if_pos rfl, presentBit_makeEntry]
    · rw [words, if_pos rfl, pageAddr_makeEntry 1 0 less]
    · rw [places, if_pos rfl]
    · rw [places, if_neg different, if_pos missing]
  · rw [if_neg missing] at isPhys
    simp only [missing, if_false] at agrees shown
    refine ⟨_, ?_, by rw [if_neg missing]; exact ⟨rfl, isPhys⟩⟩
    have elsewhere : ∀ other place, other ≠ pageAddr (machine.memory cr3 (last / 1024)) ∨
        place ≠ last % 1024 → other ≠ kernelTable ∨ place ≠ 0 →
        next.memory other place = machine.memory other place := by
      intro other place different notWindow
      rw [agrees other place notWindow, setWord_of_ne _ _ different]
    refine ⟨ready, fun index _ => ?_, ?_, ?_, ?_, fun place different => ?_,
      fun place notFirst => elsewhere kernelTable place (.inl notKernelTable.symm) (.inr notFirst),
      shown,
      fun other _ otherTable otherKernel => funext fun place =>
        elsewhere other place (.inl otherTable) (.inl otherKernel)⟩
    · exact elsewhere cr3 index (.inl notDirectory.symm) (.inl notKernel)
    · rw [elsewhere cr3 _ (.inl notDirectory.symm) (.inl notKernel)]
      have lower := layout.lower
      unfold heapPage tablesPage at *
      exact (layout.present _ (by omega) (by omega)).mpr missing
    · rw [elsewhere cr3 _ (.inl notDirectory.symm) (.inl notKernel)]
    · rw [agrees _ _ (.inl notKernelTable), setWord_self]
    · rw [if_neg missing, elsewhere _ place (.inr different) (.inl notKernelTable)]

/-- The table and the frame of the new page have no other use. -/
structure NewFrames (kept : Set Nat) (machine next : Machine) (cr3 last frame table : Nat) : Prop where
  valid : next.phys.Valid
  notNull : table ≠ 0
  bound : frame < frameCount
  free : ¬Occupied machine.phys frame
  different : frame ≠ table
  others : ∀ other use, UsedAs kept machine.memory cr3 last other use → use ≠ .table (last / 1024) →
    other ≠ table
  existing : pageAddr (machine.memory cr3 (last / 1024)) ≠ 0 →
    pageAddr (machine.memory cr3 (last / 1024)) = table
  isFrame : Occupied next.phys frame
  isTable : Occupied next.phys table
  occupied : ∀ other, Occupied machine.phys other → Occupied next.phys other

theorem Layout.newFrames (layout : Layout kept cr3 kernelTable machine last)
    (room : last < tablesPage) (allocated : machine.phys.allocPage.2.Ok)
    (isNext : Window.setPageTableEntry cr3 ⟨machine.memory, machine.phys.allocPage.2⟩ (cr3 * 4096)
      (last * 4096) (machine.phys.allocPage.1 * 4096) 1 0 = some next) (ok : next.phys.Ok) :
    ∃ table, NewEntry machine.memory next.memory cr3 kernelTable last machine.phys.allocPage.1 table ∧
      NewFrames kept machine next cr3 last machine.phys.allocPage.1 table := by
  have lower := layout.lower
  have upper := layout.upper
  rcases occupied_allocPage layout.valid allocated with
    ⟨free, valid, -, bound, isFrame, occupied⟩
  rcases layout.newEntry room valid occupied isNext ok with ⟨table, entry, how⟩
  refine ⟨table, entry, ?_⟩
  split at how
  case isTrue missing =>
    rcases how with ⟨rfl, isPhys, tableOk⟩
    rcases occupied_allocPage valid tableOk with
      ⟨tableFree, tableValid, notNull, -, isTable, tableOccupied⟩
    rw [← isPhys] at tableValid isTable tableOccupied
    refine ⟨tableValid, notNull, bound, free, ?_, ?_, fun there => absurd missing there,
      tableOccupied _ isFrame, isTable, fun other isOccupied =>
      tableOccupied other (occupied other isOccupied)⟩
    · intro same
      exact tableFree (same ▸ isFrame)
    · intro other use isUse _ same
      exact tableFree (same ▸ occupied other (layout.occupied other use isUse))
  case isFalse notNull =>
    rcases how with ⟨rfl, isPhys⟩
    unfold heapPage tablesPage at *
    have isUse : UsedAs kept machine.memory cr3 last (pageAddr (machine.memory cr3 (last / 1024)))
        (.table (last / 1024)) := ⟨by omega, by omega, notNull, rfl⟩
    have isOccupied := layout.occupied _ _ isUse
    rw [← isPhys] at valid isFrame occupied
    refine ⟨valid, notNull, bound, free, ?_, fun other use otherUse different =>
      layout.ne_of_use otherUse isUse different, fun _ => rfl, isFrame, occupied _ isOccupied,
      occupied⟩
    intro same
    exact free (same ▸ isOccupied)

/-- The pages but the new one are translated as before. -/
theorem NewEntry.walk_other {frame table : Nat}
    (entry : NewEntry machine.memory next.memory cr3 kernelTable last frame table)
    (layout : Layout kept cr3 kernelTable machine last) (room : last < tablesPage)
    (frames : NewFrames kept machine next cr3 last frame table) {page : Nat}
    (above : windowPage < page) (below : page < tablesPage) (different : page ≠ last) :
    walk next.memory cr3 page = walk machine.memory cr3 page := by
  have lower := layout.lower
  unfold windowPage tablesPage heapPage at *
  unfold walk
  by_cases sameTable : page / 1024 = last / 1024
  · rw [sameTable]
    have place : page % 1024 ≠ last % 1024 := by omega
    have present := layout.present (last / 1024) (by omega) (by omega)
    simp only [entry.present, entry.isTable, entry.others _ place, if_true]
    by_cases missing : pageAddr (machine.memory cr3 (last / 1024)) = 0
    · have absent : presentBit (machine.memory cr3 (last / 1024)) = false := by
        rw [← Bool.not_eq_true, present]
        exact not_not.mpr missing
      simp [missing, absent, presentBit_zero]
    · simp only [if_neg missing, present.mpr missing, if_true]
      rw [frames.existing missing]
  · rw [entry.entries _ sameTable]
    simp only
    split
    case isFalse => rfl
    case isTrue present =>
      have use := layout.table (show 768 ≤ page / 1024 by omega) (by omega) present
      have notTable : pageAddr (machine.memory cr3 (page / 1024)) ≠ table := by
        refine frames.others _ _ use ?_
        rw [ne_eq, Use.table.injEq]
        exact sameTable
      have notDirectory : pageAddr (machine.memory cr3 (page / 1024)) ≠ cr3 :=
        layout.ne_of_use use usedAs_directory (by simp)
      by_cases isKernel : pageAddr (machine.memory cr3 (page / 1024)) = kernelTable
      · have isFirst := layout.alone _ _ _ use (isKernel ▸ layout.isKernelTable)
        rw [Use.table.injEq] at isFirst
        rw [isKernel, entry.window _ (by omega)]
      · rw [entry.elsewhere _ notDirectory notTable isKernel]

def Use.IsData : Use → Prop
  | .page _ | .kept _ => True
  | _ => False

/-- The heap ends further up, and nothing that was there has changed. -/
structure Extended (kept : Set Nat) (cr3 kernelTable : Nat) (machine : Machine) (last : Nat)
    (next : Machine) (newLast : Nat) : Prop where
  layout : Layout kept cr3 kernelTable next newLast
  larger : last ≤ newLast
  walk : ∀ page, windowPage < page → page < last →
    walk next.memory cr3 page = walk machine.memory cr3 page
  data : ∀ frame use, UsedAs kept machine.memory cr3 last frame use → use.IsData →
    next.memory frame = machine.memory frame

theorem NewEntry.uses {frame table other : Nat} {use : Use}
    (entry : NewEntry machine.memory next.memory cr3 kernelTable last frame table)
    (layout : Layout kept cr3 kernelTable machine last) (room : last < tablesPage)
    (frames : NewFrames kept machine next cr3 last frame table)
    (isUse : UsedAs kept next.memory cr3 (last + 1) other use) :
    UsedAs kept machine.memory cr3 last other use ∨ use = .page last ∧ other = frame ∨
      use = .table (last / 1024) ∧ other = table := by
  have lower := layout.lower
  cases use with
  | directory => exact .inl isUse
  | kept => exact .inl isUse
  | table index =>
      rcases isUse with ⟨low, high, notNull, isTable⟩
      by_cases same : index = last / 1024
      · subst same
        exact .inr (.inr ⟨rfl, isTable.symm.trans entry.isTable⟩)
      · rw [entry.entries index same] at isTable
        exact .inl ⟨low, high, notNull, isTable⟩
  | page page =>
      rcases isUse with ⟨low, high, found⟩
      by_cases same : page = last
      · subst same
        refine .inr (.inl ⟨rfl, ?_⟩)
        unfold walk at found
        simp only [entry.present, entry.isTable, entry.word, presentBit_makeEntry, if_true,
          pageAddr_makeEntry 1 0 frames.bound, Option.some_inj] at found
        exact found.symm
      · unfold heapPage at *
        rw [entry.walk_other layout room frames (by unfold windowPage; omega) (by omega) same] at found
        exact .inl ⟨low, by omega, found⟩

theorem NewEntry.layout {frame table : Nat}
    (entry : NewEntry machine.memory next.memory cr3 kernelTable last frame table)
    (layout : Layout kept cr3 kernelTable machine last) (room : last < tablesPage)
    (frames : NewFrames kept machine next cr3 last frame table) :
    Layout kept cr3 kernelTable next (last + 1) := by
  have lower := layout.lower
  refine ⟨entry.ready, frames.valid, layout.notNull, layout.bound, by omega, room,
    fun index low high => ?_, fun page low high => ?_, fun other use otherUse isUse isOther => ?_,
    fun other use isUse => ?_⟩
  · by_cases same : index = last / 1024
    · subst same
      rw [entry.isTable]
      exact ⟨fun _ => frames.notNull, fun _ => entry.present⟩
    · rw [entry.entries index same]
      exact layout.present index low high
  · by_cases same : page = last
    · subst same
      refine ⟨frame, ?_⟩
      unfold walk
      simp only [entry.present, entry.isTable, entry.word, presentBit_makeEntry, if_true,
        pageAddr_makeEntry 1 0 frames.bound]
    · unfold heapPage at *
      rw [entry.walk_other layout room frames (by unfold windowPage; omega) (by omega) same]
      exact layout.pages page low (by omega)
  · have free : ∀ otherUse, ¬UsedAs kept machine.memory cr3 last frame otherUse :=
      fun otherUse isUse => frames.free (layout.occupied frame otherUse isUse)
    have alone : ∀ otherUse, UsedAs kept machine.memory cr3 last table otherUse →
        otherUse = .table (last / 1024) := fun otherUse isUse => by
      by_contra different
      exact frames.others table otherUse isUse different rfl
    rcases entry.uses layout room frames isUse with old | ⟨rfl, rfl⟩ | ⟨rfl, rfl⟩
    · rcases entry.uses layout room frames isOther with otherOld | ⟨rfl, rfl⟩ | ⟨rfl, rfl⟩
      · exact layout.alone other use otherUse old otherOld
      · exact absurd old (free use)
      · exact alone use old
    · rcases entry.uses layout room frames isOther with otherOld | ⟨rfl, -⟩ | ⟨rfl, same⟩
      · exact absurd otherOld (free otherUse)
      · rfl
      · exact absurd same frames.different
    · rcases entry.uses layout room frames isOther with otherOld | ⟨rfl, same⟩ | ⟨rfl, -⟩
      · exact (alone otherUse otherOld).symm
      · exact absurd same.symm frames.different
      · rfl
  · rcases entry.uses layout room frames isUse with old | ⟨rfl, rfl⟩ | ⟨rfl, rfl⟩
    · exact frames.occupied other (layout.occupied other use old)
    · exact frames.isFrame
    · exact frames.isTable

theorem Layout.extended (layout : Layout kept cr3 kernelTable machine last)
    (room : last < tablesPage)
    (isNext : Window.setPageTableEntry cr3 ⟨machine.memory, machine.phys.allocPage.2⟩ (cr3 * 4096)
      (last * 4096) (machine.phys.allocPage.1 * 4096) 1 0 = some next) (ok : next.phys.Ok) :
    Extended kept cr3 kernelTable machine last next (last + 1) := by
  have upper := layout.upper
  rcases layout.newFrames room (ok_of_setPageTableEntry isNext ok) isNext ok with
    ⟨table, entry, frames⟩
  refine ⟨entry.layout layout room frames, by omega, fun page above below =>
    entry.walk_other layout room frames above (by omega) (by omega), fun frame use isUse isData => ?_⟩
  refine entry.elsewhere frame ?_ (frames.others frame use isUse ?_) ?_
  · exact layout.ne_of_use isUse usedAs_directory (by rintro rfl; exact isData)
  · rintro rfl
    exact isData
  · exact layout.ne_of_use isUse layout.isKernelTable (by rintro rfl; exact isData)

theorem Layout.shows_table (layout : Layout kept cr3 kernelTable machine last)
    (room : last < tablesPage)
    (isNext : Window.setPageTableEntry cr3 ⟨machine.memory, machine.phys.allocPage.2⟩ (cr3 * 4096)
      (last * 4096) (machine.phys.allocPage.1 * 4096) 1 0 = some next) (ok : next.phys.Ok) :
    ∃ table, walk next.memory cr3 windowPage = some table ∧
      UsedAs kept next.memory cr3 (last + 1) table (.table (last / 1024)) := by
  have lower := layout.lower
  rcases layout.newFrames room (ok_of_setPageTableEntry isNext ok) isNext ok with
    ⟨table, entry, frames⟩
  unfold heapPage tablesPage at *
  exact ⟨table, entry.shown, by omega, by omega, frames.notNull, entry.isTable⟩

theorem Layout.grows (layout : Layout kept cr3 kernelTable machine last)
    (room : last < tablesPage) (ok : machine.phys.allocPage.2.allocPage.2.Ok) :
    ∃ next, Window.setPageTableEntry cr3 ⟨machine.memory, machine.phys.allocPage.2⟩ (cr3 * 4096)
        (last * 4096) (machine.phys.allocPage.1 * 4096) 1 0 = some next ∧
      (next.phys = machine.phys.allocPage.2 ∨ next.phys = machine.phys.allocPage.2.allocPage.2) := by
  rcases occupied_allocPage layout.valid (Phys.ok_of_allocPage ok) with ⟨-, valid, -, -, -, occupied⟩
  rcases layout.sets room valid occupied (fun _ => ok) machine.phys.allocPage.1 with
    ⟨next, isNext, -⟩
  have isPhys := layout.sets_phys room isNext
  refine ⟨next, isNext, ?_⟩
  split at isPhys
  · exact .inr isPhys
  · exact .inl isPhys

theorem Extended.uses {newLast frame : Nat} {use : Use}
    (extended : Extended kept cr3 kernelTable machine last next newLast)
    (isUse : UsedAs kept machine.memory cr3 last frame use) (isData : use.IsData) :
    UsedAs kept next.memory cr3 newLast frame use := by
  cases use with
  | directory => exact absurd isData id
  | table => exact absurd isData id
  | kept => exact isUse
  | page page =>
      rcases isUse with ⟨low, high, found⟩
      have above : windowPage < page := Nat.lt_of_lt_of_le (by decide) low
      exact ⟨low, Nat.lt_of_lt_of_le high extended.larger, (extended.walk page above high).trans found⟩

theorem Layout.extended_refl (layout : Layout kept cr3 kernelTable machine last) :
    Extended kept cr3 kernelTable machine last machine last :=
  ⟨layout, Nat.le_refl _, fun _ _ _ => rfl, fun _ _ _ _ => rfl⟩

theorem Extended.trans {third : Machine} {newLast thirdLast : Nat}
    (second : Extended kept cr3 kernelTable next newLast third thirdLast)
    (first : Extended kept cr3 kernelTable machine last next newLast) :
    Extended kept cr3 kernelTable machine last third thirdLast := by
  refine ⟨second.layout, Nat.le_trans first.larger second.larger, fun page above below => ?_,
    fun frame use isUse isData => ?_⟩
  · exact (second.walk page above (Nat.lt_of_lt_of_le below first.larger)).trans
      (first.walk page above below)
  · exact (second.data frame use (first.uses isUse isData) isData).trans
      (first.data frame use isUse isData)

end NewEntry

/-! ## Writing to the pages of the heap and moving the window -/

section Write

variable {kept : Set Nat} {machine : Machine} {memory : Memory} {cr3 kernelTable last : Nat}

theorem Layout.congr (layout : Layout kept cr3 kernelTable machine last)
    (ready : Ready memory cr3 kernelTable)
    (entries : ∀ index, memory cr3 index = machine.memory cr3 index)
    (walked : ∀ page, heapPage ≤ page → page < last →
      walk memory cr3 page = walk machine.memory cr3 page) :
    Layout kept cr3 kernelTable { machine with memory } last := by
  have uses : ∀ frame use, UsedAs kept memory cr3 last frame use →
      UsedAs kept machine.memory cr3 last frame use := by
    intro frame use isUse
    cases use with
    | directory => exact isUse
    | kept => exact isUse
    | table index =>
        rcases isUse with ⟨low, high, notNull, isTable⟩
        exact ⟨low, high, notNull, entries index ▸ isTable⟩
    | page page =>
        rcases isUse with ⟨low, high, found⟩
        exact ⟨low, high, (walked page low high).symm.trans found⟩
  refine ⟨ready, layout.valid, layout.notNull, layout.bound, layout.lower, layout.upper,
    fun index low high => ?_, fun page low high => ?_, fun frame use other isUse isOther =>
      layout.alone frame use other (uses frame use isUse) (uses frame other isOther),
    fun frame use isUse => layout.occupied frame use (uses frame use isUse)⟩
  · simp only [entries index]
    exact layout.present index low high
  · simp only [walked page low high]
    exact layout.pages page low high

theorem Layout.walk_showing (layout : Layout kept cr3 kernelTable machine last) (frame : Nat)
    {page : Nat} (above : windowPage < page) (below : page < tablesPage) :
    walk (showing kernelTable machine.memory frame) cr3 page = walk machine.memory cr3 page := by
  unfold windowPage tablesPage at *
  have entry : showing kernelTable machine.memory frame cr3 (page / 1024) =
      machine.memory cr3 (page / 1024) := showing_of_ne _ _ (.inl layout.ne_kernelTable)
  unfold walk
  rw [entry]
  simp only
  split
  case isFalse => rfl
  case isTrue present =>
    have use := layout.table (show 768 ≤ page / 1024 by omega) (by omega) present
    have word : showing kernelTable machine.memory frame
        (pageAddr (machine.memory cr3 (page / 1024))) (page % 1024) =
          machine.memory (pageAddr (machine.memory cr3 (page / 1024))) (page % 1024) := by
      apply showing_of_ne
      by_cases isKernel : pageAddr (machine.memory cr3 (page / 1024)) = kernelTable
      · have isFirst := layout.alone _ _ _ use (isKernel ▸ layout.isKernelTable)
        rw [Use.table.injEq] at isFirst
        exact .inr (by omega)
      · exact .inl isKernel
    rw [word]

theorem Layout.showing (layout : Layout kept cr3 kernelTable machine last) (frame : Nat) :
    Layout kept cr3 kernelTable
      { machine with memory := showing kernelTable machine.memory frame } last := by
  have upper := layout.upper
  refine layout.congr (layout.ready.showing frame) (fun index => ?_) fun page low high => ?_
  · exact showing_of_ne _ _ (.inl layout.ne_kernelTable)
  · exact layout.walk_showing frame (Nat.lt_of_lt_of_le (by decide) low)
      (Nat.lt_of_lt_of_le high upper)

theorem page_of_address {address : Nat} (low : heapPage * 4096 ≤ address)
    (high : address < last * 4096) : heapPage ≤ address / 4096 ∧ address / 4096 < last := by
  omega

theorem Layout.backed (layout : Layout kept cr3 kernelTable machine last) :
    KernelAccess.Backed machine.memory cr3 (heapPage * 4096) (last * 4096) := by
  have upper := layout.upper
  refine ⟨by decide, ?_, fun address low high => ?_, fun address low high other otherLow otherHigh
    same => ?_⟩
  · unfold tablesPage at upper
    unfold ByteMemory.space
    omega
  · rcases page_of_address low high with ⟨above, below⟩
    rcases layout.pages _ above below with ⟨frame, found⟩
    have use : UsedAs kept machine.memory cr3 last frame (.page (address / 4096)) :=
      ⟨above, below, found⟩
    have notDirectory : frame ≠ cr3 := layout.ne_of_use use usedAs_directory (by simp)
    refine ⟨frame, found, notDirectory, fun index indexLow indexHigh present => ?_⟩
    by_cases isLast : index = 1023
    · rw [isLast, layout.ready.recursive.2]
      exact notDirectory.symm
    · exact layout.ne_of_use (layout.table indexLow (by omega) present) use (by simp)
  · rcases page_of_address low high with ⟨above, below⟩
    rcases page_of_address otherLow otherHigh with ⟨otherAbove, otherBelow⟩
    rcases layout.pages _ above below with ⟨frame, found⟩
    have isPage := layout.alone frame (.page (address / 4096)) (.page (other / 4096))
      ⟨above, below, found⟩ ⟨otherAbove, otherBelow, same ▸ found⟩
    rw [Use.page.injEq] at isPage
    exact isPage

theorem exists_page_of_backs (kept : Set Nat) {frame : Nat}
    (backs : KernelAccess.Backs memory cr3 (heapPage * 4096) (last * 4096) frame) :
    ∃ page, UsedAs kept memory cr3 last frame (.page page) := by
  rcases backs with ⟨address, low, high, found⟩
  exact ⟨address / 4096, (page_of_address low high).1, (page_of_address low high).2, found⟩

theorem Layout.view (layout : Layout kept cr3 kernelTable machine last) {flat : ByteMemory.Memory}
    (view : KernelAccess.View machine.memory cr3 (heapPage * 4096) (last * 4096) memory flat) :
    Layout kept cr3 kernelTable { machine with memory } last := by
  have upper := layout.upper
  have notBacked : ∀ frame use, UsedAs kept machine.memory cr3 last frame use →
      (∀ page, use ≠ .page page) → memory frame = machine.memory frame := by
    intro frame use isUse notPage
    refine view.elsewhere frame fun backs => ?_
    rcases exists_page_of_backs kept backs with ⟨page, isPage⟩
    exact notPage page (layout.alone frame use _ isUse isPage)
  have directory := notBacked cr3 .directory rfl (by simp)
  have table := notBacked kernelTable _ layout.isKernelTable (by simp)
  refine layout.congr ?_ (fun index => by rw [directory]) fun page low high => ?_
  · exact layout.ready.congr (by rw [directory]) (by rw [directory]) (by rw [table])
  · unfold heapPage tablesPage at *
    exact view.walk_eq layout.backed (by omega) (by unfold frameCount; omega)

end Write

end Dbos.Paging.KernelPages
