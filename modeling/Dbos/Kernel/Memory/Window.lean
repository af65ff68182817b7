import Dbos.Kernel.Memory.FrameNumbers
import Dbos.Kernel.Memory.PagingInvariant

/-! # The window onto physical memory

`temp_map_page` makes a physical frame appear at `0xC0000000`. It writes to the page
table in use, which appears at `0xFFC00000` because the last entry of a directory leads
to the directory itself. The functions of `memory_paging.c` for single entries are given
here with every access through the window; `Dbos.Paging` has them without it. Addresses
are 32-bit numbers. -/

namespace Dbos.Paging.Window

open Phys (alignPage)

/-- The page at `0xC0000000`. -/
def windowPage : Nat := 0xC0000

/-- The page of `VIRT_PAGE_TAB_ADDR` that shows the table with the entry of the window. -/
def tempPtePage : Nat := 0xFFC00 + windowPage / 1024

/-- The frame that the processor finds for a page, or `none` for a page fault. -/
def walk (memory : Memory) (cr3 page : Nat) : Option Nat :=
  let directoryEntry := memory cr3 (page / 1024)
  if presentBit directoryEntry then
    let tableEntry := memory (pageAddr directoryEntry) (page % 1024)
    if presentBit tableEntry then some (pageAddr tableEntry) else none
  else none

def loadWord (memory : Memory) (cr3 page index : Nat) : Option Nat :=
  (walk memory cr3 page).map fun frame => memory frame index

def storeWord (memory : Memory) (cr3 page index word : Nat) : Option Memory :=
  (walk memory cr3 page).map fun frame => setWord memory frame index word

/-- `memset_32` of a page to 0. -/
def clearPage (memory : Memory) (cr3 page : Nat) : Option Memory :=
  (walk memory cr3 page).map fun frame => clearFrame memory frame

def getPageDirectoryIndex (virtAddr : Nat) : Nat := virtAddr / 2 ^ 22 % 1024

def getPageTableIndex (virtAddr : Nat) : Nat := virtAddr / 2 ^ 12 % 1024

/-- `temp_map_page`, which changes the address in the entry of the window. -/
def tempMapPage (cr3 : Nat) (memory : Memory) (physical : Nat) : Option Memory := do
  let temp ← loadWord memory cr3 tempPtePage 0
  storeWord memory cr3 tempPtePage 0 (setPageAddr temp (physical / 4096))

def getMappedAddress (cr3 : Nat) (memory : Memory) (directory virtAddr : Nat) :
    Option (Nat × Memory) := do
  let virtAddr := alignPage virtAddr
  let memory ← tempMapPage cr3 memory directory
  let pageDirEntry ← loadWord memory cr3 windowPage (getPageDirectoryIndex virtAddr)
  let pageTab := pageAddr pageDirEntry * 4096
  if pageTab ≠ 0 then
    let memory ← tempMapPage cr3 memory pageTab
    let pageTabEntry ← loadWord memory cr3 windowPage (getPageTableIndex virtAddr)
    return (pageAddr pageTabEntry * 4096, memory)
  else return (0, memory)

def unsetPageTableEntry (cr3 : Nat) (memory : Memory) (directory virtAddr : Nat) :
    Option Memory := do
  let virtAddr := alignPage virtAddr
  let memory ← tempMapPage cr3 memory directory
  let pageDirEntry ← loadWord memory cr3 windowPage (getPageDirectoryIndex virtAddr)
  let pageTab := pageAddr pageDirEntry * 4096
  if pageTab ≠ 0 then
    let memory ← tempMapPage cr3 memory pageTab
    storeWord memory cr3 windowPage (getPageTableIndex virtAddr) 0
  else return memory

/-- The part of `set_page_table_entry` that makes a table, while the directory is in the
window. -/
def createPageTable (cr3 : Nat) (machine : Machine) (directoryIndex userSupervisor : Nat) :
    Option (Nat × Machine) := do
  let (pageTab, phys) := machine.phys.allocPage
  let memory ← storeWord machine.memory cr3 windowPage directoryIndex
    (makeEntry 1 userSupervisor pageTab)
  let memory ← tempMapPage cr3 memory (pageTab * 4096)
  let memory ← clearPage memory cr3 windowPage
  return (pageTab * 4096, { memory, phys })

/-- `set_page_table_entry`. An entry is cleared before its fields are set. -/
def setPageTableEntry (cr3 : Nat) (machine : Machine)
    (directory virtAddr physAddr present userSupervisor : Nat) : Option Machine := do
  let virtAddr := alignPage virtAddr
  let physAddr := alignPage physAddr
  let memory ← tempMapPage cr3 machine.memory directory
  let pageDirEntry ← loadWord memory cr3 windowPage (getPageDirectoryIndex virtAddr)
  let pageTab := pageAddr pageDirEntry * 4096
  let (pageTab, machine) ←
    if pageTab = 0 then
      createPageTable cr3 { machine with memory } (getPageDirectoryIndex virtAddr) userSupervisor
    else some (pageTab, { machine with memory })
  let memory ← tempMapPage cr3 machine.memory pageTab
  let memory ← storeWord memory cr3 windowPage (getPageTableIndex virtAddr)
    (makeEntry present userSupervisor (physAddr / 4096))
  return { machine with memory }

/-! ## The window works -/

/-- The last entry of the directory in use leads to itself, and the first table of the
kernel half has an entry for the window. -/
structure Ready (memory : Memory) (cr3 kernelTable : Nat) : Prop where
  recursive : presentBit (memory cr3 1023) = true ∧ pageAddr (memory cr3 1023) = cr3
  kernelEntry : presentBit (memory cr3 768) = true ∧ pageAddr (memory cr3 768) = kernelTable
  window : presentBit (memory kernelTable 0) = true

/-- The memory after `temp_map_page`. -/
def showing (kernelTable : Nat) (memory : Memory) (frame : Nat) : Memory :=
  setWord memory kernelTable 0 (setPageAddr (memory kernelTable 0) frame)

section Ready

variable {memory other : Memory} {cr3 kernelTable : Nat}

theorem Ready.congr (ready : Ready memory cr3 kernelTable)
    (recursive : other cr3 1023 = memory cr3 1023) (kernelEntry : other cr3 768 = memory cr3 768)
    (window : presentBit (other kernelTable 0) = presentBit (memory kernelTable 0)) :
    Ready other cr3 kernelTable := by
  refine ⟨?_, ?_, ?_⟩
  · rw [recursive]
    exact ready.recursive
  · rw [kernelEntry]
    exact ready.kernelEntry
  · rw [window]
    exact ready.window

theorem showing_of_ne (memory : Memory) {frame place : Nat} (shown : Nat)
    (different : frame ≠ kernelTable ∨ place ≠ 0) :
    showing kernelTable memory shown frame place = memory frame place :=
  setWord_of_ne _ _ different

theorem Ready.showing (ready : Ready memory cr3 kernelTable) (frame : Nat) :
    Ready (showing kernelTable memory frame) cr3 kernelTable := by
  apply ready.congr (showing_of_ne _ _ (.inr (by decide))) (showing_of_ne _ _ (.inr (by decide)))
  unfold Window.showing
  rw [setWord_self, presentBit_setPageAddr]

theorem walk_tempPtePage (ready : Ready memory cr3 kernelTable) :
    walk memory cr3 tempPtePage = some kernelTable := by
  have recursive : presentBit (memory cr3 (tempPtePage / 1024)) = true := ready.recursive.1
  have isDirectory : pageAddr (memory cr3 (tempPtePage / 1024)) = cr3 := ready.recursive.2
  have present : presentBit (memory cr3 (tempPtePage % 1024)) = true := ready.kernelEntry.1
  have isTable : pageAddr (memory cr3 (tempPtePage % 1024)) = kernelTable := ready.kernelEntry.2
  unfold walk
  simp only [recursive, isDirectory, present, isTable, if_true]

theorem walk_windowPage (ready : Ready memory cr3 kernelTable) :
    walk memory cr3 windowPage = some (pageAddr (memory kernelTable 0)) := by
  have present : presentBit (memory cr3 (windowPage / 1024)) = true := ready.kernelEntry.1
  have isTable : pageAddr (memory cr3 (windowPage / 1024)) = kernelTable := ready.kernelEntry.2
  have shown : presentBit (memory kernelTable (windowPage % 1024)) = true := ready.window
  unfold walk
  simp only [present, isTable, shown, if_true]
  rfl

theorem tempMapPage_eq (ready : Ready memory cr3 kernelTable) (frame : Nat) :
    tempMapPage cr3 memory (frame * 4096) = some (showing kernelTable memory frame) := by
  unfold tempMapPage loadWord storeWord
  rw [walk_tempPtePage ready, Nat.mul_div_cancel _ (by decide)]
  rfl

theorem walk_showing (ready : Ready memory cr3 kernelTable) {frame : Nat}
    (bound : frame < frameCount) :
    walk (showing kernelTable memory frame) cr3 windowPage = some frame := by
  rw [walk_windowPage (ready.showing frame)]
  unfold Window.showing
  rw [setWord_self, pageAddr_setPageAddr _ bound]

theorem loadWord_showing (ready : Ready memory cr3 kernelTable) {frame : Nat}
    (bound : frame < frameCount) (index : Nat) :
    loadWord (showing kernelTable memory frame) cr3 windowPage index =
      some (showing kernelTable memory frame frame index) := by
  unfold loadWord
  rw [walk_showing ready bound]
  rfl

theorem storeWord_showing (ready : Ready memory cr3 kernelTable) {frame : Nat}
    (bound : frame < frameCount) (index word : Nat) :
    storeWord (showing kernelTable memory frame) cr3 windowPage index word =
      some (setWord (showing kernelTable memory frame) frame index word) := by
  unfold storeWord
  rw [walk_showing ready bound]
  rfl

end Ready

/-! ## The functions without the window -/

theorem getPageDirectoryIndex_alignPage {virtAddr : Nat} (bound : virtAddr < 2 ^ 32) :
    getPageDirectoryIndex (alignPage virtAddr) = virtAddr / 4096 / 1024 := by
  unfold getPageDirectoryIndex
  rw [Phys.alignPage_eq]
  omega

theorem getPageTableIndex_alignPage (virtAddr : Nat) :
    getPageTableIndex (alignPage virtAddr) = virtAddr / 4096 % 1024 := by
  unfold getPageTableIndex
  rw [Phys.alignPage_eq]
  omega

theorem pageAddr_lt (entry : Nat) : pageAddr entry < frameCount := Nat.mod_lt _ (by decide)

theorem pageAddr_mul_eq_zero (entry : Nat) : pageAddr entry * 4096 = 0 ↔ pageAddr entry = 0 := by
  omega

/-- Two memories that agree but for the entry of the window. -/
def Agrees (kernelTable : Nat) (memory other : Memory) : Prop :=
  ∀ frame place, frame ≠ kernelTable ∨ place ≠ 0 → memory frame place = other frame place

section Agrees

variable {kernelTable : Nat} {memory other : Memory}

theorem Agrees.refl (kernelTable : Nat) (memory : Memory) : Agrees kernelTable memory memory :=
  fun _ _ _ => rfl

theorem Agrees.showing (agrees : Agrees kernelTable memory other) (frame : Nat) :
    Agrees kernelTable (showing kernelTable memory frame) other := by
  intro second place different
  rw [showing_of_ne _ _ different, agrees second place different]

theorem Agrees.setWord (agrees : Agrees kernelTable memory other) (frame index word : Nat) :
    Agrees kernelTable (setWord memory frame index word) (setWord other frame index word) := by
  intro second place different
  by_cases same : second = frame ∧ place = index
  · rw [same.1, same.2, setWord_self, setWord_self]
  · rw [not_and_or] at same
    rw [setWord_of_ne _ _ same, setWord_of_ne _ _ same, agrees second place different]

theorem Agrees.clearFrame (agrees : Agrees kernelTable memory other) (frame : Nat) :
    Agrees kernelTable (clearFrame memory frame) (clearFrame other frame) := by
  intro second place different
  by_cases same : second = frame
  · rw [same, clearFrame_self, clearFrame_self]
  · rw [clearFrame_of_ne _ same, clearFrame_of_ne _ same, agrees second place different]

end Agrees

/-- What `get_mapped_address` finds for a page. The table with the entry of the window is
itself in the window when that entry is read. -/
def mappedFrame (kernelTable : Nat) (memory : Memory) (dir page : Nat) : Nat :=
  let pageTab := pageAddr (memory dir (page / 1024))
  if pageTab = 0 then 0
  else if pageTab = kernelTable ∧ page % 1024 = 0 then kernelTable
  else pageAddr (memory pageTab (page % 1024))

/-- The address that `get_mapped_address` returns. -/
def mappedAddress (cr3 : Nat) (memory : Memory) (directory virtAddr : Nat) : Option Nat :=
  (getMappedAddress cr3 memory directory virtAddr).map Prod.fst

section Refines

variable {memory : Memory} {cr3 kernelTable dir virtAddr : Nat}

theorem mappedAddress_eq (ready : Ready memory cr3 kernelTable) (bound : dir < frameCount)
    (notKernel : dir ≠ kernelTable) (small : virtAddr < 2 ^ 32) :
    mappedAddress cr3 memory (dir * 4096) virtAddr =
      some (mappedFrame kernelTable memory dir (virtAddr / 4096) * 4096) := by
  unfold mappedAddress getMappedAddress mappedFrame
  simp only [getPageDirectoryIndex_alignPage small, getPageTableIndex_alignPage,
    tempMapPage_eq ready, Option.bind_eq_bind, Option.bind_some, loadWord_showing ready bound,
    showing_of_ne _ _ (.inl notKernel)]
  generalize memory dir (virtAddr / 4096 / 1024) = entry
  by_cases missing : pageAddr entry = 0
  · simp [missing]
  · have notZero : pageAddr entry * 4096 ≠ 0 := by omega
    simp only [missing, notZero, ne_eq, not_false_eq_true, if_true, if_false,
      tempMapPage_eq (ready.showing dir), Option.bind_some,
      loadWord_showing (ready.showing dir) (pageAddr_lt entry), Option.pure_def, Option.map_some]
    congr 2
    by_cases isWindow : pageAddr entry = kernelTable ∧ virtAddr / 4096 % 1024 = 0
    · rw [if_pos isWindow, isWindow.1, isWindow.2]
      unfold showing
      rw [setWord_self, pageAddr_setPageAddr _ (isWindow.1 ▸ pageAddr_lt entry)]
    · rw [if_neg isWindow]
      rw [not_and_or] at isWindow
      rw [showing_of_ne _ _ isWindow, showing_of_ne _ _ isWindow]

/-- Writing an entry does not disturb the window, unless it is the entry of the window or
one of the entries that lead to it. -/
theorem Ready.setWord (ready : Ready memory cr3 kernelTable) {frame index : Nat} (word : Nat)
    (notDirectory : frame ≠ cr3 ∨ index ≠ 768 ∧ index ≠ 1023)
    (notWindow : ¬(frame = kernelTable ∧ index = 0)) :
    Ready (setWord memory frame index word) cr3 kernelTable := by
  have window : Paging.setWord memory frame index word kernelTable 0 = memory kernelTable 0 := by
    apply setWord_of_ne
    by_contra same
    rw [not_or, not_not, not_not] at same
    exact notWindow ⟨same.1.symm, same.2.symm⟩
  apply ready.congr
  · exact setWord_of_ne _ _ (notDirectory.imp Ne.symm fun both => Ne.symm both.2)
  · exact setWord_of_ne _ _ (notDirectory.imp Ne.symm fun both => Ne.symm both.1)
  · rw [window]

/-- `unset_page_table_entry` clears the entry if there is a table. -/
theorem unsetPageTableEntry_refines (ready : Ready memory cr3 kernelTable)
    (bound : dir < frameCount) (notKernel : dir ≠ kernelTable) (small : virtAddr < 2 ^ 32)
    (notDirectory : pageAddr (memory dir (virtAddr / 4096 / 1024)) ≠ cr3)
    (notWindow : ¬(pageAddr (memory dir (virtAddr / 4096 / 1024)) = kernelTable ∧
      virtAddr / 4096 % 1024 = 0)) :
    ∃ next, unsetPageTableEntry cr3 memory (dir * 4096) virtAddr = some next ∧
      Agrees kernelTable next (if pageAddr (memory dir (virtAddr / 4096 / 1024)) = 0 then memory
        else setWord memory (pageAddr (memory dir (virtAddr / 4096 / 1024)))
          (virtAddr / 4096 % 1024) 0) ∧
      Ready next cr3 kernelTable := by
  unfold unsetPageTableEntry
  simp only [getPageDirectoryIndex_alignPage small, getPageTableIndex_alignPage,
    tempMapPage_eq ready, Option.bind_eq_bind, Option.bind_some, loadWord_showing ready bound,
    showing_of_ne _ _ (.inl notKernel)]
  generalize memory dir (virtAddr / 4096 / 1024) = entry at notDirectory notWindow ⊢
  have shown := (Agrees.refl kernelTable memory).showing dir
  by_cases missing : pageAddr entry = 0
  · simp only [missing, Nat.zero_mul, ne_eq, not_true_eq_false, if_false, if_true]
    exact ⟨_, rfl, shown, ready.showing dir⟩
  · have notZero : pageAddr entry * 4096 ≠ 0 := by omega
    simp only [missing, notZero, ne_eq, not_false_eq_true, if_true, if_false,
      tempMapPage_eq (ready.showing dir), Option.bind_some,
      storeWord_showing (ready.showing dir) (pageAddr_lt entry)]
    exact ⟨_, rfl, (shown.showing (pageAddr entry)).setWord _ _ _,
      ((ready.showing dir).showing _).setWord 0 (.inl notDirectory) notWindow⟩

/-- A table is made in a frame that has nothing to do with the window. -/
theorem createPageTable_refines {machine : Machine} (ready : Ready machine.memory cr3 kernelTable)
    (bound : dir < frameCount) (notKernel : dir ≠ kernelTable) {index : Nat}
    (otherEntry : dir ≠ cr3 ∨ index ≠ 768 ∧ index ≠ 1023)
    (newBound : machine.phys.allocPage.1 < frameCount)
    (newNotDirectory : machine.phys.allocPage.1 ≠ cr3)
    (newNotKernel : machine.phys.allocPage.1 ≠ kernelTable) (userSupervisor : Nat) :
    ∃ memory, createPageTable cr3 ⟨showing kernelTable machine.memory dir, machine.phys⟩ index
        userSupervisor = some (machine.phys.allocPage.1 * 4096, ⟨memory, machine.phys.allocPage.2⟩) ∧
      Agrees kernelTable memory (clearFrame (setWord machine.memory dir index
        (makeEntry 1 userSupervisor machine.phys.allocPage.1)) machine.phys.allocPage.1) ∧
      Ready memory cr3 kernelTable := by
  have stored : Ready (setWord (showing kernelTable machine.memory dir) dir index
      (makeEntry 1 userSupervisor machine.phys.allocPage.1)) cr3 kernelTable :=
    (ready.showing dir).setWord _ otherEntry fun both => notKernel both.1
  have mapped := stored.showing machine.phys.allocPage.1
  have cleared : clearPage (showing kernelTable (setWord (showing kernelTable machine.memory dir)
      dir index (makeEntry 1 userSupervisor machine.phys.allocPage.1)) machine.phys.allocPage.1) cr3
      windowPage = some (clearFrame (showing kernelTable (setWord (showing kernelTable
        machine.memory dir) dir index (makeEntry 1 userSupervisor machine.phys.allocPage.1))
        machine.phys.allocPage.1) machine.phys.allocPage.1) := by
    unfold clearPage
    rw [walk_showing stored newBound]
    rfl
  refine ⟨_, ?_, ((((Agrees.refl kernelTable machine.memory).showing dir).setWord dir index
    _).showing machine.phys.allocPage.1).clearFrame machine.phys.allocPage.1, ?_⟩
  · unfold createPageTable
    simp only [storeWord_showing ready bound, Option.bind_eq_bind, Option.bind_some,
      tempMapPage_eq stored, cleared]
    rfl
  · apply mapped.congr
    · rw [clearFrame_of_ne _ (Ne.symm newNotDirectory)]
    · rw [clearFrame_of_ne _ (Ne.symm newNotDirectory)]
    · rw [clearFrame_of_ne _ (Ne.symm newNotKernel)]

/-- The frame of a table that has to be made is none of those that the window needs. -/
structure NewTable (machine : Machine) (cr3 kernelTable : Nat) : Prop where
  bound : machine.phys.allocPage.1 < frameCount
  notDirectory : machine.phys.allocPage.1 ≠ cr3
  notKernel : machine.phys.allocPage.1 ≠ kernelTable

/-- `set_page_table_entry` does what it does without the window. -/
theorem setPageTableEntry_refines {machine : Machine} (ready : Ready machine.memory cr3 kernelTable)
    (bound : dir < frameCount) (notKernel : dir ≠ kernelTable) (small : virtAddr < 2 ^ 32)
    (notDirectory : pageAddr (machine.memory dir (virtAddr / 4096 / 1024)) ≠ cr3)
    (notWindow : ¬(pageAddr (machine.memory dir (virtAddr / 4096 / 1024)) = kernelTable ∧
      virtAddr / 4096 % 1024 = 0))
    (canCreate : pageAddr (machine.memory dir (virtAddr / 4096 / 1024)) = 0 →
      (dir ≠ cr3 ∨ virtAddr / 4096 / 1024 ≠ 768 ∧ virtAddr / 4096 / 1024 ≠ 1023) ∧
        NewTable machine cr3 kernelTable)
    (physAddr present userSupervisor : Nat) :
    ∃ next, setPageTableEntry cr3 machine (dir * 4096) virtAddr physAddr present userSupervisor =
        some next ∧
      Agrees kernelTable next.memory (Paging.setPageTableEntry machine dir (virtAddr / 4096)
        (physAddr / 4096) present userSupervisor).memory ∧
      Ready next.memory cr3 kernelTable := by
  have samePhys : alignPage physAddr / 4096 = physAddr / 4096 := by
    rw [Phys.alignPage_eq]
    omega
  unfold setPageTableEntry Paging.setPageTableEntry
  simp only [getPageDirectoryIndex_alignPage small, getPageTableIndex_alignPage, samePhys,
    tempMapPage_eq ready, Option.bind_eq_bind, Option.bind_some, loadWord_showing ready bound,
    showing_of_ne _ _ (.inl notKernel), pageAddr_mul_eq_zero]
  by_cases missing : pageAddr (machine.memory dir (virtAddr / 4096 / 1024)) = 0
  · rcases canCreate missing with ⟨otherEntry, new⟩
    rcases createPageTable_refines ready bound notKernel otherEntry new.bound new.notDirectory
      new.notKernel userSupervisor with ⟨memory, created, agrees, createdReady⟩
    simp only [missing, if_true, created, Option.bind_some, tempMapPage_eq createdReady,
      storeWord_showing createdReady new.bound]
    exact ⟨_, rfl, (agrees.showing _).setWord _ _ _, (createdReady.showing _).setWord _
      (.inl new.notDirectory) fun both => new.notKernel both.1⟩
  · simp only [missing, if_false, Option.bind_some, tempMapPage_eq (ready.showing dir),
      storeWord_showing (ready.showing dir) (pageAddr_lt _)]
    exact ⟨_, rfl, (((Agrees.refl kernelTable machine.memory).showing dir).showing _).setWord _ _ _,
      ((ready.showing dir).showing _).setWord _ (.inl notDirectory) notWindow⟩

end Refines

end Dbos.Paging.Window
