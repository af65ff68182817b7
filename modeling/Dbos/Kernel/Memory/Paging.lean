import Dbos.Foundation.Loop
import Dbos.Kernel.Memory.Phys

/-! # Page directories and page tables

The part of `memory_paging.c` that works on page structures. `temp_map_page` gives
access to one physical frame at a time; here a frame is read and written directly. -/

namespace Dbos.Paging

open Dbos.Loop

/-- The words of the physical frames. -/
abbrev Memory := Nat → Nat → Nat

def setWord (memory : Memory) (frame index word : Nat) : Memory :=
  Function.update memory frame (Function.update (memory frame) index word)

/-- `memset_32` of a whole frame to 0. -/
def clearFrame (memory : Memory) (frame : Nat) : Memory :=
  Function.update memory frame fun _ => 0

/-! ## Entries

The bit fields of a directory entry and of a table entry that the code uses lie at
the same places. -/

def presentBit (entry : Nat) : Bool := entry % 2 = 1

def readWrite (entry : Nat) : Bool := entry / 2 % 2 = 1

def userSupervisor (entry : Nat) : Bool := entry / 4 % 2 = 1

/-- `page_addr`, or `page_table_addr`: the number of a frame. -/
def pageAddr (entry : Nat) : Nat := entry / 4096 % frameCount

def clearReadWrite (entry : Nat) : Nat := entry - entry / 2 % 2 * 2

def setPageAddr (entry frame : Nat) : Nat := entry % 4096 + frame % frameCount * 4096

/-- An entry with the three bits and the frame, and 0 elsewhere. -/
def makeEntry (present user frame : Nat) : Nat :=
  present % 2 + 2 + user % 2 * 4 + frame % frameCount * 4096

structure Machine where
  memory : Memory
  phys : Phys

instance : Strict Machine where
  force machine next := match machine with
    | ⟨memory, phys⟩ => next ⟨memory, phys⟩
  force_eq _ _ := rfl

/-! ## The operations -/

/-- The body of the inner loop of `clone_page_structures`. -/
def cloneEntry (srcPageTable newPageTable : Nat) (machine : Machine) (index : Nat) : Machine :=
  if presentBit (machine.memory srcPageTable index) then
    let memory := setWord machine.memory srcPageTable index
      (clearReadWrite (machine.memory srcPageTable index))
    let entry := memory srcPageTable index
    { memory := setWord memory newPageTable index entry
      phys := machine.phys.increaseRefcount (pageAddr entry) }
  else machine

/-- The copy of one page table, which is put in the new directory. -/
def cloneTable (newPageDir : Nat) (machine : Machine) (index srcEntry : Nat) : Machine :=
  let (newPageTable, phys) := machine.phys.allocPage
  let machine : Machine := { memory := clearFrame machine.memory newPageTable, phys }
  let machine := loop 1024 (cloneEntry (pageAddr srcEntry) newPageTable) machine
  { machine with
    memory := setWord machine.memory newPageDir index (setPageAddr srcEntry newPageTable) }

/-- The body of the outer loop of `clone_page_structures`. -/
def cloneDirectoryEntry (srcDir newPageDir : Nat) (machine : Machine) (index : Nat) : Machine :=
  let entry := machine.memory srcDir index
  if presentBit entry then
    if index ≥ 768 then
      let entry := if index = 1023 then setPageAddr entry newPageDir else entry
      { machine with memory := setWord machine.memory newPageDir index entry }
    else cloneTable newPageDir machine index entry
  else machine

def clonePageStructures (machine : Machine) (srcDir : Nat) : Nat × Machine :=
  let (newPageDir, phys) := machine.phys.allocPage
  let machine : Machine := { memory := clearFrame machine.memory newPageDir, phys }
  (newPageDir, loop 1024 (cloneDirectoryEntry srcDir newPageDir) machine)

/-- A frame loses the reference that an entry held. -/
def releaseFrame (phys : Phys) (frame : Nat) : Phys :=
  if phys.getRefcount frame = 1 then phys.free frame else phys.decreaseRefcount frame

/-- The body of the inner loop of `remove_address_space`. -/
def removeEntry (ptab : Nat) (machine : Machine) (index : Nat) : Machine :=
  let entry := machine.memory ptab index
  if presentBit entry then
    { memory := setWord machine.memory ptab index 0
      phys := releaseFrame machine.phys (pageAddr entry) }
  else machine

/-- The body of the outer loop of `remove_address_space`. -/
def removeDirectoryEntry (pageDir : Nat) (machine : Machine) (index : Nat) : Machine :=
  let entry := machine.memory pageDir index
  if presentBit entry then
    let ptab := pageAddr entry
    let machine := { machine with memory := setWord machine.memory pageDir index 0 }
    let machine := loop 1024 (removeEntry ptab) machine
    { machine with phys := machine.phys.free ptab }
  else machine

def removeAddressSpace (machine : Machine) (pageDir : Nat) : Machine :=
  loop 768 (removeDirectoryEntry pageDir) machine

/-- The body of the inner loop of `nuke_page_directory`, which does not wipe the entry. -/
def nukeEntry (ptab : Nat) (machine : Machine) (index : Nat) : Machine :=
  let entry := machine.memory ptab index
  if presentBit entry then
    { machine with phys := releaseFrame machine.phys (pageAddr entry) }
  else machine

/-- The body of the outer loop of `nuke_page_directory`. -/
def nukeDirectoryEntry (pageDir : Nat) (machine : Machine) (index : Nat) : Machine :=
  let entry := machine.memory pageDir index
  if presentBit entry then
    let ptab := pageAddr entry
    let machine := loop 1024 (nukeEntry ptab) machine
    { machine with phys := machine.phys.free ptab }
  else machine

def nukePageDirectory (machine : Machine) (pageDir : Nat) : Machine :=
  let machine := loop 768 (nukeDirectoryEntry pageDir) machine
  { machine with phys := machine.phys.free pageDir }

/-- `get_mapped_address` for the page of this number. -/
def getMappedAddress (machine : Machine) (directory page : Nat) : Nat :=
  let pageTab := pageAddr (machine.memory directory (page / 1024))
  if pageTab ≠ 0 then pageAddr (machine.memory pageTab (page % 1024)) else 0

/-- `set_page_table_entry` for the page of this number. A table is missing if its
address is 0, whatever the entry says. -/
def setPageTableEntry (machine : Machine) (directory page frame present user : Nat) : Machine :=
  let pageTab := pageAddr (machine.memory directory (page / 1024))
  if pageTab = 0 then
    let (pageTab, phys) := machine.phys.allocPage
    let memory := setWord machine.memory directory (page / 1024) (makeEntry 1 user pageTab)
    let memory := clearFrame memory pageTab
    { memory := setWord memory pageTab (page % 1024) (makeEntry present user frame), phys }
  else
    { machine with
      memory := setWord machine.memory pageTab (page % 1024) (makeEntry present user frame) }

/-- The part of `page_fault_handler` for a user process that writes to a page
that is present and readonly. -/
def copyOnWrite (machine : Machine) (procPdir page : Nat) : Machine :=
  let frame := getMappedAddress machine procPdir page
  let frameRefcount := machine.phys.getRefcount frame
  if frameRefcount > 1 then
    let phys := machine.phys.decreaseRefcount frame
    let (newFrame, phys) := phys.allocPage
    -- The contents take the way over `temp_page`.
    let memory := Function.update machine.memory newFrame (machine.memory frame)
    setPageTableEntry { memory, phys } procPdir page newFrame 1 1
  else if frameRefcount = 1 then setPageTableEntry machine procPdir page frame 1 1
  else machine

end Dbos.Paging
