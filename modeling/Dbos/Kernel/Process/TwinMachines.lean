import Mathlib.Data.Set.Insert
import Dbos.Kernel.Process.Requests

/-! # Two machines side by side

The same operation on two machines with the same reference counts. As long as it reads
only frames that have the same words in both, it takes the same frames in both. -/

namespace Dbos.Paging

open Dbos.Loop Phys

/-! ## Memories that agree on some frames -/

/-- The frames have the same words in both memories. -/
def SameIn (frames : Set Nat) (memory other : Memory) : Prop :=
  ∀ frame ∈ frames, other frame = memory frame

section SameIn

variable {frames : Set Nat} {memory other : Memory}

theorem SameIn.mono (same : SameIn frames memory other) {fewer : Set Nat}
    (subset : fewer ⊆ frames) :
    SameIn fewer memory other :=
  fun frame member => same frame (subset member)

theorem SameIn.update (same : SameIn frames memory other) (frame : Nat) (words : Nat → Nat) :
    SameIn (insert frame frames) (Function.update memory frame words)
      (Function.update other frame words) := by
  intro second member
  by_cases isFrame : second = frame
  · rw [isFrame, Function.update_self, Function.update_self]
  · rw [Function.update_of_ne isFrame, Function.update_of_ne isFrame]
    exact same second (member.resolve_left isFrame)

theorem SameIn.change (same : SameIn frames memory other) (frame : Nat)
    (change : (Nat → Nat) → Nat → Nat) :
    SameIn frames (Function.update memory frame (change (memory frame)))
      (Function.update other frame (change (other frame))) := by
  intro second member
  by_cases isFrame : second = frame
  · rw [isFrame, Function.update_self, Function.update_self, same frame (isFrame ▸ member)]
  · rw [Function.update_of_ne isFrame, Function.update_of_ne isFrame, same second member]

theorem SameIn.setWord (same : SameIn frames memory other) (frame index word : Nat) :
    SameIn frames (setWord memory frame index word) (setWord other frame index word) :=
  same.change frame fun words => Function.update words index word

theorem SameIn.clearFrame (same : SameIn frames memory other) (frame : Nat) :
    SameIn (insert frame frames) (clearFrame memory frame) (clearFrame other frame) :=
  same.update frame fun _ => 0

end SameIn

/-! ## Machines that agree on some frames -/

/-- The counts are the same, and so are the words of these frames. -/
structure Twins (frames : Set Nat) (machine other : Machine) : Prop where
  phys : other.phys = machine.phys
  memory : SameIn frames machine.memory other.memory

section Twins

variable {frames : Set Nat} {machine other : Machine}

theorem Twins.mono (twins : Twins frames machine other) {fewer : Set Nat}
    (subset : fewer ⊆ frames) :
    Twins fewer machine other :=
  ⟨twins.phys, twins.memory.mono subset⟩

theorem Twins.change (twins : Twins frames machine other) (frame : Nat)
    (change : (Nat → Nat) → Nat → Nat) :
    Twins frames
      ⟨Function.update machine.memory frame (change (machine.memory frame)), machine.phys⟩
      ⟨Function.update other.memory frame (change (other.memory frame)), other.phys⟩ :=
  ⟨twins.phys, twins.memory.change frame change⟩

theorem Twins.growHeap (twins : Twins frames machine other) (count : Nat) :
    Twins frames (growHeap machine count) (growHeap other count) := by
  unfold Paging.growHeap
  rw [twins.phys]
  exact ⟨rfl, twins.memory⟩

theorem Twins.setPageTableEntry (twins : Twins frames machine other) {directory : Nat}
    (isRead : directory ∈ frames) (page frame present user : Nat) :
    Twins (frames ∪ tablesWith machine directory page ∅)
      (setPageTableEntry machine directory page frame present user)
      (setPageTableEntry other directory page frame present user) := by
  unfold Paging.setPageTableEntry tablesWith
  simp only [twins.memory directory isRead, twins.phys]
  by_cases missing : pageAddr (machine.memory directory (page / 1024)) = 0
  · rw [if_pos missing, if_pos missing, if_pos missing]
    refine ⟨rfl, ?_⟩
    have linked := (twins.memory.setWord directory (page / 1024)
      (makeEntry 1 user machine.phys.allocPage.1)).clearFrame machine.phys.allocPage.1
    refine SameIn.mono (linked.setWord _ _ _) ?_
    rw [Finset.insert_empty, Finset.coe_singleton, Set.union_singleton]
  · rw [if_neg missing, if_neg missing, if_neg missing]
    refine ⟨rfl, SameIn.mono (twins.memory.setWord _ _ _) ?_⟩
    rw [Finset.coe_empty, Set.union_empty]

theorem Twins.mapPage (twins : Twins frames machine other) {pdir : Nat} (isRead : pdir ∈ frames)
    (page : Nat) (fill : (Nat → Nat) → Nat → Nat) :
    Twins (frames ∪ tablesWith ⟨Function.update machine.memory machine.phys.allocPage.1
        (fill (machine.memory machine.phys.allocPage.1)), machine.phys.allocPage.2⟩ pdir page ∅)
      (mapPage machine pdir page fill).2 (mapPage other pdir page fill).2 := by
  rw [mapPage_eq, mapPage_eq, twins.phys]
  have filled : Twins frames
      ⟨Function.update machine.memory machine.phys.allocPage.1
        (fill (machine.memory machine.phys.allocPage.1)), machine.phys.allocPage.2⟩
      ⟨Function.update other.memory machine.phys.allocPage.1
        (fill (other.memory machine.phys.allocPage.1)), machine.phys.allocPage.2⟩ :=
    ⟨rfl, twins.memory.change _ fill⟩
  exact filled.setPageTableEntry isRead page _ 1 1

theorem Twins.mapKernelTables (twins : Twins frames machine other) {current : Nat}
    (isRead : current ∈ frames) (pdir : Nat) :
    Twins (insert pdir frames) (mapKernelTables machine current pdir)
      (mapKernelTables other current pdir) := by
  have looped : Twins (insert pdir frames)
      (loop 256 (mapKernelTable current pdir) ⟨clearFrame machine.memory pdir, machine.phys⟩)
      (loop 256 (mapKernelTable current pdir) ⟨clearFrame other.memory pdir, other.phys⟩) := by
    refine loop_related (motive := fun _ => Twins (insert pdir frames))
      ⟨twins.phys, twins.memory.clearFrame pdir⟩ fun index _ state second sofar => ?_
    unfold mapKernelTable
    simp only [sofar.memory current (Set.mem_insert_of_mem _ isRead)]
    split
    · exact ⟨sofar.phys, sofar.memory.setWord _ _ _⟩
    · exact sofar
  unfold Paging.mapKernelTables
  simp only [looped.memory pdir (Set.mem_insert _ _)]
  exact ⟨looped.phys, looped.memory.setWord _ _ _⟩

theorem Twins.removeDirectoryEntry (twins : Twins frames machine other) {pageDir index : Nat}
    (isRead : pageDir ∈ frames)
    (isTable : presentBit (machine.memory pageDir index) = true →
      pageAddr (machine.memory pageDir index) ∈ frames) :
    Twins frames (removeDirectoryEntry pageDir machine index)
      (removeDirectoryEntry pageDir other index) := by
  unfold Paging.removeDirectoryEntry
  simp only [twins.memory pageDir isRead]
  split
  case isFalse => exact twins
  case isTrue present =>
    have looped : Twins frames
        (loop 1024 (removeEntry (pageAddr (machine.memory pageDir index)))
          ⟨setWord machine.memory pageDir index 0, machine.phys⟩)
        (loop 1024 (removeEntry (pageAddr (machine.memory pageDir index)))
          ⟨setWord other.memory pageDir index 0, other.phys⟩) := by
      refine loop_related (motive := fun _ => Twins frames)
        ⟨twins.phys, twins.memory.setWord _ _ _⟩ fun place _ state second sofar => ?_
      unfold removeEntry
      simp only [sofar.memory _ (isTable present), sofar.phys]
      split
      · exact ⟨rfl, sofar.memory.setWord _ _ _⟩
      · exact ⟨sofar.phys, sofar.memory⟩
    exact ⟨by rw [looped.phys], looped.memory⟩

theorem Twins.removeAddressSpace {held dirs tables : Finset Nat}
    (mapped : Mapped machine held dirs tables) (twins : Twins frames machine other) {pageDir : Nat}
    (isDir : pageDir ∈ dirs) (isRead : ∀ frame ∈ held ∪ tables, frame ∈ frames) :
    Twins frames (removeAddressSpace machine pageDir) (removeAddressSpace other pageDir) := by
  have rounds : (∃ fewer ⊆ tables,
        Mapped (Paging.removeAddressSpace machine pageDir) held dirs fewer) ∧
      Twins frames (Paging.removeAddressSpace machine pageDir)
        (Paging.removeAddressSpace other pageDir) := by
    unfold Paging.removeAddressSpace
    refine loop_related (motive := fun _ (state second : Machine) =>
      (∃ fewer ⊆ tables, Mapped state held dirs fewer) ∧ Twins frames state second)
      ⟨⟨tables, Finset.Subset.refl _, mapped⟩, twins⟩ ?_
    rintro index bound state second ⟨⟨fewer, subset, before⟩, sofar⟩
    rcases removeDirectoryEntry_step before isDir bound with ⟨rest, after, removed⟩
    refine ⟨⟨rest, removed.subset.trans subset, after⟩, sofar.removeDirectoryEntry ?_ ?_⟩
    · exact isRead _ (Finset.mem_union_left _ (mapped.subset isDir))
    · intro present
      have isEntry : (pageDir, index) ∈ directoryEntries dirs :=
        mem_directoryEntries.mpr ⟨isDir, bound⟩
      have linked := before.links.linked _ isEntry present
      exact isRead _ (Finset.mem_union_right _ (subset linked.1))
  exact rounds.2

end Twins

/-! ## Page structures that are the same -/

theorem mapPage_mapped {machine : Machine} {held dirs tables : Finset Nat} {pdir page : Nat}
    {fill : (Nat → Nat) → Nat → Nat} (mapped : Mapped machine held dirs tables)
    (isDir : pdir ∈ dirs) (bound : page < userPages)
    (ok : (mapPage machine pdir page fill).2.phys.Ok) :
    Mapped (mapPage machine pdir page fill).2 held dirs
      (tablesWith ⟨Function.update machine.memory machine.phys.allocPage.1
        (fill (machine.memory machine.phys.allocPage.1)), machine.phys.allocPage.2⟩ pdir page
        tables) := by
  have allocOk := ok_of_mapPage ok
  rcases mapped.counted.allocPage allocOk with ⟨notHeld, notTable, -, -, isHeld⟩
  rw [mapPage_eq] at ok ⊢
  generalize filled : Function.update machine.memory machine.phys.allocPage.1
    (fill (machine.memory machine.phys.allocPage.1)) = memory at ok ⊢
  have same : ∀ frame, frame ≠ machine.phys.allocPage.1 → memory frame = machine.memory frame := by
    intro frame isOld
    rw [← filled, Function.update_of_ne isOld]
  have counted : Counted ⟨memory, machine.phys.allocPage.2⟩ (insert machine.phys.allocPage.1 held)
      tables (tableEntries tables) := by
    refine isHeld.congr fun slot isSlot => ?_
    refine congrFun (same _ fun isNew => notTable ?_) slot.2
    exact isNew ▸ (mem_tableEntries.mp isSlot).1
  have links : Links memory (directoryEntries dirs) tables := by
    refine mapped.links.congr fun slot isSlot => ?_
    refine congrFun (same _ fun isNew => notHeld ?_) slot.2
    exact isNew ▸ mapped.subset (mem_directoryEntries.mp isSlot).1
  exact (setPageTableEntry_spec counted links mapped.subset notHeld isDir bound ok).1

theorem Mapped.congr {machine other : Machine} {held dirs tables : Finset Nat}
    (mapped : Mapped machine held dirs tables) (samePhys : other.phys = machine.phys)
    (same : ∀ frame ∈ held ∪ tables, other.memory frame = machine.memory frame) :
    Mapped other held dirs tables := by
  rcases other with ⟨memory, phys⟩
  rcases machine with ⟨oldMemory, oldPhys⟩
  simp only at samePhys same
  subst samePhys
  refine ⟨?_, ?_, mapped.subset⟩
  · refine mapped.counted.congr fun slot isSlot => ?_
    exact congrFun (same _ (Finset.mem_union_right _ (mem_tableEntries.mp isSlot).1)) slot.2
  · refine mapped.links.congr fun slot isSlot => ?_
    refine congrFun (same _ (Finset.mem_union_left _ ?_)) slot.2
    exact mapped.subset (mem_directoryEntries.mp isSlot).1

/-- The page structures are in order and the same in both machines, and so is what lies in the
frames that were in `used` from the beginning. -/
def TwinSpaces (used : Set Nat) (held dirs : Finset Nat) (machine other : Machine) : Prop :=
  ∃ tables, Mapped machine held dirs tables ∧
    Twins (used ∪ ((held ∪ tables : Finset Nat) : Set Nat)) machine other

section TwinSpaces

variable {used : Set Nat} {held dirs : Finset Nat} {machine other : Machine} {pdir : Nat}

theorem TwinSpaces.phys (twins : TwinSpaces used held dirs machine other) :
    other.phys = machine.phys := by
  rcases twins with ⟨tables, -, same⟩
  exact same.phys

theorem TwinSpaces.memory (twins : TwinSpaces used held dirs machine other) {frame : Nat}
    (occupied : frame ∈ used ∨ frame ∈ held) : other.memory frame = machine.memory frame := by
  rcases twins with ⟨tables, -, same⟩
  refine same.memory frame (occupied.imp id fun isHeld => ?_)
  exact Finset.mem_coe.mpr (Finset.mem_union_left _ isHeld)

theorem TwinSpaces.mapped (twins : TwinSpaces used held dirs machine other) :
    ∃ tables, Mapped machine held dirs tables ∧ Mapped other held dirs tables := by
  rcases twins with ⟨tables, mapped, same⟩
  refine ⟨tables, mapped, mapped.congr same.phys fun frame member => same.memory frame (.inr ?_)⟩
  exact Finset.mem_coe.mpr member

theorem TwinSpaces.entries (twins : TwinSpaces used held dirs machine other) {dir page : Nat}
    (isDir : dir ∈ dirs) (bound : page < userPages) :
    userEntry other.memory dir page = userEntry machine.memory dir page := by
  rcases twins with ⟨tables, mapped, same⟩
  refine userEntry_congr ?_ fun present => ?_
  · refine congrFun (same.memory dir (.inr ?_)) _
    exact Finset.mem_coe.mpr (Finset.mem_union_left _ (mapped.subset isDir))
  · have sameDir : other.memory dir = machine.memory dir := by
      refine same.memory dir (.inr ?_)
      exact Finset.mem_coe.mpr (Finset.mem_union_left _ (mapped.subset isDir))
    have isSlot := slotOf_mem mapped.links isDir bound present
    have sameSlot : slotOf other.memory dir page = slotOf machine.memory dir page := by
      unfold slotOf
      rw [sameDir]
    unfold wordAt
    refine congrFun (same.memory _ (.inr ?_)) _
    exact Finset.mem_coe.mpr (Finset.mem_union_right _ (mem_tableEntries.mp isSlot).1)

theorem TwinSpaces.growHeap (twins : TwinSpaces used held dirs machine other) {count : Nat}
    (ok : (growHeap machine count).phys.Ok) :
    TwinSpaces used held dirs (growHeap machine count) (growHeap other count) := by
  rcases twins with ⟨tables, mapped, same⟩
  exact ⟨tables, growHeap_mapped mapped ok, same.growHeap count⟩

theorem TwinSpaces.mapPage (twins : TwinSpaces used held dirs machine other) (isDir : pdir ∈ dirs)
    {page : Nat} (bound : page < userPages) {fill : (Nat → Nat) → Nat → Nat}
    (ok : (mapPage machine pdir page fill).2.phys.Ok) :
    TwinSpaces used held dirs (mapPage machine pdir page fill).2
      (mapPage other pdir page fill).2 := by
  rcases twins with ⟨tables, mapped, same⟩
  refine ⟨_, mapPage_mapped mapped isDir bound ok, ?_⟩
  have isHeld : pdir ∈ held ∪ tables := Finset.mem_union_left _ (mapped.subset isDir)
  refine (same.mapPage (.inr (Finset.mem_coe.mpr isHeld)) page fill).mono ?_
  unfold tablesWith
  split
  · intro frame member
    simp only [Set.mem_union, Finset.mem_coe, Finset.mem_union, Finset.mem_insert] at member ⊢
    tauto
  · intro frame member
    exact .inl member

theorem TwinSpaces.mapNextPage_loop (twins : TwinSpaces used held dirs machine other)
    (isDir : pdir ∈ dirs) {pageOf : Nat → Nat} {fill : (Nat → Nat) → Nat → Nat} {count : Nat}
    (bound : ∀ index < count, pageOf index < userPages)
    (ok : (loop count (mapNextPage pdir pageOf fill) (machine, [])).1.phys.Ok) :
    TwinSpaces used held dirs (loop count (mapNextPage pdir pageOf fill) (machine, [])).1
        (loop count (mapNextPage pdir pageOf fill) (other, [])).1 ∧
      (loop count (mapNextPage pdir pageOf fill) (other, [])).2 =
        (loop count (mapNextPage pdir pageOf fill) (machine, [])).2 := by
  induction count with
  | zero =>
      rw [loop_zero, loop_zero]
      exact ⟨twins, rfl⟩
  | succ count induction =>
      rw [loop_succ] at ok
      rw [loop_succ, loop_succ]
      rcases induction (fun index less => bound index (by omega)) (ok_of_mapNextPage ok) with
        ⟨sofar, sameList⟩
      rw [mapNextPage_eq, mapNextPage_eq]
      refine ⟨sofar.mapPage isDir (bound count (Nat.lt_succ_self _)) ok, ?_⟩
      simp only
      rw [sameList, sofar.phys]

end TwinSpaces

section Create

variable {used : Set Nat} {held dirs : Finset Nat} {machine other : Machine}

theorem TwinSpaces.newDirectory (twins : TwinSpaces used held dirs machine other) {current : Nat}
    (isHeld : current ∈ held) (ok : machine.phys.allocPage.2.Ok) :
    TwinSpaces used (insert machine.phys.allocPage.1 held) (insert machine.phys.allocPage.1 dirs)
      (mapKernelTables ⟨machine.memory, machine.phys.allocPage.2⟩ current machine.phys.allocPage.1)
      (mapKernelTables ⟨other.memory, other.phys.allocPage.2⟩ current other.phys.allocPage.1) := by
  rcases twins with ⟨tables, mapped, same⟩
  rcases mapKernelTables_spec ⟨machine.memory, machine.phys.allocPage.2⟩ current
    machine.phys.allocPage.1 with ⟨memory, isMemory, elsewhere, empty, -⟩
  refine ⟨tables, ?_, ?_⟩
  · rw [isMemory]
    exact (mapped.newDirectory ok elsewhere empty).2.1
  · rw [same.phys]
    have allocated : Twins (used ∪ ((held ∪ tables : Finset Nat) : Set Nat))
        ⟨machine.memory, machine.phys.allocPage.2⟩ ⟨other.memory, machine.phys.allocPage.2⟩ :=
      ⟨rfl, same.memory⟩
    have isRead : current ∈ used ∪ ((held ∪ tables : Finset Nat) : Set Nat) :=
      .inr (Finset.mem_coe.mpr (Finset.mem_union_left _ isHeld))
    refine (allocated.mapKernelTables isRead _).mono ?_
    intro frame member
    simp only [Set.mem_union, Set.mem_insert_iff, Finset.mem_coe, Finset.mem_union,
      Finset.mem_insert] at member ⊢
    tauto

theorem TwinSpaces.procCreate {system second : System}
    (twins : TwinSpaces used held dirs system.machine second.machine)
    (samePid : second.procPid = system.procPid) {current : Nat} (isHeld : current ∈ held)
    {growth : Growth} (ok : (procCreate system current growth).machine.phys.Ok) :
    ∃ process, (procCreate system current growth).processes = system.processes ++ [process] ∧
      (procCreate second current growth).processes = second.processes ++ [process] ∧
      TwinSpaces used (insert process.pdir held) (insert process.pdir dirs)
        (procCreate system current growth).machine (procCreate second current growth).machine := by
  rcases procCreate_steps system current growth with ⟨heap, ready, stacked, steps⟩
  rcases procCreate_steps second current growth with ⟨otherHeap, otherReady, otherStacked,
    otherSteps⟩
  rcases steps.ok ok with ⟨heapOk, allocOk, readyOk, loopOk⟩
  rw [steps.isStack, mapStackPage_eq] at loopOk
  rw [steps.isCreate] at ok
  rw [steps.isCreate, otherSteps.isCreate, samePid]
  rw [steps.isHeap] at heapOk
  have grown := twins.growHeap heapOk
  rw [← steps.isHeap, ← otherSteps.isHeap] at grown
  rw [steps.isReady] at readyOk
  have prepared := (grown.newDirectory isHeld allocOk).growHeap readyOk
  rw [← steps.isReady, ← otherSteps.isReady] at prepared
  have looped := prepared.mapNextPage_loop (Finset.mem_insert_self _ _)
    (fun index less => stack_lt less) loopOk
  rw [← mapStackPage_eq, ← steps.isStack] at looped
  have isOtherStack := otherSteps.isStack
  rw [grown.phys] at isOtherStack
  rw [← isOtherStack] at looped
  exact ⟨_, rfl, by rw [looped.2, grown.phys], looped.1.growHeap ok⟩

end Create

/-! ## Clones -/

section Clone

variable {used frames : Set Nat} {machine other : Machine} {held dirs tables : Finset Nat}

theorem growHeap_phys_congr (same : other.phys = machine.phys) (count : Nat) :
    (growHeap other count).phys = (growHeap machine count).phys := by
  unfold growHeap
  rw [same]

theorem Twins.cloneEntry (twins : Twins frames machine other) {source : Nat}
    (isRead : source ∈ frames) (table index : Nat) :
    Twins frames (cloneEntry source table machine index) (cloneEntry source table other index) := by
  unfold Paging.cloneEntry
  simp only [twins.memory source isRead, twins.phys, setWord_self]
  split
  case isTrue => exact ⟨rfl, (twins.memory.setWord _ _ _).setWord _ _ _⟩
  case isFalse => exact ⟨twins.phys, twins.memory⟩

theorem Twins.cloneTable (twins : Twins frames machine other) {srcEntry : Nat}
    (isRead : pageAddr srcEntry ∈ frames) (newPageDir index : Nat) :
    Twins frames (cloneTable newPageDir machine index srcEntry)
      (cloneTable newPageDir other index srcEntry) := by
  unfold Paging.cloneTable
  simp only [twins.phys]
  have cleared := (twins.memory.clearFrame machine.phys.allocPage.1).mono (Set.subset_insert _ _)
  have looped : Twins frames
      (loop 1024 (Paging.cloneEntry (pageAddr srcEntry) machine.phys.allocPage.1)
        ⟨clearFrame machine.memory machine.phys.allocPage.1, machine.phys.allocPage.2⟩)
      (loop 1024 (Paging.cloneEntry (pageAddr srcEntry) machine.phys.allocPage.1)
        ⟨clearFrame other.memory machine.phys.allocPage.1, machine.phys.allocPage.2⟩) :=
    loop_related (motive := fun _ => Twins frames) ⟨rfl, cleared⟩
      fun _ _ _ _ sofar => sofar.cloneEntry isRead _ _
  exact ⟨looped.phys, looped.memory.setWord _ _ _⟩

theorem Twins.cloneDirectoryEntry (twins : Twins frames machine other) {srcDir index : Nat}
    (isRead : srcDir ∈ frames)
    (isTable : index < 768 → presentBit (machine.memory srcDir index) = true →
      pageAddr (machine.memory srcDir index) ∈ frames) (newPageDir : Nat) :
    Twins frames (cloneDirectoryEntry srcDir newPageDir machine index)
      (cloneDirectoryEntry srcDir newPageDir other index) := by
  unfold Paging.cloneDirectoryEntry
  simp only [twins.memory srcDir isRead]
  by_cases present : presentBit (machine.memory srcDir index) = true
  · rw [if_pos present, if_pos present]
    by_cases isKernel : index ≥ 768
    · rw [if_pos isKernel, if_pos isKernel]
      exact ⟨twins.phys, twins.memory.setWord _ _ _⟩
    · rw [if_neg isKernel, if_neg isKernel]
      exact twins.cloneTable (isTable (Nat.lt_of_not_le isKernel) present) _ _
  · rw [if_neg present, if_neg present]
    exact twins

theorem Twins.clonePageStructures (twins : Twins frames machine other)
    (mapped : Mapped machine held dirs tables) {srcDir : Nat} (isDir : srcDir ∈ dirs)
    (isRead : ∀ frame ∈ held ∪ tables, frame ∈ frames)
    (ok : (clonePageStructures machine srcDir).2.phys.Ok) :
    (clonePageStructures other srcDir).1 = (clonePageStructures machine srcDir).1 ∧
      Twins frames (clonePageStructures machine srcDir).2 (clonePageStructures other srcDir).2 := by
  rcases cloning_initial srcDir mapped (ok_of_clonePageStructures ok) with ⟨notHeld, initial⟩
  unfold Paging.clonePageStructures at ok ⊢
  simp only [twins.phys] at ok ⊢
  refine ⟨trivial, ?_⟩
  have cleared : Twins frames
      ⟨clearFrame machine.memory machine.phys.allocPage.1, machine.phys.allocPage.2⟩
      ⟨clearFrame other.memory machine.phys.allocPage.1, machine.phys.allocPage.2⟩ :=
    ⟨rfl, (twins.memory.clearFrame _).mono (Set.subset_insert _ _)⟩
  refine And.right (loop_related (motive := fun count (state second : Machine) => state.phys.Ok →
      (∃ more, Cloning machine held dirs tables srcDir machine.phys.allocPage.1 count state more) ∧
        Twins frames state second) (fun _ => ⟨⟨tables, initial⟩, cleared⟩) ?_ ok)
  intro index _ state second sofar nextOk
  rcases sofar (ok_of_cloneDirectoryEntry nextOk) with ⟨⟨more, cloning⟩, same⟩
  refine ⟨cloning.step mapped isDir notHeld nextOk, same.cloneDirectoryEntry ?_ ?_ _⟩
  · exact isRead _ (Finset.mem_union_left _ (mapped.subset isDir))
  · intro below present
    rw [cloning.same srcDir (mapped.subset isDir)] at present ⊢
    have isEntry : (srcDir, index) ∈ directoryEntries dirs :=
      mem_directoryEntries.mpr ⟨isDir, below⟩
    have linked := mapped.links.linked _ isEntry present
    exact isRead _ (Finset.mem_union_right _ linked.1)

theorem TwinSpaces.procClone {system second : System}
    (twins : TwinSpaces used held dirs system.machine second.machine)
    (sameProcesses : second.processes = system.processes)
    (samePid : second.procPid = system.procPid) {parent : Process} (isDir : parent.pdir ∈ dirs)
    {growth : Growth} (ok : (procClone system parent growth).machine.phys.Ok) :
    (procClone second parent growth).processes = (procClone system parent growth).processes ∧
      (procClone second parent growth).machine.phys =
        (procClone system parent growth).machine.phys := by
  unfold Paging.procClone at ok ⊢
  simp only at ok ⊢
  have readyOk := ok_of_increaseAll (ok_of_growHeap ok)
  have cloneOk := ok_of_growHeap readyOk
  have heapOk := ok_of_allocPage (ok_of_clonePageStructures cloneOk)
  rcases twins.growHeap heapOk with ⟨tables, mapped, same⟩
  have cloned := same.clonePageStructures mapped isDir
    (fun frame member => .inr (Finset.mem_coe.mpr member)) cloneOk
  refine ⟨?_, ?_⟩
  · rw [sameProcesses, samePid, cloned.1]
  · have grown := (cloned.2.growHeap growth.between).phys
    exact growHeap_phys_congr (by simp only [grown]) growth.after

end Clone

end Dbos.Paging

namespace Dbos.Loader

open Dbos.Loop Dbos.Paging Dbos.Execution Phys

/-! ## The loader -/

section Twins

variable {used frames : Set Nat} {held dirs : Finset Nat} {machine other next : Machine}
  {pdir : Nat} {file : File}

theorem twins_copyFile {fileEnd : Nat} {physicals : List Nat} {start : Nat}
    (twins : Twins frames machine other)
    (copied : copyFile file fileEnd physicals start machine = some next) :
    ∃ nextOther, copyFile file fileEnd physicals start other = some nextOther ∧
      Twins frames next nextOther := by
  induction physicals generalizing machine other start with
  | nil =>
      unfold copyFile at copied ⊢
      by_cases more : start < fileEnd
      · rw [if_pos more] at copied
        cases copied
      · rw [if_neg more, Option.some.injEq] at copied
        rw [if_neg more]
        exact ⟨other, rfl, copied ▸ twins⟩
  | cons frame rest induction =>
      unfold copyFile at copied ⊢
      by_cases more : start < fileEnd
      · rw [if_pos more] at copied ⊢
        exact induction (twins.change frame fun words => copyBytes words 0 (readNodeTarfs file start
          (if fileEnd - start > 0x1000 then 4096 else fileEnd - start))) copied
      · rw [if_neg more, Option.some.injEq] at copied
        rw [if_neg more]
        exact ⟨other, rfl, copied ▸ twins⟩

theorem twinSpaces_loadSegment (twins : TwinSpaces used held dirs machine other)
    (isDir : pdir ∈ dirs) {segment : Phdr} (bounded : segment.Bounded)
    (inUserHalf : segment.Loadable → segment.InUserHalf)
    (loaded : loadSegment file pdir machine segment = some next) (ok : next.phys.Ok) :
    ∃ nextOther, loadSegment file pdir other segment = some nextOther ∧
      TwinSpaces used held dirs next nextOther := by
  by_cases loadable : segment.Loadable
  · have user := inUserHalf loadable
    rcases twins.mapped with ⟨tables, mapped, -⟩
    rcases loadSegment_copied mapped isDir bounded loadable user loaded ok with
      ⟨state, isState, stateOk, isCopy, -, copied⟩
    rcases loadSegment_eq file pdir other loadable with ⟨second, isSecond, isLoad⟩
    have below : ∀ index < segment.sizeInPages, segment.page index < userPages := by
      intro index less
      rw [Phdr.page_eq user less]
      exact user.lt less
    have looped := twins.mapNextPage_loop isDir below (isState ▸ stateOk)
    rw [← isState, ← isSecond] at looped
    rcases looped.1 with ⟨more, moreMapped, same⟩
    rcases twins_copyFile same isCopy with ⟨nextOther, isOther, final⟩
    refine ⟨nextOther, ?_, more, (copied more moreMapped).mapped, final⟩
    rw [isLoad, looped.2]
    exact isOther
  · unfold loadSegment at loaded ⊢
    rw [if_neg loadable, Option.some.injEq] at loaded
    rw [if_neg loadable]
    exact ⟨other, rfl, loaded ▸ twins⟩

theorem twinSpaces_elfLoadExecutable (twins : TwinSpaces used held dirs machine other)
    (isDir : pdir ∈ dirs) {leftover : Leftover} (inUserHalf : SegmentsInUserHalf file leftover)
    (loaded : elfLoadExecutable file leftover pdir machine = some next) (ok : next.phys.Ok) :
    ∃ nextOther, elfLoadExecutable file leftover pdir other = some nextOther ∧
      TwinSpaces used held dirs next nextOther := by
  rw [elfLoadExecutable_eq] at loaded ⊢
  have bounded : ∀ segment ∈ segmentsOf file leftover, segment.Bounded :=
    fun _ => bounded_of_mem_segmentsOf
  unfold SegmentsInUserHalf at inUserHalf
  generalize segmentsOf file leftover = segments at inUserHalf loaded bounded ⊢
  induction segments generalizing machine other with
  | nil =>
      rw [List.foldlM_nil] at loaded ⊢
      exact ⟨other, rfl, Option.some.inj loaded ▸ twins⟩
  | cons segment rest induction =>
      rw [List.foldlM_cons] at loaded ⊢
      rcases Option.bind_eq_some_iff.mp loaded with ⟨middle, isMiddle, isRest⟩
      rcases twinSpaces_loadSegment twins isDir (bounded _ List.mem_cons_self)
        (inUserHalf _ List.mem_cons_self) isMiddle (ok_of_loadSegments isRest ok) with
        ⟨second, isSecond, sofar⟩
      rw [isSecond, Option.bind_eq_bind, Option.bind_some]
      exact induction sofar (fun _ member => inUserHalf _ (List.mem_cons_of_mem _ member)) isRest
        fun _ member => bounded _ (List.mem_cons_of_mem _ member)

end Twins

end Dbos.Loader
