import Dbos.Kernel.Process.TwinMachines

/-! # Frames that are free

What is free after a program has been loaded has not been written to, and the number of
frames that have been taken follows from the pages that have been mapped. -/

namespace Dbos.Paging

open Dbos.Loop Phys

/-! ## Frames that are left alone -/

/-- What is free afterwards has not been written to. -/
def KeepsFree (machine next : Machine) : Prop :=
  ∀ frame, next.phys.Managed frame → next.phys.refcount frame = 0 →
    next.memory frame = machine.memory frame

section KeepsFree

variable {machine next last : Machine} {held dirs tables : Finset Nat} {pdir page : Nat}
  {fill : (Nat → Nat) → Nat → Nat}

theorem KeepsFree.refl (machine : Machine) : KeepsFree machine machine := fun _ _ _ => rfl

theorem KeepsFree.trans (first : KeepsFree machine next) (second : KeepsFree next last)
    (grows : Grows next.phys last.phys) : KeepsFree machine last := by
  intro frame managed free
  have managedBefore := (grows.same.managed_iff frame).mp managed
  have less := grows.refcount frame managedBefore
  rw [second frame managed free]
  exact first frame managedBefore (Nat.le_zero.mp (free ▸ less))

theorem mapPage_keepsFree (mapped : Mapped machine held dirs tables) (isDir : pdir ∈ dirs)
    (bound : page < userPages) (ok : (mapPage machine pdir page fill).2.phys.Ok) :
    KeepsFree machine (mapPage machine pdir page fill).2 := by
  intro frame managed free
  have after := mapPage_mapped mapped isDir bound ok
  rcases after.counted.free_unused managed free with ⟨notHeld, notTable, -⟩
  have allocOk := ok_of_mapPage ok
  have spec := allocPage_spec mapped.counted.valid allocOk
  have notDir : frame ≠ pdir := fun same => notHeld (same ▸ mapped.subset isDir)
  have dirNotNew : pdir ≠ machine.phys.allocPage.1 := fun same =>
    (mapped.counted.allocPage allocOk).1 (same ▸ mapped.subset isDir)
  rw [mapPage_eq] at ok free ⊢
  have notFrame : frame ≠ machine.phys.allocPage.1 := by
    rintro rfl
    have grows := setPageTableEntry_grows (spec.2.2.2.same.valid mapped.counted.valid) ok
    have more := grows.refcount _ ((spec.2.2.2.same.managed_iff _).mpr spec.1)
    rw [spec.2.2.2.refcount _ spec.1, if_pos rfl] at more
    simp only at free
    omega
  unfold tablesWith at notTable
  unfold setPageTableEntry
  simp only [Function.update_of_ne dirNotNew] at notTable ⊢
  by_cases missing : pageAddr (machine.memory pdir (page / 1024)) = 0
  · rw [if_pos missing, Finset.mem_insert, not_or] at notTable
    rw [if_pos missing]
    simp only
    rw [setWord_frame_of_ne _ _ _ notTable.1, clearFrame_of_ne _ notTable.1,
      setWord_frame_of_ne _ _ _ notDir, Function.update_of_ne notFrame]
  · rw [if_neg missing] at notTable
    have isEntry : (pdir, page / 1024) ∈ directoryEntries dirs :=
      mem_directoryEntries.mpr ⟨isDir, div_lt_of_lt_userPages bound⟩
    have present : presentBit (machine.memory pdir (page / 1024)) = true := by
      by_contra absent
      rw [Bool.not_eq_true] at absent
      exact missing (mapped.links.blank _ isEntry absent)
    have notThis : frame ≠ pageAddr (machine.memory pdir (page / 1024)) := fun same =>
      notTable (same ▸ (mapped.links.linked _ isEntry present).1)
    rw [if_neg missing]
    simp only
    rw [setWord_frame_of_ne _ _ _ notThis, Function.update_of_ne notFrame]

theorem mapNextPage_loop_keepsFree (mapped : Mapped machine held dirs tables)
    (isDir : pdir ∈ dirs) {pageOf : Nat → Nat} {count : Nat}
    (bound : ∀ index < count, pageOf index < userPages)
    (ok : (loop count (mapNextPage pdir pageOf fill) (machine, [])).1.phys.Ok) :
    KeepsFree machine (loop count (mapNextPage pdir pageOf fill) (machine, [])).1 := by
  have rounds := loop_guarded (fun state : Machine × List Nat => state.1.phys.Ok)
    (motive := fun _ (state : Machine × List Nat) =>
      (∃ more, Mapped state.1 held dirs more) ∧ KeepsFree machine state.1)
    (fun _ _ => ok_of_mapNextPage) ok ⟨⟨tables, mapped⟩, .refl machine⟩ ?_
  · exact rounds.2
  · rintro index less state nextOk ⟨⟨more, before⟩, sofar⟩
    rw [mapNextPage_eq] at nextOk ⊢
    have below := bound index less
    refine ⟨⟨_, mapPage_mapped before isDir below nextOk⟩, ?_⟩
    exact sofar.trans (mapPage_keepsFree before isDir below nextOk)
      (mapPage_grows before.counted.valid nextOk)

end KeepsFree

section Processes

variable {held dirs tables : Finset Nat}

theorem growHeap_keepsFree (machine : Machine) (count : Nat) :
    KeepsFree machine (growHeap machine count) :=
  fun _ _ _ => rfl

theorem procCreate_keepsFree {system : System} (mapped : Mapped system.machine held dirs tables)
    {current : Nat} {growth : Growth} (ok : (procCreate system current growth).machine.phys.Ok) :
    KeepsFree system.machine (procCreate system current growth).machine ∧
      Grows system.machine.phys (procCreate system current growth).machine.phys := by
  rcases procCreate_steps system current growth with ⟨heap, ready, stacked, steps⟩
  have filled := steps.fillsDirectory mapped ok
  have maps := steps.maps mapped ok
  have loopOk := (steps.ok ok).2.2.2
  rw [steps.isStack, mapStackPage_eq] at loopOk
  have looped := mapNextPage_loop_keepsFree filled.mapped (Finset.mem_insert_self _ _)
    (fun index less => stack_lt less) loopOk
  rw [← mapStackPage_eq, ← steps.isStack] at looped
  rw [steps.isCreate] at ok ⊢
  rcases maps.mapped with ⟨more, stackMapped, -⟩
  have finalGrows := growHeap_grows stackMapped.counted.valid ok
  have directory : KeepsFree system.machine ready := by
    intro frame managed free
    have notDir : frame ≠ heap.phys.allocPage.1 := by
      rintro rfl
      have counted := (filled.mapped.counted.heldManaged _ (Finset.mem_insert_self _ _)).2
      omega
    exact filled.elsewhere frame notDir
  refine ⟨?_, (filled.grows.trans maps.grows).trans finalGrows⟩
  exact (directory.trans looped maps.grows).trans (growHeap_keepsFree _ _) finalGrows

end Processes

/-! ## How many frames are taken -/

/-- The frames that it takes to map these pages where nothing is mapped yet: one for each
page, and one for each table. -/
def framesFor (pages : List Nat) : Nat :=
  pages.length + (pages.map (· / 1024)).toFinset.card

/-- The pages have been mapped, one after the other, in a user half that was empty. -/
structure Laid (machine next : Machine) (pdir : Nat) (pages : List Nat) : Prop where
  phys : next.phys = (growHeap machine (framesFor pages)).phys
  linked : ∀ index < 768,
    pageAddr (next.memory pdir index) ≠ 0 ↔ index ∈ (pages.map (· / 1024)).toFinset

section Laid

variable {machine next : Machine} {held dirs tables : Finset Nat} {pdir page : Nat}
  {fill : (Nat → Nat) → Nat → Nat} {pages : List Nat}

theorem growHeap_succ (machine : Machine) (count : Nat) :
    (growHeap machine (count + 1)).phys = (growHeap machine count).phys.allocPage.2 := by
  unfold growHeap
  rw [loop_succ]

theorem framesFor_concat (pages : List Nat) (page : Nat) :
    framesFor (pages ++ [page]) = framesFor pages + 1 +
      if page / 1024 ∈ (pages.map (· / 1024)).toFinset then 0 else 1 := by
  unfold framesFor
  rw [List.map_append, List.map_singleton, List.toFinset_append, List.length_append,
    List.length_singleton, List.toFinset_cons, List.toFinset_nil, Finset.union_insert,
    Finset.union_empty]
  split
  case isTrue isOld =>
    rw [Finset.insert_eq_of_mem isOld]
    omega
  case isFalse isNew =>
    rw [Finset.card_insert_of_notMem isNew]
    omega

theorem laid_nil (mapped : Mapped machine held dirs tables) (isDir : pdir ∈ dirs)
    (absent : ∀ index < 768, presentBit (machine.memory pdir index) = false) :
    Laid machine machine pdir [] := by
  refine ⟨?_, fun index below => ?_⟩
  · unfold framesFor growHeap
    simp
  · have isEntry : (pdir, index) ∈ directoryEntries dirs :=
      mem_directoryEntries.mpr ⟨isDir, below⟩
    have blank : pageAddr (machine.memory pdir index) = 0 :=
      mapped.links.blank _ isEntry (absent index below)
    simp [blank]

theorem Laid.mapPage (laid : Laid machine next pdir pages) (mapped : Mapped next held dirs tables)
    (isDir : pdir ∈ dirs) (bound : page < userPages)
    (ok : (mapPage next pdir page fill).2.phys.Ok) :
    Laid machine (mapPage next pdir page fill).2 pdir (pages ++ [page]) := by
  have allocOk := ok_of_mapPage ok
  rcases mapped.counted.allocPage allocOk with ⟨notHeld, -, -, -, counted⟩
  have dirNotFrame : pdir ≠ next.phys.allocPage.1 := fun same =>
    notHeld (same ▸ mapped.subset isDir)
  have isUser := div_lt_of_lt_userPages bound
  have linked := laid.linked (page / 1024) isUser
  have places : ((pages ++ [page]).map (· / 1024)).toFinset =
      insert (page / 1024) (pages.map (· / 1024)).toFinset := by
    rw [List.map_append, List.map_singleton, List.toFinset_append, List.toFinset_cons,
      List.toFinset_nil, Finset.union_insert, Finset.union_empty]
  rw [mapPage_eq] at ok ⊢
  simp only
  by_cases missing : pageAddr (next.memory pdir (page / 1024)) = 0
  · have isNew : page / 1024 ∉ (pages.map (· / 1024)).toFinset := fun member =>
      linked.mpr member missing
    have tableOk : next.phys.allocPage.2.allocPage.2.Ok := by
      unfold setPageTableEntry at ok
      simp only [Function.update_of_ne dirNotFrame, missing, if_true] at ok
      exact ok
    have table := counted.allocPage tableOk
    have dirNotTable : pdir ≠ next.phys.allocPage.2.allocPage.1 := by
      intro same
      exact table.1 (Finset.mem_insert_of_mem (same ▸ mapped.subset isDir))
    have small := (allocPage_spec counted.valid tableOk).1.lt counted.valid
    unfold setPageTableEntry
    simp only [Function.update_of_ne dirNotFrame, missing, if_true]
    refine ⟨?_, fun index below => ?_⟩
    · rw [framesFor_concat, if_neg isNew, growHeap_succ, growHeap_succ, ← laid.phys]
    · simp only
      rw [setWord_frame_of_ne _ _ _ dirNotTable, clearFrame_of_ne _ dirNotTable, places,
        Finset.mem_insert]
      by_cases isPlace : index = page / 1024
      · subst isPlace
        rw [setWord_self, pageAddr_makeEntry _ _ small]
        exact iff_of_true table.2.2.2.1 (.inl rfl)
      · rw [setWord_of_ne _ _ (.inr isPlace), Function.update_of_ne dirNotFrame,
          laid.linked index below, or_iff_right isPlace]
  · have isOld := linked.mp missing
    have notTable : pdir ≠ pageAddr (next.memory pdir (page / 1024)) := by
      intro same
      have isEntry : (pdir, page / 1024) ∈ directoryEntries dirs :=
        mem_directoryEntries.mpr ⟨isDir, isUser⟩
      have present : presentBit (next.memory pdir (page / 1024)) = true := by
        by_contra absent
        rw [Bool.not_eq_true] at absent
        exact missing (mapped.links.blank _ isEntry absent)
      have isTable := (mapped.links.linked _ isEntry present).1
      simp only [wordAt, ← same] at isTable
      exact Finset.disjoint_left.mp mapped.counted.apart (mapped.subset isDir) isTable
    unfold setPageTableEntry
    simp only [Function.update_of_ne dirNotFrame, missing, if_false]
    refine ⟨?_, fun index below => ?_⟩
    · rw [framesFor_concat, if_pos isOld, growHeap_succ, ← laid.phys]
    · simp only
      rw [setWord_frame_of_ne _ _ _ notTable, Function.update_of_ne dirNotFrame, places,
        Finset.insert_eq_of_mem isOld, laid.linked index below]

theorem Laid.mapNextPage_loop (laid : Laid machine next pdir pages)
    (mapped : Mapped next held dirs tables) (isDir : pdir ∈ dirs) {pageOf : Nat → Nat} {count : Nat}
    (bound : ∀ index < count, pageOf index < userPages)
    (ok : (loop count (mapNextPage pdir pageOf fill) (next, [])).1.phys.Ok) :
    Laid machine (loop count (mapNextPage pdir pageOf fill) (next, [])).1 pdir
      (pages ++ (List.range count).map pageOf) := by
  have rounds := loop_guarded (fun state : Machine × List Nat => state.1.phys.Ok)
    (motive := fun index (state : Machine × List Nat) => (∃ more, Mapped state.1 held dirs more) ∧
      Laid machine state.1 pdir (pages ++ (List.range index).map pageOf))
    (fun _ _ => ok_of_mapNextPage) ok ⟨⟨tables, mapped⟩, by simpa using laid⟩ ?_
  · exact rounds.2
  · rintro index less state nextOk ⟨⟨more, before⟩, sofar⟩
    rw [mapNextPage_eq] at nextOk ⊢
    have below := bound index less
    refine ⟨⟨_, mapPage_mapped before isDir below nextOk⟩, ?_⟩
    rw [List.range_succ, List.map_append, List.map_singleton, ← List.append_assoc]
    exact sofar.mapPage before isDir below nextOk

end Laid

end Dbos.Paging

namespace Dbos.Loader

open Dbos.Loop Dbos.Paging Dbos.Execution Phys

section KeepsFree

variable {machine next : Machine} {held dirs tables : Finset Nat} {pdir : Nat} {file : File}

theorem copyFile_elsewhere {fileEnd : Nat} {physicals : List Nat} {start : Nat}
    (copied : copyFile file fileEnd physicals start machine = some next) {frame : Nat}
    (notMember : frame ∉ physicals) : next.memory frame = machine.memory frame := by
  induction physicals generalizing machine start with
  | nil =>
      unfold copyFile at copied
      by_cases more : start < fileEnd
      · rw [if_pos more] at copied
        cases copied
      · rw [if_neg more, Option.some.injEq] at copied
        rw [copied]
  | cons first rest induction =>
      unfold copyFile at copied
      rw [List.mem_cons, not_or] at notMember
      by_cases more : start < fileEnd
      · rw [if_pos more] at copied
        rw [induction copied notMember.2]
        exact Function.update_of_ne notMember.1 _ _
      · rw [if_neg more, Option.some.injEq] at copied
        rw [copied]

theorem loadSegment_keepsFree (mapped : Mapped machine held dirs tables) (isDir : pdir ∈ dirs)
    {segment : Phdr} (bounded : segment.Bounded)
    (inUserHalf : segment.Loadable → segment.InUserHalf)
    (loaded : loadSegment file pdir machine segment = some next) (ok : next.phys.Ok) :
    KeepsFree machine next := by
  by_cases loadable : segment.Loadable
  · have user := inUserHalf loadable
    rcases loadSegment_copied mapped isDir bounded loadable user loaded ok with
      ⟨state, isState, stateOk, isCopy, maps, -⟩
    have below : ∀ index < segment.sizeInPages, segment.page index < userPages := by
      intro index less
      rw [Phdr.page_eq user less]
      exact user.lt less
    have looped := mapNextPage_loop_keepsFree mapped isDir below (isState ▸ stateOk)
    rw [← isState] at looped
    have samePhys := phys_of_copyFile isCopy
    rcases maps.mapped with ⟨more, moreMapped, -⟩
    intro frame managed free
    rw [samePhys] at managed free
    rw [copyFile_elsewhere isCopy, looped frame managed free]
    intro member
    -- The frames of the segment are in use.
    rcases List.getElem?_of_mem member with ⟨index, isFrame⟩
    have less : index < segment.sizeInPages := by
      rw [← maps.length]
      exact (List.getElem?_eq_some_iff.mp isFrame).1
    rcases maps.frames index less with ⟨other, isOther, small, entry⟩
    rw [isFrame, Option.some.injEq] at isOther
    have spare := spare_of_userEntry moreMapped isDir (user.lt less) entry
    rw [pageAddr_makeEntry _ _ small, ← isOther] at spare
    have counted := spare.counted
    omega
  · unfold loadSegment at loaded
    rw [if_neg loadable, Option.some.injEq] at loaded
    rw [loaded]
    exact .refl next

theorem elfLoadExecutable_keepsFree (mapped : Mapped machine held dirs tables)
    (isDir : pdir ∈ dirs) {leftover : Leftover} (inUserHalf : SegmentsInUserHalf file leftover)
    (loaded : elfLoadExecutable file leftover pdir machine = some next) (ok : next.phys.Ok) :
    KeepsFree machine next := by
  rw [elfLoadExecutable_eq] at loaded
  have bounded : ∀ segment ∈ segmentsOf file leftover, segment.Bounded :=
    fun _ => bounded_of_mem_segmentsOf
  unfold SegmentsInUserHalf at inUserHalf
  generalize segmentsOf file leftover = segments at inUserHalf loaded bounded
  induction segments generalizing machine tables with
  | nil =>
      rw [List.foldlM_nil] at loaded
      exact Option.some.inj loaded ▸ .refl machine
  | cons segment rest induction =>
      rw [List.foldlM_cons] at loaded
      rcases Option.bind_eq_some_iff.mp loaded with ⟨middle, isMiddle, isRest⟩
      have restBounded : ∀ other ∈ rest, other.Bounded := fun _ member =>
        bounded _ (List.mem_cons_of_mem _ member)
      have restUser : ∀ other ∈ rest, other.Loadable → other.InUserHalf := fun _ member =>
        inUserHalf _ (List.mem_cons_of_mem _ member)
      have middleOk := ok_of_loadSegments isRest ok
      have first := loadSegment_keepsFree mapped isDir (bounded _ List.mem_cons_self)
        (inUserHalf _ List.mem_cons_self) isMiddle middleOk
      rcases (loadSegment_spec mapped isDir (bounded _ List.mem_cons_self)
        (inUserHalf _ List.mem_cons_self) isMiddle middleOk).mapped with ⟨more, middleMapped, -⟩
      have later := loadSegments_spec middleMapped isDir restBounded restUser isRest ok
      exact first.trans (induction middleMapped restUser isRest restBounded) later.grows

end KeepsFree

def segmentPages (segment : Phdr) : List Nat :=
  if segment.Loadable then (List.range segment.sizeInPages).map segment.page else []

/-- The pages of the executable and of the stack, in the order in which they are mapped. -/
def programPages (binary : File) (leftover : Leftover) : List Nat :=
  (segmentsOf binary leftover).flatMap segmentPages ++
    (List.range processStackPages).map (processStack + ·)

/-- The frame that is handed out for the arguments when the process has given up its address
space, and the executable and the stack have got their frames. -/
def argumentFrame (machine : Machine) (pdir growth : Nat) (binary : File) (leftover : Leftover) :
    Nat :=
  (growHeap (leaveAddressSpace machine pdir growth)
    (framesFor (programPages binary leftover))).phys.allocPage.1

section Laid

variable {start machine next : Machine} {held dirs tables : Finset Nat} {pdir : Nat} {file : File}
  {pages : List Nat}

theorem laid_loadSegment (laid : Laid start machine pdir pages)
    (mapped : Mapped machine held dirs tables) (isDir : pdir ∈ dirs) {segment : Phdr}
    (bounded : segment.Bounded) (inUserHalf : segment.Loadable → segment.InUserHalf)
    (loaded : loadSegment file pdir machine segment = some next) (ok : next.phys.Ok) :
    Laid start next pdir (pages ++ segmentPages segment) := by
  unfold segmentPages
  by_cases loadable : segment.Loadable
  · have user := inUserHalf loadable
    rcases loadSegment_copied mapped isDir bounded loadable user loaded ok with
      ⟨state, isState, stateOk, isCopy, maps, -⟩
    have below : ∀ index < segment.sizeInPages, segment.page index < userPages := by
      intro index less
      rw [Phdr.page_eq user less]
      exact user.lt less
    have looped := laid.mapNextPage_loop mapped isDir below (isState ▸ stateOk)
    rw [← isState] at looped
    rcases maps.mapped with ⟨more, moreMapped, -⟩
    have sameDir : next.memory pdir = state.1.memory pdir := by
      refine copyFile_elsewhere isCopy fun member => ?_
      -- The frames of the segment are not directories.
      rcases List.getElem?_of_mem member with ⟨index, isFrame⟩
      have less : index < segment.sizeInPages := by
        rw [← maps.length]
        exact (List.getElem?_eq_some_iff.mp isFrame).1
      rcases maps.frames index less with ⟨other, isOther, small, entry⟩
      rw [isFrame, Option.some.injEq] at isOther
      have spare := spare_of_userEntry moreMapped isDir (user.lt less) entry
      rw [pageAddr_makeEntry _ _ small, ← isOther] at spare
      exact spare.notHeld (mapped.subset isDir)
    rw [if_pos loadable]
    refine ⟨(phys_of_copyFile isCopy).trans looped.phys, fun index less => ?_⟩
    rw [sameDir]
    exact looped.linked index less
  · unfold loadSegment at loaded
    rw [if_neg loadable, Option.some.injEq] at loaded
    rw [if_neg loadable, List.append_nil]
    exact loaded ▸ laid

theorem laid_elfLoadExecutable (laid : Laid start machine pdir pages)
    (mapped : Mapped machine held dirs tables) (isDir : pdir ∈ dirs) {leftover : Leftover}
    (inUserHalf : SegmentsInUserHalf file leftover)
    (loaded : elfLoadExecutable file leftover pdir machine = some next) (ok : next.phys.Ok) :
    Laid start next pdir (pages ++ (segmentsOf file leftover).flatMap segmentPages) := by
  rw [elfLoadExecutable_eq] at loaded
  have bounded : ∀ segment ∈ segmentsOf file leftover, segment.Bounded :=
    fun _ => bounded_of_mem_segmentsOf
  unfold SegmentsInUserHalf at inUserHalf
  generalize segmentsOf file leftover = segments at inUserHalf loaded bounded ⊢
  induction segments generalizing machine tables pages with
  | nil =>
      rw [List.foldlM_nil] at loaded
      rw [List.flatMap_nil, List.append_nil]
      exact Option.some.inj loaded ▸ laid
  | cons segment rest induction =>
      rw [List.foldlM_cons] at loaded
      rcases Option.bind_eq_some_iff.mp loaded with ⟨middle, isMiddle, isRest⟩
      have middleOk := ok_of_loadSegments isRest ok
      have first := laid_loadSegment laid mapped isDir (bounded _ List.mem_cons_self)
        (inUserHalf _ List.mem_cons_self) isMiddle middleOk
      rcases (loadSegment_spec mapped isDir (bounded _ List.mem_cons_self)
        (inUserHalf _ List.mem_cons_self) isMiddle middleOk).mapped with ⟨more, middleMapped, -⟩
      rw [List.flatMap_cons, ← List.append_assoc]
      exact induction first middleMapped
        (fun _ member => inUserHalf _ (List.mem_cons_of_mem _ member)) isRest
        fun _ member => bounded _ (List.mem_cons_of_mem _ member)

theorem allocPage_argumentFrame (mapped : Mapped start held dirs tables) (isDir : pdir ∈ dirs)
    {growth : Nat} {leftover : Leftover} (inUserHalf : SegmentsInUserHalf file leftover)
    (loaded : elfLoadExecutable file leftover pdir (leaveAddressSpace start pdir growth) =
      some machine)
    (ok : (loop processStackPages (mapStackPage pdir) (machine, [])).1.phys.Ok) :
    (loop processStackPages (mapStackPage pdir) (machine, [])).1.phys.allocPage.1 =
      argumentFrame start pdir growth file leftover := by
  rw [mapStackPage_eq] at ok ⊢
  have loadOk := guard_of_loop (fun state : Machine × List Nat => state.1.phys.Ok)
    (fun _ _ => ok_of_mapNextPage) ok
  have leaveOk := ok_of_elfLoadExecutable loaded loadOk
  have grown := growHeap_mapped mapped ((removeAddressSpace_ok _ _).mp leaveOk)
  rcases removeAddressSpace_spec grown isDir with ⟨fewer, -, left, absent, -⟩
  rcases (elfLoadExecutable_spec left isDir inUserHalf loaded loadOk).mapped with
    ⟨more, loadMapped, -⟩
  have empty := laid_nil left isDir absent
  have image := laid_elfLoadExecutable empty left isDir inUserHalf loaded loadOk
  have stack := image.mapNextPage_loop loadMapped isDir (fun index less => stack_lt less) ok
  rw [stack.phys, List.nil_append]
  rfl

end Laid

end Dbos.Loader
