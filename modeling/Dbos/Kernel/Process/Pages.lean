import Dbos.Kernel.Memory.UserAccess

/-! # Mapping pages

The loops of `proc_create`, `elf_load_executable` and `sysc_sbrk` that give a
process one frame after the other. The kernel heap is given by the number of
frames that `kern_malloc` takes; they are mapped above `0xC0000000`, where no
process has pages. -/

namespace Dbos.Paging

open Dbos.Loop Phys

def growHeap (machine : Machine) (frames : Nat) : Machine :=
  { machine with phys := loop frames (fun phys _ => phys.allocPage.2) machine.phys }

def mapPage (machine : Machine) (pdir page : Nat) (fill : (Nat → Nat) → Nat → Nat) :
    Nat × Machine :=
  let (frame, phys) := machine.phys.allocPage
  let memory := Function.update machine.memory frame (fill (machine.memory frame))
  (frame, setPageTableEntry { memory, phys } pdir page frame 1 1)

/-- `memset_32` of the whole frame to 0. -/
def zeroFill (_ : Nat → Nat) : Nat → Nat := fun _ => 0

/-! ## One page -/

section Page

variable {machine : Machine} {held dirs tables : Finset Nat} {pdir page : Nat}

theorem Mapped.grow (mapped : Mapped machine held dirs tables) {next : Phys}
    (grows : Grows machine.phys next) : Mapped ⟨machine.memory, next⟩ held dirs tables :=
  ⟨mapped.counted.grow grows, mapped.links, mapped.subset⟩

theorem growHeap_grows (valid : machine.phys.Valid) {frames : Nat}
    (ok : (growHeap machine frames).phys.Ok) :
    Grows machine.phys (growHeap machine frames).phys := by
  unfold growHeap at ok ⊢
  refine loop_guarded Phys.Ok (motive := fun _ next => Grows machine.phys next)
    (fun _ _ => ok_of_allocPage) ok (.refl _) ?_
  intro index _ phys nextOk grows
  exact grows.trans (allocPage_grows (grows.same.valid valid) nextOk)

theorem ok_of_growHeap {frames : Nat} (ok : (growHeap machine frames).phys.Ok) :
    machine.phys.Ok :=
  guard_of_loop Phys.Ok (fun _ _ => ok_of_allocPage) ok

theorem growHeap_mapped (mapped : Mapped machine held dirs tables) {frames : Nat}
    (ok : (growHeap machine frames).phys.Ok) : Mapped (growHeap machine frames) held dirs tables :=
  mapped.grow (growHeap_grows mapped.counted.valid ok)

theorem mapPage_eq (machine : Machine) (pdir page : Nat) (fill : (Nat → Nat) → Nat → Nat) :
    mapPage machine pdir page fill = (machine.phys.allocPage.1,
      setPageTableEntry ⟨Function.update machine.memory machine.phys.allocPage.1
        (fill (machine.memory machine.phys.allocPage.1)), machine.phys.allocPage.2⟩ pdir page
        machine.phys.allocPage.1 1 1) := rfl

theorem ok_of_mapPage {fill : (Nat → Nat) → Nat → Nat}
    (ok : (mapPage machine pdir page fill).2.phys.Ok) : machine.phys.allocPage.2.Ok :=
  ok_of_setPageTableEntry ok

/-- The frame is mapped at the page, and nothing else has changed. Tables that have
been made were free before. -/
structure MapsPage (machine next : Machine) (held dirs tables : Finset Nat) (pdir page frame : Nat)
    (words : Nat → Nat) : Prop where
  mapped : ∃ more, Mapped next held dirs more ∧
    ∀ table ∈ more, table ∈ tables ∨ machine.phys.refcount table = 0
  entries : ∀ other ∈ dirs, ∀ otherPage < userPages, userEntry next.memory other otherPage =
    if other = pdir ∧ otherPage = page then some (makeEntry 1 1 frame)
    else userEntry machine.memory other otherPage
  words : ∀ other ∈ dirs, ∀ otherPage < userPages, pageWords next.memory other otherPage =
    if other = pdir ∧ otherPage = page then some words
    else pageWords machine.memory other otherPage

theorem mapPage_maps (mapped : Mapped machine held dirs tables) (isDir : pdir ∈ dirs)
    (bound : page < userPages) {fill : (Nat → Nat) → Nat → Nat}
    (ok : (mapPage machine pdir page fill).2.phys.Ok) :
    MapsPage machine (mapPage machine pdir page fill).2 held dirs tables pdir page
      machine.phys.allocPage.1 (fill (machine.memory machine.phys.allocPage.1)) := by
  have allocOk := ok_of_mapPage ok
  rcases mapped.counted.allocPage allocOk with ⟨notHeld, notTable, -, -, isHeld⟩
  rw [mapPage_eq] at ok ⊢
  generalize filled : Function.update machine.memory machine.phys.allocPage.1
    (fill (machine.memory machine.phys.allocPage.1)) = memory at ok ⊢
  have same : ∀ frame, frame ≠ machine.phys.allocPage.1 → memory frame = machine.memory frame := by
    intro frame isOld
    rw [← filled, Function.update_of_ne isOld]
  have sameDirs : ∀ dir ∈ dirs, memory dir = machine.memory dir := fun dir isOther =>
    same dir fun isNew => notHeld (isNew ▸ mapped.subset isOther)
  have keeps := keeps_of_elsewhere isHeld sameDirs fun frame isOther => same frame fun isNew =>
    isOther (isNew ▸ Finset.mem_insert_self _ _)
  have sameTable : ∀ table ∈ tables, memory table = machine.memory table := fun table isTable =>
    same table fun isNew => notTable (isNew ▸ isTable)
  have counted : Counted ⟨memory, machine.phys.allocPage.2⟩ (insert machine.phys.allocPage.1 held)
      tables (tableEntries tables) := by
    refine isHeld.congr fun slot isSlot => ?_
    exact congrFun (sameTable _ (mem_tableEntries.mp isSlot).1) slot.2
  rcases setPageTableEntry_spec counted (keeps.links mapped.links) mapped.subset notHeld isDir
    bound ok with ⟨final, changes⟩
  refine ⟨⟨_, final, fun table isTable => ?_⟩, fun other isOther otherPage otherBound => ?_,
    fun other isOther otherPage otherBound => ?_⟩
  · unfold tablesWith at isTable
    split at isTable
    case isTrue missing =>
      rcases Finset.mem_insert.mp isTable with isNew | isOld
      · have tableOk : machine.phys.allocPage.2.allocPage.2.Ok := by
          unfold setPageTableEntry at ok
          rw [if_pos missing] at ok
          exact ok
        have free := allocPage_spec counted.valid tableOk
        have grows := (allocPage_grows mapped.counted.valid allocOk)
        rw [isNew]
        have managed := (grows.same.managed_iff _).mp free.1
        have more := grows.refcount _ managed
        exact .inr (Nat.le_zero.mp (free.2.1 ▸ more))
      · exact .inl isOld
    case isFalse => exact .inl isTable
  · rw [(changes other isOther otherPage otherBound).1]
    have sameEntry : userEntry memory other otherPage =
        userEntry machine.memory other otherPage := by
      refine userEntry_congr (congrFun (sameDirs other isOther) _) fun present => ?_
      have isSlot := slotOf_mem mapped.links isOther otherBound present
      exact congrFun (sameTable _ (mem_tableEntries.mp isSlot).1) _
    rw [sameEntry]
  · rw [(changes other isOther otherPage otherBound).2,
      keeps.pageWords mapped.links isOther otherBound, ← filled, Function.update_self]

theorem mapPage_spec (mapped : Mapped machine held dirs tables) (isDir : pdir ∈ dirs)
    (bound : page < userPages) {fill : (Nat → Nat) → Nat → Nat}
    (ok : (mapPage machine pdir page fill).2.phys.Ok) :
    ∃ more, Mapped (mapPage machine pdir page fill).2 held dirs more ∧
      ∀ other ∈ dirs, ∀ otherPage < userPages,
        pageWords (mapPage machine pdir page fill).2.memory other otherPage =
          if other = pdir ∧ otherPage = page then
            some (fill (machine.memory machine.phys.allocPage.1))
          else pageWords machine.memory other otherPage := by
  have maps := mapPage_maps mapped isDir bound ok
  rcases maps.mapped with ⟨more, next, -⟩
  exact ⟨more, next, maps.words⟩

end Page

/-! ## What mapping a page leaves alone -/

/-- The frames that are held have kept their words, apart from the user half of
the directory. -/
def KeepsKernel (memory next : Memory) (held : Finset Nat) (pdir : Nat) : Prop :=
  ∀ frame ∈ held, ∀ index, frame ≠ pdir ∨ 768 ≤ index → next frame index = memory frame index

theorem KeepsKernel.refl (memory : Memory) (held : Finset Nat) (pdir : Nat) :
    KeepsKernel memory memory held pdir :=
  fun _ _ _ _ => rfl

theorem KeepsKernel.trans {memory next last : Memory} {held : Finset Nat} {pdir : Nat}
    (second : KeepsKernel next last held pdir) (first : KeepsKernel memory next held pdir) :
    KeepsKernel memory last held pdir := fun frame isHeld index outside =>
  (second frame isHeld index outside).trans (first frame isHeld index outside)

theorem KeepsKernel.write {memory : Memory} {held : Finset Nat} {frame : Nat}
    (notHeld : frame ∉ held) (pdir : Nat) (words : Nat → Nat) :
    KeepsKernel memory (Function.update memory frame words) held pdir := by
  intro other isHeld index _
  rw [Function.update_of_ne]
  rintro rfl
  exact notHeld isHeld

section Pages

variable {machine : Machine} {held dirs tables : Finset Nat} {pdir page : Nat}
  {fill : (Nat → Nat) → Nat → Nat}

theorem setPageTableEntry_grows {memory : Memory} {phys : Phys} (valid : phys.Valid)
    {frame present user : Nat}
    (ok : (setPageTableEntry ⟨memory, phys⟩ pdir page frame present user).phys.Ok) :
    Grows phys (setPageTableEntry ⟨memory, phys⟩ pdir page frame present user).phys := by
  unfold setPageTableEntry at ok ⊢
  simp only at ok ⊢
  split at ok
  case isTrue missing =>
    rw [if_pos missing]
    exact allocPage_grows valid ok
  case isFalse found =>
    rw [if_neg found]
    exact .refl phys

theorem mapPage_grows (valid : machine.phys.Valid)
    (ok : (mapPage machine pdir page fill).2.phys.Ok) :
    Grows machine.phys (mapPage machine pdir page fill).2.phys := by
  have allocGrows := allocPage_grows valid (ok_of_mapPage ok)
  rw [mapPage_eq] at ok ⊢
  exact allocGrows.trans (setPageTableEntry_grows (allocGrows.same.valid valid) ok)

theorem mapPage_frame (valid : machine.phys.Valid)
    (ok : (mapPage machine pdir page fill).2.phys.Ok) :
    machine.phys.Managed machine.phys.allocPage.1 ∧ machine.phys.allocPage.1 < frameCount := by
  have managed := (allocPage_spec valid (ok_of_mapPage ok)).1
  exact ⟨managed, managed.lt valid⟩

theorem mapPage_keepsKernel (mapped : Mapped machine held dirs tables) (isDir : pdir ∈ dirs)
    (bound : page < userPages) (ok : (mapPage machine pdir page fill).2.phys.Ok) :
    KeepsKernel machine.memory (mapPage machine pdir page fill).2.memory held pdir := by
  intro frame isHeld index outside
  have allocOk := ok_of_mapPage ok
  rcases mapped.counted.allocPage allocOk with ⟨notHeld, -, -, -, counted⟩
  have isUser := div_lt_of_lt_userPages bound
  have notFrame : frame ≠ machine.phys.allocPage.1 := fun same => notHeld (same ▸ isHeld)
  have dirNotFrame : pdir ≠ machine.phys.allocPage.1 := fun same =>
    notHeld (same ▸ mapped.subset isDir)
  rw [mapPage_eq] at ok ⊢
  simp only
  by_cases missing : pageAddr (machine.memory pdir (page / 1024)) = 0
  · have tableOk : machine.phys.allocPage.2.allocPage.2.Ok := by
      unfold setPageTableEntry at ok
      simp only [Function.update_of_ne dirNotFrame, missing, if_true] at ok
      exact ok
    have notNew : frame ≠ machine.phys.allocPage.2.allocPage.1 := by
      rintro rfl
      exact (counted.allocPage tableOk).1 (Finset.mem_insert_of_mem isHeld)
    unfold setPageTableEntry
    simp only [Function.update_of_ne dirNotFrame, missing, if_true]
    rw [setWord_frame_of_ne _ _ _ notNew, clearFrame_of_ne _ notNew, setWord_of_ne,
      Function.update_of_ne notFrame]
    exact outside.imp_right fun above => by omega
  · have notTable : frame ≠ pageAddr (machine.memory pdir (page / 1024)) := by
      rintro rfl
      have isEntry : (pdir, page / 1024) ∈ directoryEntries dirs :=
        mem_directoryEntries.mpr ⟨isDir, isUser⟩
      have present : presentBit (machine.memory pdir (page / 1024)) = true := by
        by_contra absent
        rw [Bool.not_eq_true] at absent
        exact missing (mapped.links.blank _ isEntry absent)
      exact Finset.disjoint_left.mp mapped.counted.apart isHeld
        (mapped.links.linked _ isEntry present).1
    unfold setPageTableEntry
    simp only [Function.update_of_ne dirNotFrame, missing, if_false]
    rw [setWord_frame_of_ne _ _ _ notTable, Function.update_of_ne notFrame]

theorem removeAddressSpace_keepsKernel (mapped : Mapped machine held dirs tables)
    (isDir : pdir ∈ dirs) :
    KeepsKernel machine.memory (removeAddressSpace machine pdir).memory held pdir := by
  rcases removeAddressSpace_spec mapped isDir with ⟨fewer, -, -, -, kernel, elsewhere⟩
  intro frame isHeld index outside
  by_cases isOwn : frame = pdir
  · subst isOwn
    exact kernel index (outside.resolve_left fun different => different rfl)
  · refine congrFun (elsewhere frame isOwn fun gone => ?_) index
    exact Finset.disjoint_left.mp mapped.counted.apart isHeld (Finset.mem_sdiff.mp gone).1

end Pages

/-! ## Operations on one address space -/

/-- One process sees the given bytes, and nobody else sees a difference. Tables that
have been made were free before. -/
structure Alters (machine next : Machine) (held dirs tables : Finset Nat) (pdir : Nat)
    (bytes : Nat → Option UInt8) : Prop where
  mapped : ∃ more, Mapped next held dirs more ∧
    ∀ table ∈ more, table ∈ tables ∨ machine.phys.refcount table = 0
  grows : Grows machine.phys next.phys
  kernel : KeepsKernel machine.memory next.memory held pdir
  own : ∀ address < userEnd, userLoad next.memory pdir address = bytes address
  others : ∀ other ∈ dirs, other ≠ pdir → ∀ address < userEnd,
    userLoad next.memory other address = userLoad machine.memory other address

section Alters

variable {machine next last : Machine} {held dirs tables : Finset Nat} {pdir : Nat}
  {bytes nextBytes : Nat → Option UInt8}

theorem Alters.refl (mapped : Mapped machine held dirs tables) (pdir : Nat) :
    Alters machine machine held dirs tables pdir (userLoad machine.memory pdir) :=
  ⟨⟨tables, mapped, fun _ isTable => .inl isTable⟩, .refl _, .refl _ _ _, fun _ _ => rfl,
    fun _ _ _ _ _ => rfl⟩

theorem Alters.congr (alters : Alters machine next held dirs tables pdir bytes)
    (same : ∀ address < userEnd, nextBytes address = bytes address) :
    Alters machine next held dirs tables pdir nextBytes :=
  ⟨alters.mapped, alters.grows, alters.kernel,
    fun address bound => (alters.own address bound).trans (same address bound).symm,
    alters.others⟩

theorem fresh_trans (first : Grows machine.phys next.phys) (second : Grows next.phys last.phys)
    {some more : Finset Nat} (final : Mapped last held dirs more)
    (fresh : ∀ table ∈ some, table ∈ tables ∨ machine.phys.refcount table = 0)
    (moreFresh : ∀ table ∈ more, table ∈ some ∨ next.phys.refcount table = 0) :
    ∀ table ∈ more, table ∈ tables ∨ machine.phys.refcount table = 0 := by
  intro table isTable
  rcases moreFresh table isTable with isOld | free
  · exact fresh table isOld
  · have managed := (final.counted.tableManaged table isTable).1
    have managedBefore := ((first.trans second).same.managed_iff table).mp managed
    have less := first.refcount table managedBefore
    exact .inr (Nat.le_zero.mp (free ▸ less))

theorem Alters.trans (alters : Alters machine next held dirs tables pdir bytes)
    (alsoAlters : ∀ some, Mapped next held dirs some →
      Alters next last held dirs some pdir nextBytes) :
    Alters machine last held dirs tables pdir nextBytes := by
  rcases alters.mapped with ⟨some, mapped, fresh⟩
  have second := alsoAlters some mapped
  rcases second.mapped with ⟨more, final, moreFresh⟩
  refine ⟨⟨more, final, fresh_trans alters.grows second.grows final fresh moreFresh⟩,
    alters.grows.trans second.grows, second.kernel.trans alters.kernel, second.own, ?_⟩
  intro other isOther different address bound
  rw [second.others other isOther different address bound]
  exact alters.others other isOther different address bound

end Alters

/-! ## The loop -/

/-- One round of a loop that maps pages; the frames are collected. -/
def mapNextPage (pdir : Nat) (pageOf : Nat → Nat) (fill : (Nat → Nat) → Nat → Nat)
    (state : Machine × List Nat) (index : Nat) : Machine × List Nat :=
  let (frame, machine) := mapPage state.1 pdir (pageOf index) fill
  (machine, state.2 ++ [frame])

/-- The pages from `first` on have been given frames. -/
structure MapsPages (machine : Machine) (state : Machine × List Nat) (held dirs tables : Finset Nat)
    (pdir first count : Nat) (fill : (Nat → Nat) → Nat → Nat) : Prop where
  mapped : ∃ more, Mapped state.1 held dirs more ∧
    ∀ table ∈ more, table ∈ tables ∨ machine.phys.refcount table = 0
  grows : Grows machine.phys state.1.phys
  kernel : KeepsKernel machine.memory state.1.memory held pdir
  length : state.2.length = count
  frames : ∀ index < count, ∃ frame, state.2[index]? = some frame ∧ frame < frameCount ∧
    userEntry state.1.memory pdir (first + index) = some (makeEntry 1 1 frame)
  inside : ∀ index < count, ∃ old, (index = 0 → old = machine.memory machine.phys.allocPage.1) ∧
    pageWords state.1.memory pdir (first + index) = some (fill old)
  outside : ∀ other ∈ dirs, ∀ page < userPages,
    ¬(other = pdir ∧ first ≤ page ∧ page < first + count) →
    userEntry state.1.memory other page = userEntry machine.memory other page ∧
      pageWords state.1.memory other page = pageWords machine.memory other page

section Loop

variable {machine : Machine} {held dirs tables : Finset Nat} {pdir first count : Nat}
  {fill : (Nat → Nat) → Nat → Nat} {state : Machine × List Nat} {pageOf : Nat → Nat}

theorem mapNextPage_eq (state : Machine × List Nat) (index : Nat) :
    mapNextPage pdir pageOf fill state index =
      ((mapPage state.1 pdir (pageOf index) fill).2,
        state.2 ++ [state.1.phys.allocPage.1]) := rfl

theorem ok_of_mapNextPage {index : Nat} (ok : (mapNextPage pdir pageOf fill state index).1.phys.Ok) :
    state.1.phys.Ok :=
  ok_of_allocPage (ok_of_mapPage ok)

theorem mapsPages_initial (mapped : Mapped machine held dirs tables) (pdir first : Nat)
    (fill : (Nat → Nat) → Nat → Nat) :
    MapsPages machine (machine, []) held dirs tables pdir first 0 fill :=
  ⟨⟨tables, mapped, fun _ isTable => .inl isTable⟩, .refl _, .refl _ _ _, rfl,
    fun _ less => absurd less (Nat.not_lt_zero _), fun _ less => absurd less (Nat.not_lt_zero _),
    fun _ _ _ _ _ => ⟨rfl, rfl⟩⟩

theorem MapsPages.next (maps : MapsPages machine state held dirs tables pdir first count fill)
    (isDir : pdir ∈ dirs) (isPage : pageOf count = first + count)
    (bound : first + count < userPages) (initial : count = 0 → state.1 = machine)
    (ok : (mapNextPage pdir pageOf fill state count).1.phys.Ok) :
    MapsPages machine (mapNextPage pdir pageOf fill state count) held dirs tables pdir first
      (count + 1) fill := by
  rcases maps.mapped with ⟨tables', mapped, fresh⟩
  rw [mapNextPage_eq, isPage] at ok ⊢
  have one := mapPage_maps mapped isDir bound ok
  have unchanged : ∀ index < count, ¬(pdir = pdir ∧ first + index = first + count) := by
    rintro index less ⟨-, same⟩
    omega
  have less : ∀ index < count, first + index < userPages := fun index below => by omega
  refine ⟨?_, ?_, ?_, ?_, ?_, ?_, ?_⟩
  · rcases one.mapped with ⟨more, final, moreFresh⟩
    exact ⟨more, final, fresh_trans maps.grows (mapPage_grows mapped.counted.valid ok) final fresh
      moreFresh⟩
  · exact maps.grows.trans (mapPage_grows mapped.counted.valid ok)
  · exact (mapPage_keepsKernel mapped isDir bound ok).trans maps.kernel
  · rw [List.length_append, maps.length]
    rfl
  · intro index below
    by_cases isLast : index = count
    · subst isLast
      refine ⟨_, ?_, (mapPage_frame mapped.counted.valid ok).2, ?_⟩
      · rw [← maps.length, List.getElem?_concat_length]
      · rw [one.entries pdir isDir _ bound, if_pos ⟨rfl, rfl⟩]
    · have earlier : index < count := by omega
      rcases maps.frames index earlier with ⟨frame, isFrame, small, entry⟩
      refine ⟨frame, ?_, small, ?_⟩
      · rw [List.getElem?_append_left (by rw [maps.length]; exact earlier)]
        exact isFrame
      · rw [one.entries pdir isDir _ (less index earlier), if_neg (unchanged index earlier)]
        exact entry
  · intro index below
    by_cases isLast : index = count
    · subst isLast
      refine ⟨state.1.memory state.1.phys.allocPage.1, fun isFirst => ?_, ?_⟩
      · rw [initial isFirst]
      · rw [one.words pdir isDir _ bound, if_pos ⟨rfl, rfl⟩]
    · have earlier : index < count := by omega
      rcases maps.inside index earlier with ⟨old, isOld, words⟩
      refine ⟨old, isOld, ?_⟩
      rw [one.words pdir isDir _ (less index earlier), if_neg (unchanged index earlier)]
      exact words
  · intro other isOther page pageBound notInside
    have notPage : ¬(other = pdir ∧ page = first + count) := by
      rintro ⟨sameDir, samePage⟩
      exact notInside ⟨sameDir, by omega, by omega⟩
    have before := maps.outside other isOther page pageBound fun both =>
      notInside ⟨both.1, both.2.1, by omega⟩
    rw [one.entries other isOther page pageBound, one.words other isOther page pageBound,
      if_neg notPage, if_neg notPage]
    exact before

theorem mapsPages_loop (mapped : Mapped machine held dirs tables) (isDir : pdir ∈ dirs)
    (isPage : ∀ index < count, pageOf index = first + index)
    (bound : ∀ index < count, first + index < userPages)
    (ok : (loop count (mapNextPage pdir pageOf fill) (machine, [])).1.phys.Ok) :
    MapsPages machine (loop count (mapNextPage pdir pageOf fill) (machine, [])) held dirs tables
      pdir first count fill := by
  have both := loop_guarded (fun state : Machine × List Nat => state.1.phys.Ok)
    (motive := fun index (state : Machine × List Nat) =>
      MapsPages machine state held dirs tables pdir first index fill ∧
        (index = 0 → state.1 = machine))
    (fun _ _ => ok_of_mapNextPage) ok ⟨mapsPages_initial mapped pdir first fill, fun _ => rfl⟩ ?_
  · exact both.1
  · rintro index less state nextOk ⟨maps, initial⟩
    exact ⟨maps.next isDir (isPage index less) (bound index less) initial nextOk,
      fun isZero => absurd isZero (Nat.succ_ne_zero _)⟩

end Loop

end Dbos.Paging
