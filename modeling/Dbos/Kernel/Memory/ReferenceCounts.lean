import Mathlib.Algebra.BigOperators.Intervals
import Mathlib.Algebra.Order.BigOperators.Group.Finset
import Dbos.Kernel.Memory.Fork
import Dbos.Kernel.Memory.FrameAllocation

/-! # References that are taken and given back

The exact counts after `clone_page_structures` and after `nuke_page_directory`, at
every slot of the table of counts. -/

namespace Dbos.Paging

open Dbos.Loop Phys

/-! ## The slots -/

/-- `alloc_phys_increase_refcount`, as it acts on a count. -/
def raised (count : Nat) : Nat := if count = 0 then 0 else (count + 1) % 256

section Slots

variable (phys : Phys) (frame slot : Nat)

theorem increaseRefcount_allocations :
    (phys.increaseRefcount frame).allocations slot =
      if phys.addrToIndex frame = some slot then raised (phys.allocations slot)
      else phys.allocations slot := by
  unfold increaseRefcount raised
  cases isIndex : phys.addrToIndex frame with
  | none => simp
  | some index =>
      simp only [Option.some.injEq]
      by_cases same : index = slot
      · subst same
        by_cases free : phys.allocations index = 0
        · simp [free]
        · have positive : phys.allocations index ≥ 1 := by omega
          simp [free, positive, setCount]
      · rw [if_neg same]
        split
        · exact Function.update_of_ne (Ne.symm same) _ _
        · rfl

theorem free_allocations : (phys.free frame).allocations slot =
    if phys.addrToIndex frame = some slot then 0 else phys.allocations slot := by
  unfold Phys.free
  cases isIndex : phys.addrToIndex frame with
  | none => simp
  | some index =>
      simp only [Option.some.injEq, setCount, Function.update_apply]
      exact if_congr eq_comm rfl rfl

theorem releaseFrame_allocations : (releaseFrame phys frame).allocations slot =
    if phys.addrToIndex frame = some slot then phys.allocations slot - 1
    else phys.allocations slot := by
  unfold releaseFrame
  split
  case isTrue one =>
    rw [free_allocations]
    refine if_ctx_congr Iff.rfl (fun isIndex => ?_) fun _ => rfl
    unfold getRefcount at one
    rw [isIndex] at one
    simp only at one
    omega
  case isFalse =>
    unfold decreaseRefcount
    cases isIndex : phys.addrToIndex frame with
    | none => simp
    | some index =>
        simp only [Option.some.injEq]
        by_cases same : index = slot
        · subst same
          by_cases free : phys.allocations index = 0
          · simp [free]
          · simp [Nat.pos_of_ne_zero free, setCount]
        · rw [if_neg same]
          split
          · exact Function.update_of_ne (Ne.symm same) _ _
          · rfl

theorem increaseRefcount_same : SameFrames (phys.increaseRefcount frame) phys := by
  unfold increaseRefcount
  split
  · exact ⟨rfl, rfl, rfl⟩
  · split <;> exact ⟨rfl, rfl, rfl⟩

theorem free_same : SameFrames (phys.free frame) phys := by
  unfold Phys.free
  split <;> exact ⟨rfl, rfl, rfl⟩

theorem releaseFrame_same : SameFrames (releaseFrame phys frame) phys := by
  unfold releaseFrame decreaseRefcount
  split
  · exact free_same phys frame
  · split
    · exact ⟨rfl, rfl, rfl⟩
    · split <;> exact ⟨rfl, rfl, rfl⟩

end Slots

/-! ## References -/

def Names (phys : Phys) (entry slot : Nat) : Prop :=
  presentBit entry = true ∧ phys.addrToIndex (pageAddr entry) = some slot

instance (phys : Phys) (entry slot : Nat) : Decidable (Names phys entry slot) :=
  inferInstanceAs (Decidable (_ ∧ _))

/-- How many of the first `count` entries of the table name the frame of the slot. -/
def tableReferences (phys : Phys) (memory : Memory) (table count slot : Nat) : Nat :=
  ∑ place ∈ Finset.range count, if Names phys (memory table place) slot then 1 else 0

/-- The references in the tables of the first `count` entries of the directory. -/
def references (phys : Phys) (memory : Memory) (directory count slot : Nat) : Nat :=
  ∑ place ∈ Finset.range count,
    if presentBit (memory directory place) then
      tableReferences phys memory (pageAddr (memory directory place)) 1024 slot
    else 0

section References

variable {phys other : Phys} {memory : Memory}

theorem Names.congr {entry word slot : Nat} (alike : Alike entry word) :
    Names phys entry slot ↔ Names phys word slot := by
  unfold Names
  rw [alike.present]
  constructor
  · intro ⟨present, isSlot⟩
    rw [alike.frame present] at isSlot
    exact ⟨present, isSlot⟩
  · intro ⟨present, isSlot⟩
    rw [alike.frame present]
    exact ⟨present, isSlot⟩

theorem names_of_same (same : SameFrames phys other) (entry slot : Nat) :
    Names phys entry slot ↔ Names other entry slot := by
  unfold Names
  rw [same.addrToIndex_eq]

theorem tableReferences_succ (phys : Phys) (memory : Memory) (table count slot : Nat) :
    tableReferences phys memory table (count + 1) slot =
      tableReferences phys memory table count slot +
        if Names phys (memory table count) slot then 1 else 0 :=
  Finset.sum_range_succ _ _

theorem references_succ (phys : Phys) (memory : Memory) (directory count slot : Nat) :
    references phys memory directory (count + 1) slot =
      references phys memory directory count slot +
        if presentBit (memory directory count) then
          tableReferences phys memory (pageAddr (memory directory count)) 1024 slot
        else 0 :=
  Finset.sum_range_succ _ _

theorem tableReferences_congr {next : Memory} {table source count : Nat}
    (alike : ∀ place < count, Alike (next table place) (memory source place)) (slot : Nat) :
    tableReferences phys next table count slot = tableReferences phys memory source count slot := by
  apply Finset.sum_congr rfl
  intro place member
  exact if_congr (Names.congr (alike place (Finset.mem_range.mp member))) rfl rfl

theorem tableReferences_of_same (same : SameFrames phys other) (memory : Memory)
    (table count slot : Nat) :
    tableReferences phys memory table count slot = tableReferences other memory table count slot := by
  apply Finset.sum_congr rfl
  intro place _
  exact if_congr (names_of_same same _ _) rfl rfl

theorem references_of_same (same : SameFrames phys other) (memory : Memory)
    (directory count slot : Nat) :
    references phys memory directory count slot = references other memory directory count slot := by
  apply Finset.sum_congr rfl
  intro place _
  exact if_congr Iff.rfl (tableReferences_of_same same _ _ _ _) rfl

theorem tableReferences_mono (phys : Phys) (memory : Memory) (table : Nat) {count more : Nat}
    (less : count ≤ more) (slot : Nat) :
    tableReferences phys memory table count slot ≤ tableReferences phys memory table more slot :=
  Finset.sum_le_sum_of_subset (Finset.range_mono less)

theorem references_mono (phys : Phys) (memory : Memory) (directory : Nat) {count more : Nat}
    (less : count ≤ more) (slot : Nat) :
    references phys memory directory count slot ≤ references phys memory directory more slot :=
  Finset.sum_le_sum_of_subset (Finset.range_mono less)

end References

/-! ## Giving references back -/

/-- One of the first `count` entries of the directory leads to the frame of the slot. -/
def LeadsTo (phys : Phys) (memory : Memory) (directory count slot : Nat) : Prop :=
  ∃ place < count, Names phys (memory directory place) slot

/-- The `Freed` slots are free, and the others have lost some references. -/
structure Lowered (machine next : Machine) (Freed : Nat → Prop) (lost : Nat → Nat) : Prop where
  memory : next.memory = machine.memory
  same : SameFrames next.phys machine.phys
  freed : ∀ slot, Freed slot → next.phys.allocations slot = 0
  kept : ∀ slot, ¬Freed slot →
    next.phys.allocations slot = machine.phys.allocations slot - lost slot

section Nuke

variable {machine next : Machine} {Freed : Nat → Prop} {lost : Nat → Nat}

theorem Lowered.release (lowered : Lowered machine next Freed lost) (frame : Nat) :
    Lowered machine { next with phys := releaseFrame next.phys frame } Freed fun slot =>
      lost slot + if machine.phys.addrToIndex frame = some slot then 1 else 0 := by
  refine ⟨lowered.memory, (releaseFrame_same _ _).trans lowered.same, fun slot isFreed => ?_,
    fun slot notFreed => ?_⟩
  · rw [releaseFrame_allocations, lowered.freed slot isFreed]
    exact ite_self 0
  · rw [releaseFrame_allocations, lowered.kept slot notFreed, lowered.same.addrToIndex_eq]
    split <;> omega

theorem Lowered.free (lowered : Lowered machine next Freed lost) (frame : Nat) :
    Lowered machine { next with phys := next.phys.free frame }
      (fun slot => Freed slot ∨ machine.phys.addrToIndex frame = some slot) lost := by
  refine ⟨lowered.memory, (free_same _ _).trans lowered.same, fun slot isFreed => ?_,
    fun slot notFreed => ?_⟩
  · rw [free_allocations, lowered.same.addrToIndex_eq]
    rcases isFreed with old | isFrame
    · rw [lowered.freed slot old]
      exact ite_self 0
    · rw [if_pos isFrame]
  · rw [not_or] at notFreed
    rw [free_allocations, lowered.same.addrToIndex_eq, if_neg notFreed.2,
      lowered.kept slot notFreed.1]

theorem nukeEntry_loop_lowered (lowered : Lowered machine next Freed lost) (ptab : Nat) :
    Lowered machine (loop 1024 (nukeEntry ptab) next) Freed fun slot =>
      lost slot + tableReferences machine.phys machine.memory ptab 1024 slot := by
  refine loop_invariant (motive := fun count (next : Machine) => Lowered machine next Freed
    fun slot => lost slot + tableReferences machine.phys machine.memory ptab count slot) ?_ ?_
  · exact lowered
  · intro count _ next sofar
    unfold nukeEntry
    simp only [tableReferences_succ, sofar.memory, ← Nat.add_assoc]
    by_cases present : presentBit (machine.memory ptab count) = true
    · have released := sofar.release (pageAddr (machine.memory ptab count))
      simp only [Names, present, if_true, true_and]
      simp only [sofar.memory] at released
      exact released
    · simp only [Names, present, Bool.false_eq_true, false_and, if_false, Nat.add_zero]
      exact sofar

theorem nukeDirectoryEntry_lowered {pageDir count : Nat}
    (lowered : Lowered machine next (LeadsTo machine.phys machine.memory pageDir count)
      (references machine.phys machine.memory pageDir count)) :
    Lowered machine (nukeDirectoryEntry pageDir next count)
      (LeadsTo machine.phys machine.memory pageDir (count + 1))
      (references machine.phys machine.memory pageDir (count + 1)) := by
  have leads : ∀ slot, LeadsTo machine.phys machine.memory pageDir (count + 1) slot ↔
      LeadsTo machine.phys machine.memory pageDir count slot ∨
        Names machine.phys (machine.memory pageDir count) slot := fun slot =>
    Nat.exists_lt_succ_right
  have more : references machine.phys machine.memory pageDir (count + 1) = fun slot =>
      references machine.phys machine.memory pageDir count slot +
        if presentBit (machine.memory pageDir count) then
          tableReferences machine.phys machine.memory (pageAddr (machine.memory pageDir count)) 1024
            slot
        else 0 :=
    funext fun slot => references_succ _ _ _ _ _
  rw [funext fun slot => propext (leads slot), more]
  by_cases present : presentBit (machine.memory pageDir count) = true
  · rw [nukeDirectoryEntry_of_present (by rw [lowered.memory, present])]
    have freed := (nukeEntry_loop_lowered lowered
      (pageAddr (next.memory pageDir count))).free (pageAddr (next.memory pageDir count))
    simp only [lowered.memory] at freed ⊢
    simp only [Names, present, if_true, true_and]
    exact freed
  · rw [nukeDirectoryEntry_of_absent (by rw [lowered.memory]; exact present)]
    simp only [Names, present, Bool.false_eq_true, false_and, or_false, if_false, Nat.add_zero]
    exact lowered

theorem nukePageDirectory_lowered (machine : Machine) (pageDir : Nat) :
    Lowered machine (nukePageDirectory machine pageDir)
      (fun slot => LeadsTo machine.phys machine.memory pageDir 768 slot ∨
        machine.phys.addrToIndex pageDir = some slot)
      (references machine.phys machine.memory pageDir 768) := by
  have looped : Lowered machine (loop 768 (nukeDirectoryEntry pageDir) machine)
      (LeadsTo machine.phys machine.memory pageDir 768)
      (references machine.phys machine.memory pageDir 768) := by
    refine loop_invariant (motive := fun count (next : Machine) => Lowered machine next
      (LeadsTo machine.phys machine.memory pageDir count)
      (references machine.phys machine.memory pageDir count)) ?_ ?_
    · refine ⟨rfl, ⟨rfl, rfl, rfl⟩, fun slot => ?_, fun slot _ => rfl⟩
      rintro ⟨place, less, -⟩
      exact absurd less (Nat.not_lt_zero _)
    · intro count _ next sofar
      exact nukeDirectoryEntry_lowered sofar
  exact looped.free pageDir

end Nuke

/-! ## Taking frames and references -/

def InUse (phys : Phys) (frame : Nat) : Prop :=
  ∃ slot, phys.addrToIndex frame = some slot ∧ phys.allocations slot ≠ 0

/-- Frames have been taken for the kernel heap and for page structures, and the frames
in use have gained references. -/
structure Takes (phys next : Phys) (heap tables : Finset Nat) (gained : Nat → Nat) : Prop where
  same : SameFrames next phys
  apart : Disjoint heap tables
  wasFree : ∀ slot ∈ heap ∪ tables, phys.allocations slot = 0
  taken : ∀ slot ∈ heap ∪ tables, next.allocations slot = 1
  free : ∀ slot, phys.allocations slot = 0 → slot ∉ heap ∪ tables → next.allocations slot = 0
  used : ∀ slot, phys.allocations slot ≠ 0 →
    next.allocations slot = phys.allocations slot + gained slot

section Takes

variable {phys next : Phys} {heap tables : Finset Nat} {gained : Nat → Nat}

theorem Takes.refl (phys : Phys) : Takes phys phys ∅ ∅ fun _ => 0 :=
  ⟨⟨rfl, rfl, rfl⟩, Finset.disjoint_empty_left _, fun slot member => by simp at member,
    fun slot member => by simp at member, fun slot free _ => free, fun slot _ => rfl⟩

theorem Takes.notTaken (takes : Takes phys next heap tables gained) {slot : Nat}
    (isFree : next.allocations slot = 0) :
    slot ∉ heap ∪ tables ∧ phys.allocations slot = 0 := by
  refine ⟨fun member => ?_, ?_⟩
  · have one := takes.taken slot member
    omega
  · by_contra inUse
    have more := takes.used slot inUse
    omega

theorem allocPage_of_notFailed (valid : phys.Valid) (notFailed : phys.allocPage.2.failed = false) :
    ∃ slot, phys.allocations slot = 0 ∧ phys.addrToIndex phys.allocPage.1 = some slot ∧
      phys.allocPage.1 < frameCount ∧ SameFrames phys.allocPage.2 phys ∧
      phys.allocPage.2.allocations = Function.update phys.allocations slot 1 := by
  rcases allocPage_cases valid with ⟨slot, bound, free, -, isFrame, counts⟩ | ⟨full, -, -⟩
  · refine ⟨slot, free, ?_, ?_, allocPage_same valid, counts⟩
    · rw [isFrame]
      exact addrToIndex_indexToAddr valid bound
    · exact Managed.lt valid ⟨slot, bound, isFrame.symm⟩
  · exfalso
    have notFound : ((List.range phys.totalUsablePages).find? fun index =>
        phys.allocations index = 0) = none := by
      rw [List.find?_eq_none]
      intro index member
      simpa using full index (List.mem_range.mp member)
    unfold allocPage at notFailed
    simp only [firstFreed_of_valid valid, notFound] at notFailed
    cases notFailed

theorem Takes.heapFrame (takes : Takes phys next heap tables gained) {slot : Nat}
    (isFree : next.allocations slot = 0) {after : Phys} (same : SameFrames after next)
    (counts : after.allocations = Function.update next.allocations slot 1) :
    Takes phys after (insert slot heap) tables gained := by
  rcases takes.notTaken isFree with ⟨notTaken, wasFree⟩
  rw [Finset.mem_union, not_or] at notTaken
  have taken : ∀ other ∈ insert slot heap ∪ tables, other = slot ∨ other ∈ heap ∪ tables := by
    intro other member
    rwa [Finset.insert_union, Finset.mem_insert] at member
  refine ⟨same.trans takes.same, ?_, fun other member => ?_, fun other member => ?_,
    fun other free outside => ?_, fun other inUse => ?_⟩
  · rw [Finset.disjoint_insert_left]
    exact ⟨notTaken.2, takes.apart⟩
  · rcases taken other member with rfl | old
    · exact wasFree
    · exact takes.wasFree other old
  · rw [counts]
    rcases taken other member with rfl | old
    · exact Function.update_self _ _ _
    · rw [Function.update_of_ne, takes.taken other old]
      rintro rfl
      rw [takes.taken other old] at isFree
      cases isFree
  · rw [Finset.insert_union, Finset.mem_insert, not_or] at outside
    rw [counts, Function.update_of_ne outside.1, takes.free other free outside.2]
  · have different : other ≠ slot := fun isSlot => inUse (isSlot ▸ wasFree)
    rw [counts, Function.update_of_ne different, takes.used other inUse]

theorem Takes.move (takes : Takes phys next (insert slot heap) tables gained)
    (notHeap : slot ∉ heap) : Takes phys next heap (insert slot tables) gained := by
  have union : heap ∪ insert slot tables = insert slot heap ∪ tables := by
    rw [Finset.union_insert, Finset.insert_union]
  have apart := Finset.disjoint_insert_left.mp takes.apart
  refine ⟨takes.same, Finset.disjoint_insert_right.mpr ⟨notHeap, apart.2⟩, ?_, ?_, ?_, takes.used⟩
  · rw [union]
    exact takes.wasFree
  · rw [union]
    exact takes.taken
  · rw [union]
    exact takes.free

theorem Takes.tableFrame (takes : Takes phys next heap tables gained) {slot : Nat}
    (isFree : next.allocations slot = 0) {after : Phys} (same : SameFrames after next)
    (counts : after.allocations = Function.update next.allocations slot 1) :
    Takes phys after heap (insert slot tables) gained := by
  apply (takes.heapFrame isFree same counts).move
  exact fun member => (takes.notTaken isFree).1 (Finset.mem_union_left _ member)

theorem Takes.raise (takes : Takes phys next heap tables gained) {frame slot : Nat}
    (isSlot : phys.addrToIndex frame = some slot) (inUse : phys.allocations slot ≠ 0)
    (small : phys.allocations slot + gained slot < 255) :
    Takes phys (next.increaseRefcount frame) heap tables fun other =>
      gained other + if phys.addrToIndex frame = some other then 1 else 0 := by
  have counts : ∀ other, (next.increaseRefcount frame).allocations other =
      if slot = other then raised (next.allocations other) else next.allocations other := by
    intro other
    rw [increaseRefcount_allocations, takes.same.addrToIndex_eq, isSlot]
    simp only [Option.some.injEq]
  have different : ∀ other, phys.allocations other = 0 → slot ≠ other := fun other free same =>
    inUse (same ▸ free)
  refine ⟨(increaseRefcount_same _ _).trans takes.same, takes.apart, takes.wasFree,
    fun other member => ?_, fun other free outside => ?_, fun other otherInUse => ?_⟩
  · rw [counts, if_neg (different other (takes.wasFree other member)), takes.taken other member]
  · rw [counts, if_neg (different other free), takes.free other free outside]
  · rw [counts, isSlot, takes.used other otherInUse]
    simp only [Option.some.injEq]
    by_cases same : slot = other
    · subst same
      rw [if_pos rfl, if_pos rfl]
      unfold raised
      rw [if_neg (by omega)]
      omega
    · rw [if_neg same, if_neg same, Nat.add_zero]

theorem failed_of_allocPage (failed : phys.failed = true) : phys.allocPage.2.failed = true := by
  unfold allocPage
  split
  · simp [failed]
  · split <;> simp [failed]

theorem notFailed_of_allocPage (notFailed : phys.allocPage.2.failed = false) :
    phys.failed = false := by
  by_contra failed
  rw [failed_of_allocPage (by simpa using failed)] at notFailed
  cases notFailed

end Takes

/-! ## Cloning a table -/

section Table

variable {phys : Phys} {machine : Machine} {heap tables : Finset Nat} {gained : Nat → Nat}
  {source table : Nat}

theorem cloneEntry_takes (takes : Takes phys machine.phys heap tables gained) {index : Nat}
    (small : ∀ slot, Names phys (machine.memory source index) slot →
      phys.allocations slot ≠ 0 ∧ phys.allocations slot + gained slot < 255) :
    Takes phys (cloneEntry source table machine index).phys heap tables fun slot =>
      gained slot + if Names phys (machine.memory source index) slot then 1 else 0 := by
  by_cases present : presentBit (machine.memory source index) = true
  · have isPhys : (cloneEntry source table machine index).phys =
        machine.phys.increaseRefcount (pageAddr (machine.memory source index)) := by
      unfold cloneEntry
      simp only [present, if_true, setWord_self, pageAddr_clearReadWrite]
    rw [isPhys]
    unfold Names at small ⊢
    simp only [present, true_and] at small ⊢
    cases isSlot : phys.addrToIndex (pageAddr (machine.memory source index)) with
    | none =>
        have noSlot : machine.phys.addrToIndex (pageAddr (machine.memory source index)) = none := by
          rw [takes.same.addrToIndex_eq, isSlot]
        have unchanged : machine.phys.increaseRefcount (pageAddr (machine.memory source index)) =
            machine.phys := by
          unfold increaseRefcount
          rw [noSlot]
        rw [unchanged]
        simpa using takes
    | some slot =>
        rcases small slot isSlot with ⟨inUse, less⟩
        rw [← isSlot]
        exact takes.raise isSlot inUse less
  · have same : cloneEntry source table machine index = machine := by
      unfold cloneEntry
      rw [if_neg present]
    rw [same]
    simpa [Names, present] using takes

theorem cloneEntry_loop_takes (takes : Takes phys machine.phys heap tables gained)
    (different : source ≠ table) (empty : ∀ place, machine.memory table place = 0)
    (small : ∀ slot, 0 < tableReferences phys machine.memory source 1024 slot →
      phys.allocations slot ≠ 0 ∧ phys.allocations slot + gained slot +
        tableReferences phys machine.memory source 1024 slot ≤ 255) :
    Takes phys (loop 1024 (cloneEntry source table) machine).phys heap tables (fun slot =>
        gained slot + tableReferences phys machine.memory source 1024 slot) ∧
      CopiedEntries machine source table 1024 (loop 1024 (cloneEntry source table) machine) := by
  refine loop_invariant (motive := fun count (next : Machine) =>
    Takes phys next.phys heap tables (fun slot =>
        gained slot + tableReferences phys machine.memory source count slot) ∧
      CopiedEntries machine source table count next) ⟨takes, copiedEntries_zero source empty⟩ ?_
  rintro count bound next ⟨sofar, copied⟩
  refine ⟨?_, copied.next different⟩
  have names : ∀ slot, Names phys (next.memory source count) slot ↔
      Names phys (machine.memory source count) slot := fun slot =>
    Names.congr (copied.sources count)
  have room : ∀ slot, Names phys (next.memory source count) slot → phys.allocations slot ≠ 0 ∧
      phys.allocations slot + (gained slot + tableReferences phys machine.memory source count slot) <
        255 := by
    intro slot isNamed
    rw [names] at isNamed
    have oneMore := tableReferences_succ phys machine.memory source count slot
    rw [if_pos isNamed] at oneMore
    have most := tableReferences_mono phys machine.memory source (show count + 1 ≤ 1024 from bound)
      slot
    have fits := small slot (by omega)
    exact ⟨fits.1, by omega⟩
  have cloned : Takes phys (cloneEntry source table next count).phys heap tables _ :=
    cloneEntry_takes sofar room
  simp only [names, Nat.add_assoc, ← tableReferences_succ] at cloned
  exact cloned

end Table

/-! ## Cloning a directory -/

/-- The page structures of the user half are in use, and no count goes past 255 while
they are cloned. -/
structure Forkable (machine : Machine) (pdir : Nat) : Prop where
  valid : machine.phys.Valid
  directory : InUse machine.phys pdir
  tables : ∀ place < 768, presentBit (machine.memory pdir place) = true →
    InUse machine.phys (pageAddr (machine.memory pdir place))
  frames : ∀ slot, 0 < references machine.phys machine.memory pdir 768 slot →
    1 ≤ machine.phys.allocations slot ∧ machine.phys.allocations slot +
      references machine.phys machine.memory pdir 768 slot ≤ 255

/-- The entry of the new directory leads to a new table with the references of the table
that the entry of the source leads to. -/
structure CopiedTable (phys : Phys) (next memory : Memory) (newPageDir : Nat) (tables : Finset Nat)
    (entry srcEntry : Nat) : Prop where
  present : presentBit entry = presentBit srcEntry
  isNew : presentBit srcEntry = true → pageAddr entry ≠ newPageDir ∧
    ∃ slot ∈ tables, phys.addrToIndex (pageAddr entry) = some slot
  sameReferences : presentBit srcEntry = true → ∀ slot,
    tableReferences phys next (pageAddr entry) 1024 slot =
      tableReferences phys memory (pageAddr srcEntry) 1024 slot

theorem CopiedTable.keep {phys : Phys} {next memory : Memory} {newPageDir entry srcEntry : Nat}
    {tables more : Finset Nat}
    (copied : CopiedTable phys next memory newPageDir tables entry srcEntry)
    (subset : tables ⊆ more) {after : Memory}
    (same : presentBit srcEntry = true → after (pageAddr entry) = next (pageAddr entry)) :
    CopiedTable phys after memory newPageDir more entry srcEntry := by
  refine ⟨copied.present, fun present => ?_, fun present slot => ?_⟩
  · rcases copied.isNew present with ⟨different, slot, isTable, isSlot⟩
    exact ⟨different, slot, subset isTable, isSlot⟩
  · rw [← copied.sameReferences present slot]
    unfold tableReferences
    rw [same present]

/-- `clone_page_structures` has come to the entry `count`. -/
structure Copying (machine : Machine) (srcDir newPageDir count : Nat) (next : Machine)
    (heap tables : Finset Nat) : Prop where
  takes : Takes machine.phys next.phys heap tables
    (references machine.phys machine.memory srcDir (min count 768))
  alike : ∀ frame, InUse machine.phys frame → ∀ place,
    Alike (next.memory frame place) (machine.memory frame place)
  isNew : ∃ slot ∈ tables, machine.phys.addrToIndex newPageDir = some slot
  copied : ∀ place < min count 768, CopiedTable machine.phys next.memory machine.memory newPageDir
    tables (next.memory newPageDir place) (machine.memory srcDir place)
  blank : ∀ place, count ≤ place → next.memory newPageDir place = 0
  onlyThese : ∀ slot ∈ tables, machine.phys.addrToIndex newPageDir = some slot ∨
    LeadsTo machine.phys next.memory newPageDir (min count 768) slot

section Directory

variable {machine next : Machine} {srcDir newPageDir count : Nat} {heap tables : Finset Nat}

theorem Takes.ne_of_inUse {phys after : Phys} {gained : Nat → Nat}
    (takes : Takes phys after heap tables gained) {slot frame other : Nat} (isTable : slot ∈ tables)
    (isSlot : phys.addrToIndex frame = some slot) (inUse : InUse phys other) : other ≠ frame := by
  rintro rfl
  rcases inUse with ⟨own, isOwn, notFree⟩
  rw [isSlot, Option.some.injEq] at isOwn
  subst isOwn
  exact notFree (takes.wasFree slot (Finset.mem_union_right _ isTable))

theorem Copying.kernelEntry (copying : Copying machine srcDir newPageDir count next heap tables)
    (kernel : 768 ≤ count) (word : Nat) :
    Copying machine srcDir newPageDir (count + 1)
      ⟨setWord next.memory newPageDir count word, next.phys⟩ heap tables := by
  have userHalf : min (count + 1) 768 = min count 768 := by omega
  rcases copying.isNew with ⟨dirSlot, isTable, isDirSlot⟩
  have entries : ∀ place < min count 768,
      setWord next.memory newPageDir count word newPageDir place = next.memory newPageDir place :=
    fun place less => setWord_of_ne _ _ (.inr (by omega))
  refine ⟨?_, fun frame inUse place => ?_, copying.isNew, fun place less => ?_,
    fun place after => ?_, fun slot isSlot => ?_⟩
  · rw [userHalf]
    exact copying.takes
  · simp only
    rw [setWord_frame_of_ne _ _ _ (copying.takes.ne_of_inUse isTable isDirSlot inUse)]
    exact copying.alike frame inUse place
  · rw [userHalf] at less
    simp only [entries place less]
    have copied := copying.copied place less
    apply copied.keep (Finset.Subset.refl _)
    intro present
    exact setWord_frame_of_ne _ _ _ (copied.isNew present).1
  · exact (setWord_of_ne _ _ (.inr (by omega))).trans (copying.blank place (by omega))
  · rw [userHalf]
    rcases copying.onlyThese slot isSlot with isDir | ⟨place, less, isNamed⟩
    · exact .inl isDir
    · refine .inr ⟨place, less, ?_⟩
      simp only [entries place less]
      exact isNamed

theorem Copying.skip (copying : Copying machine srcDir newPageDir count next heap tables)
    (absent : presentBit (machine.memory srcDir count) = false) :
    Copying machine srcDir newPageDir (count + 1) next heap tables := by
  have more : references machine.phys machine.memory srcDir (min (count + 1) 768) =
      references machine.phys machine.memory srcDir (min count 768) := by
    by_cases user : count < 768
    · rw [Nat.min_eq_left user, Nat.min_eq_left user.le]
      funext slot
      rw [references_succ, absent]
      rfl
    · rw [Nat.min_eq_right (by omega), Nat.min_eq_right (by omega)]
  refine ⟨?_, copying.alike, copying.isNew, fun place less => ?_,
    fun place after => copying.blank place (by omega), fun slot isSlot => ?_⟩
  · rw [more]
    exact copying.takes
  · by_cases isLast : place = count
    · subst isLast
      have wiped := copying.blank place (Nat.le_refl _)
      refine ⟨?_, fun present => ?_, fun present => ?_⟩
      · rw [wiped, absent, presentBit_zero]
      · rw [absent] at present
        cases present
      · rw [absent] at present
        cases present
    · exact copying.copied place (by omega)
  · rcases copying.onlyThese slot isSlot with isDir | ⟨place, less, isNamed⟩
    · exact .inl isDir
    · exact .inr ⟨place, by omega, isNamed⟩

theorem Copying.putTable (copying : Copying machine srcDir newPageDir count next heap tables)
    (user : count < 768) {srcEntry source table slot : Nat}
    (srcAlike : Alike srcEntry (machine.memory srcDir count))
    (isSource : pageAddr (machine.memory srcDir count) = source)
    (present : presentBit (machine.memory srcDir count) = true)
    (srcInUse : InUse machine.phys source) (notTable : slot ∉ tables)
    (isSlot : machine.phys.addrToIndex table = some slot) (bound : table < frameCount)
    {start copiedTo : Machine} (isStart : start.memory = clearFrame next.memory table)
    (takes : Takes machine.phys copiedTo.phys heap (insert slot tables)
      (references machine.phys machine.memory srcDir (count + 1)))
    (copied : CopiedEntries start source table 1024 copiedTo) :
    Copying machine srcDir newPageDir (count + 1)
      ⟨setWord copiedTo.memory newPageDir count (setPageAddr srcEntry table), copiedTo.phys⟩
      heap (insert slot tables) := by
  have userHalf : min count 768 = count := Nat.min_eq_left user.le
  have nextHalf : min (count + 1) 768 = count + 1 := Nat.min_eq_left user
  rcases copying.isNew with ⟨dirSlot, isDirTable, isDirSlot⟩
  have entry : setWord copiedTo.memory newPageDir count (setPageAddr srcEntry table) newPageDir
      count = setPageAddr srcEntry table := setWord_self _ _ _ _
  -- The new frame is none of the frames that are in use or were taken before.
  have inUseNotTable : ∀ frame, InUse machine.phys frame → frame ≠ table := fun frame inUse =>
    takes.ne_of_inUse (Finset.mem_insert_self _ _) isSlot inUse
  have inUseNotDir : ∀ frame, InUse machine.phys frame → frame ≠ newPageDir := fun frame inUse =>
    copying.takes.ne_of_inUse isDirTable isDirSlot inUse
  have oldNotTable : ∀ frame old, machine.phys.addrToIndex frame = some old → old ∈ tables →
      frame ≠ table := by
    rintro frame old isOld isTable rfl
    rw [isSlot, Option.some.injEq] at isOld
    exact notTable (isOld ▸ isTable)
  have dirNotTable := oldNotTable newPageDir dirSlot isDirSlot isDirTable
  have elsewhere : ∀ frame, frame ≠ source → frame ≠ table →
      copiedTo.memory frame = next.memory frame := by
    intro frame notSource isOther
    rw [copied.elsewhere frame notSource isOther, isStart, clearFrame_of_ne _ isOther]
  have sources : ∀ place, Alike (start.memory source place) (machine.memory source place) := by
    intro place
    rw [isStart, clearFrame_of_ne _ (inUseNotTable source srcInUse)]
    exact copying.alike source srcInUse place
  have dirPlaces : ∀ place, place ≠ count → setWord copiedTo.memory newPageDir count
      (setPageAddr srcEntry table) newPageDir place = next.memory newPageDir place := by
    intro place different
    rw [setWord_of_ne _ _ (.inr different),
      elsewhere _ (Ne.symm (inUseNotDir source srcInUse)) dirNotTable]
  refine ⟨?_, fun frame inUse place => ?_, ⟨dirSlot, Finset.mem_insert_of_mem isDirTable, isDirSlot⟩,
    fun place less => ?_, fun place after => ?_, fun other isOther => ?_⟩
  · rw [nextHalf]
    exact takes
  · simp only
    rw [setWord_frame_of_ne _ _ _ (inUseNotDir frame inUse)]
    by_cases isSrc : frame = source
    · subst isSrc
      exact (copied.sources place).trans (sources place)
    · rw [elsewhere frame isSrc (inUseNotTable frame inUse)]
      exact copying.alike frame inUse place
  · by_cases isLast : place = count
    · subst isLast
      simp only [entry]
      refine ⟨(presentBit_setPageAddr _ _).trans srcAlike.present, fun _ => ?_, fun _ other => ?_⟩
      · rw [pageAddr_setPageAddr _ bound]
        exact ⟨Ne.symm dirNotTable, slot, Finset.mem_insert_self _ _, isSlot⟩
      · rw [pageAddr_setPageAddr _ bound, isSource]
        apply tableReferences_congr
        intro index less
        rw [setWord_frame_of_ne _ _ _ (Ne.symm dirNotTable)]
        exact (copied.copies index less).trans (sources index)
    · simp only [dirPlaces place isLast]
      have old := copying.copied place (by omega)
      apply old.keep (Finset.subset_insert _ _)
      intro isPresent
      rcases old.isNew isPresent with ⟨notDir, oldSlot, isTable, isOldSlot⟩
      rw [setWord_frame_of_ne _ _ _ notDir, elsewhere]
      · exact Ne.symm (copying.takes.ne_of_inUse isTable isOldSlot srcInUse)
      · exact oldNotTable _ oldSlot isOldSlot isTable
  · simp only
    rw [dirPlaces place (by omega)]
    exact copying.blank place (by omega)
  · rw [nextHalf]
    rcases Finset.mem_insert.mp isOther with rfl | old
    · refine .inr ⟨count, Nat.lt_succ_self _, ?_⟩
      simp only [entry]
      refine ⟨?_, ?_⟩
      · rw [presentBit_setPageAddr, srcAlike.present, present]
      · rw [pageAddr_setPageAddr _ bound, isSlot]
    · rcases copying.onlyThese other old with isDir | ⟨place, less, isNamed⟩
      · exact .inl isDir
      · refine .inr ⟨place, by omega, ?_⟩
        simp only [dirPlaces place (by omega)]
        exact isNamed

theorem Copying.userEntry (forkable : Forkable machine srcDir)
    (copying : Copying machine srcDir newPageDir count next heap tables) (user : count < 768)
    (present : presentBit (machine.memory srcDir count) = true)
    (notFailed : next.phys.allocPage.2.failed = false) :
    ∃ more, Copying machine srcDir newPageDir (count + 1)
      (cloneTable newPageDir next count (next.memory srcDir count)) heap more := by
  have srcAlike := copying.alike srcDir forkable.directory count
  have srcInUse := forkable.tables count user present
  rcases allocPage_of_notFailed (copying.takes.same.valid forkable.valid) notFailed with
    ⟨slot, isFree, isSlot, bound, same, counts⟩
  rw [copying.takes.same.addrToIndex_eq] at isSlot
  have notTaken := (copying.takes.notTaken isFree).1
  have allocated := copying.takes.tableFrame isFree same counts
  have sourceNotNew : pageAddr (machine.memory srcDir count) ≠ next.phys.allocPage.1 :=
    allocated.ne_of_inUse (Finset.mem_insert_self _ _) isSlot srcInUse
  rcases cloneTable_eq newPageDir next count (next.memory srcDir count) with
    ⟨copiedTo, isLoop, isClone⟩
  rw [srcAlike.frame present] at isLoop
  rw [isClone]
  obtain ⟨start, isStart⟩ : ∃ start : Machine,
    start = ⟨clearFrame next.memory next.phys.allocPage.1, next.phys.allocPage.2⟩ := ⟨_, rfl⟩
  rw [← isStart] at isLoop
  have startMemory : start.memory = clearFrame next.memory next.phys.allocPage.1 := by rw [isStart]
  have startTakes : Takes machine.phys start.phys heap (insert slot tables)
      (references machine.phys machine.memory srcDir count) := by
    rw [isStart]
    simpa only [Nat.min_eq_left user.le] using allocated
  have empty : ∀ place, start.memory next.phys.allocPage.1 place = 0 := by
    intro place
    rw [startMemory, clearFrame_self]
  have sameReferences : ∀ other, tableReferences machine.phys start.memory
      (pageAddr (machine.memory srcDir count)) 1024 other = tableReferences machine.phys
        machine.memory (pageAddr (machine.memory srcDir count)) 1024 other := by
    intro other
    apply tableReferences_congr
    intro place _
    rw [startMemory, clearFrame_of_ne _ sourceNotNew]
    exact copying.alike _ srcInUse place
  have more : ∀ other, references machine.phys machine.memory srcDir (count + 1) other =
      references machine.phys machine.memory srcDir count other +
        tableReferences machine.phys start.memory (pageAddr (machine.memory srcDir count)) 1024
          other := by
    intro other
    rw [references_succ, present, sameReferences]
    rfl
  have looped := cloneEntry_loop_takes startTakes sourceNotNew empty fun other named => by
    have most := references_mono machine.phys machine.memory srcDir (show count + 1 ≤ 768 from user)
      other
    have fits := forkable.frames other (by rw [more] at most; omega)
    rw [more] at most
    exact ⟨by omega, by omega⟩
  rw [← isLoop] at looped
  refine ⟨insert slot tables, copying.putTable user srcAlike rfl present srcInUse
    (fun member => notTaken (Finset.mem_union_right _ member)) isSlot bound startMemory ?_ looped.2⟩
  rw [funext more]
  exact looped.1

theorem failed_of_cloneTable {index srcEntry : Nat}
    (notFailed : (cloneTable newPageDir machine index srcEntry).phys.failed = false) :
    machine.phys.allocPage.2.failed = false := by
  rcases cloneTable_eq newPageDir machine index srcEntry with ⟨copied, isLoop, isClone⟩
  rw [isClone] at notFailed
  have loopNotFailed : copied.phys.failed = false := notFailed
  rw [isLoop] at loopNotFailed
  apply guard_of_loop (fun next : Machine => next.phys.failed = false) _ loopNotFailed
  intro state place cloned
  unfold cloneEntry increaseRefcount at cloned
  split at cloned
  · simp only at cloned
    split at cloned
    · exact cloned
    · split at cloned <;> exact cloned
  · exact cloned

theorem failed_of_cloneDirectoryEntry {index : Nat}
    (notFailed : (cloneDirectoryEntry srcDir newPageDir machine index).phys.failed = false) :
    machine.phys.failed = false := by
  unfold cloneDirectoryEntry at notFailed
  simp only at notFailed
  split at notFailed
  · split at notFailed
    · exact notFailed
    · exact notFailed_of_allocPage (failed_of_cloneTable notFailed)
  · exact notFailed

theorem Copying.step (forkable : Forkable machine srcDir)
    (copying : Copying machine srcDir newPageDir count next heap tables)
    (notFailed : (cloneDirectoryEntry srcDir newPageDir next count).phys.failed = false) :
    ∃ more, Copying machine srcDir newPageDir (count + 1)
      (cloneDirectoryEntry srcDir newPageDir next count) heap more := by
  have samePresent := (copying.alike srcDir forkable.directory count).present
  unfold cloneDirectoryEntry at notFailed ⊢
  by_cases present : presentBit (next.memory srcDir count) = true
  · simp only [present, if_true] at notFailed ⊢
    by_cases kernel : count ≥ 768
    · simp only [kernel, if_true]
      exact ⟨tables, copying.kernelEntry kernel _⟩
    · simp only [kernel, if_false] at notFailed ⊢
      exact copying.userEntry forkable (by omega) (samePresent.symm.trans present)
        (failed_of_cloneTable notFailed)
  · simp only [present]
    exact ⟨tables, copying.skip (samePresent.symm.trans (Bool.eq_false_iff.mpr present))⟩

theorem copying_initial (valid : machine.phys.Valid) {phys : Phys}
    (takes : Takes machine.phys phys heap ∅ fun _ => 0)
    (notFailed : phys.allocPage.2.failed = false) :
    ∃ slot, Copying machine srcDir phys.allocPage.1 0
      ⟨clearFrame machine.memory phys.allocPage.1, phys.allocPage.2⟩ heap {slot} := by
  rcases allocPage_of_notFailed (takes.same.valid valid) notFailed with
    ⟨slot, isFree, isSlot, bound, same, counts⟩
  rw [takes.same.addrToIndex_eq] at isSlot
  have allocated := takes.tableFrame isFree same counts
  refine ⟨slot, ?_, fun frame inUse place => ?_, ⟨slot, Finset.mem_singleton_self _, isSlot⟩,
    fun place less => absurd less (Nat.not_lt_zero _), fun place _ => clearFrame_self _ _ _,
    fun other isOther => .inl ?_⟩
  · exact allocated
  · have different := allocated.ne_of_inUse (Finset.mem_insert_self _ _) isSlot inUse
    simp only
    rw [clearFrame_of_ne _ different]
    exact .refl _
  · rw [Finset.mem_singleton.mp isOther, isSlot]

theorem failed_of_clonePageStructures
    (notFailed : (clonePageStructures machine srcDir).2.phys.failed = false) :
    machine.phys.allocPage.2.failed = false := by
  rcases clonePageStructures_eq machine srcDir with ⟨final, isLoop, isClone⟩
  rw [isClone] at notFailed
  have loopNotFailed : final.phys.failed = false := notFailed
  rw [isLoop] at loopNotFailed
  exact guard_of_loop (fun next : Machine => next.phys.failed = false)
    (fun _ _ => failed_of_cloneDirectoryEntry) loopNotFailed

theorem clonePageStructures_copying (forkable : Forkable machine srcDir) {phys : Phys}
    (takes : Takes machine.phys phys heap ∅ fun _ => 0)
    (notFailed : (clonePageStructures ⟨machine.memory, phys⟩ srcDir).2.phys.failed = false) :
    ∃ tables, Copying machine srcDir (clonePageStructures ⟨machine.memory, phys⟩ srcDir).1 1024
      (clonePageStructures ⟨machine.memory, phys⟩ srcDir).2 heap tables := by
  have allocNotFailed := failed_of_clonePageStructures notFailed
  rcases clonePageStructures_eq ⟨machine.memory, phys⟩ srcDir with ⟨final, isLoop, isClone⟩
  rw [isClone] at notFailed ⊢
  have loopNotFailed : final.phys.failed = false := notFailed
  rw [isLoop] at loopNotFailed
  simp only
  rw [isLoop]
  refine loop_guarded (fun next : Machine => next.phys.failed = false)
    (motive := fun count (next : Machine) => ∃ tables,
      Copying machine srcDir phys.allocPage.1 count next heap tables)
    (fun _ _ => failed_of_cloneDirectoryEntry) loopNotFailed ?_ ?_
  · rcases copying_initial forkable.valid takes allocNotFailed with ⟨slot, initial⟩
    exact ⟨_, initial⟩
  · rintro count - next nextNotFailed ⟨tables, copying⟩
    exact copying.step forkable nextNotFailed

theorem Copying.references_eq (copying : Copying machine srcDir newPageDir 1024 next heap tables)
    (slot : Nat) : references machine.phys next.memory newPageDir 768 slot =
      references machine.phys machine.memory srcDir 768 slot := by
  apply Finset.sum_congr rfl
  intro place member
  have copied := copying.copied place (Finset.mem_range.mp member)
  rw [copied.present]
  refine if_ctx_congr Iff.rfl (fun present => ?_) fun _ => rfl
  exact copied.sameReferences present slot

theorem Copying.mem_tables (copying : Copying machine srcDir newPageDir 1024 next heap tables)
    (slot : Nat) : slot ∈ tables ↔ LeadsTo machine.phys next.memory newPageDir 768 slot ∨
      machine.phys.addrToIndex newPageDir = some slot := by
  constructor
  · intro member
    exact (copying.onlyThese slot member).symm
  · rintro (⟨place, less, present, isSlot⟩ | isDir)
    · have copied := copying.copied place less
      rw [copied.present] at present
      rcases (copied.isNew present).2 with ⟨own, isTable, isOwn⟩
      rw [isSlot, Option.some.injEq] at isOwn
      exact isOwn ▸ isTable
    · rcases copying.isNew with ⟨own, isTable, isOwn⟩
      rw [isDir, Option.some.injEq] at isOwn
      exact isOwn ▸ isTable

theorem Copying.nuke (copying : Copying machine srcDir newPageDir 1024 next heap tables)
    {after : Machine} (sameMemory : after.memory = next.memory)
    (same : SameFrames after.phys machine.phys) :
    Lowered after (nukePageDirectory after newPageDir) (fun slot => slot ∈ tables)
      (references machine.phys machine.memory srcDir 768) := by
  have nuked := nukePageDirectory_lowered after newPageDir
  have freed : ∀ slot, LeadsTo after.phys after.memory newPageDir 768 slot ∨
      after.phys.addrToIndex newPageDir = some slot ↔ slot ∈ tables := by
    intro slot
    rw [copying.mem_tables, same.addrToIndex_eq]
    unfold LeadsTo
    simp only [names_of_same same, sameMemory]
  have lost : ∀ slot, references after.phys after.memory newPageDir 768 slot =
      references machine.phys machine.memory srcDir 768 slot := by
    intro slot
    rw [references_of_same same, sameMemory, copying.references_eq]
  rw [funext fun slot => propext (freed slot), funext lost] at nuked
  exact nuked

end Directory

end Dbos.Paging
