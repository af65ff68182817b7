import Dbos.Kernel.Memory.ReferenceCounts
import Dbos.Kernel.Process.Spaces

/-! # Destroying a fresh clone

`proc_clone` takes references in two places, in the page tables and for the list of
stack frames. `proc_destroy` gives back those of the page tables. -/

namespace Dbos.Paging

open Dbos.Loop Phys

/-- `proc_clone`, and then `proc_destroy` for the process that it has made. -/
def cloneAndDestroy (system : System) (parent : Process) (growth : Growth) : System :=
  let cloned := procClone system parent growth
  match cloned.processes.getLast? with
  | some process => procDestroy cloned process
  | none => cloned

/-- The reference count of every frame is the same. -/
def SameRefcounts (phys next : Phys) : Prop :=
  ∀ frame, next.getRefcount frame = phys.getRefcount frame

def Growth.None (growth : Growth) : Prop :=
  growth.before = 0 ∧ growth.between = 0 ∧ growth.after = 0

/-! ## Counts of slots -/

section Counts

variable {phys next : Phys}

theorem exists_addrToIndex (valid : phys.Valid) (slot : Nat) :
    ∃ frame, phys.addrToIndex frame = some slot := by
  have lower := valid.lower
  unfold addrToIndex totalUsableLowerPages
  by_cases low : slot < phys.totalUsableLower / 4096
  · exact ⟨slot, if_pos (by omega)⟩
  · refine ⟨slot - phys.totalUsableLower / 4096 + 0x100, ?_⟩
    rw [if_neg (by omega), if_pos (by omega), Nat.add_sub_cancel,
      Nat.add_sub_cancel' (Nat.le_of_not_lt low)]

theorem sameRefcounts_iff (valid : phys.Valid) (same : SameFrames next phys) :
    SameRefcounts phys next ↔ ∀ slot, next.allocations slot = phys.allocations slot := by
  unfold SameRefcounts getRefcount
  simp only [same.addrToIndex_eq]
  constructor
  · intro equal slot
    rcases exists_addrToIndex valid slot with ⟨frame, isSlot⟩
    have atFrame := equal frame
    rw [isSlot] at atFrame
    simp only at atFrame
    omega
  · intro equal frame
    cases phys.addrToIndex frame with
    | none => rfl
    | some slot => simp only [equal slot]

/-- How many of the frames belong to the slot. -/
def occurrences (phys : Phys) (frames : List Nat) (slot : Nat) : Nat :=
  frames.countP fun frame => phys.addrToIndex frame = some slot

theorem increaseAll_same (frames : List Nat) (phys : Phys) :
    SameFrames (frames.foldl increaseRefcount phys) phys := by
  induction frames generalizing phys with
  | nil => exact ⟨rfl, rfl, rfl⟩
  | cons frame frames induction =>
      exact (induction (phys.increaseRefcount frame)).trans (increaseRefcount_same phys frame)

theorem increaseAll_allocations (frames : List Nat) (phys : Phys) (slot : Nat) :
    (frames.foldl increaseRefcount phys).allocations slot =
      raised^[occurrences phys frames slot] (phys.allocations slot) := by
  induction frames generalizing phys with
  | nil => rfl
  | cons frame frames induction =>
      have sameOccurrences : occurrences (phys.increaseRefcount frame) frames slot =
          occurrences phys frames slot := by
        unfold occurrences
        simp only [(increaseRefcount_same phys frame).addrToIndex_eq]
      rw [List.foldl_cons, induction, sameOccurrences, increaseRefcount_allocations]
      unfold occurrences
      rw [List.countP_cons]
      by_cases isSlot : phys.addrToIndex frame = some slot
      · simp only [isSlot, decide_true, if_true]
        exact (Function.iterate_succ_apply _ _ _).symm
      · simp only [isSlot, decide_false, if_false, Bool.false_eq_true, Nat.add_zero]

theorem raised_iterate_zero (times : Nat) : raised^[times] 0 = 0 :=
  Function.iterate_fixed rfl times

theorem raised_iterate {count : Nat} (positive : 1 ≤ count) (bound : count ≤ 255) (times : Nat) :
    raised^[times] count = if count + times ≤ 255 then count + times else 0 := by
  induction times with
  | zero => simp [bound]
  | succ times induction =>
      rw [Function.iterate_succ_apply', induction]
      unfold raised
      by_cases fits : count + times ≤ 255
      · rw [if_pos fits, if_neg (by omega)]
        split <;> omega
      · rw [if_neg fits, if_pos rfl, if_neg (by omega)]

end Counts

theorem Takes.grow {phys : Phys} {machine : Machine} {heap tables : Finset Nat}
    {gained : Nat → Nat} (takes : Takes phys machine.phys heap tables gained) (valid : phys.Valid)
    {frames : Nat} (notFailed : (growHeap machine frames).phys.failed = false) :
    ∃ more, heap ⊆ more ∧ (0 < frames → more.Nonempty) ∧ (frames = 0 → more = heap) ∧
      Takes phys (growHeap machine frames).phys more tables gained := by
  refine loop_guarded (fun phys : Phys => phys.failed = false)
    (motive := fun count (after : Phys) => ∃ more, heap ⊆ more ∧ (0 < count → more.Nonempty) ∧
      (count = 0 → more = heap) ∧ Takes phys after more tables gained)
    (fun _ _ => notFailed_of_allocPage) notFailed ?_ ?_
  · exact ⟨heap, Finset.Subset.refl _, fun less => absurd less (Nat.lt_irrefl 0), fun _ => rfl, takes⟩
  · rintro count - after afterNotFailed ⟨more, subset, -, -, sofar⟩
    rcases allocPage_of_notFailed (sofar.same.valid valid) afterNotFailed with
      ⟨slot, free, -, -, same, counts⟩
    exact ⟨insert slot more, subset.trans (Finset.subset_insert _ _),
      fun _ => Finset.insert_nonempty _ _, fun zero => absurd zero (Nat.succ_ne_zero count),
      sofar.heapFrame free same counts⟩

/-! ## The counts afterwards -/

section Undone

variable {system : System} {parent : Process} {growth : Growth}

theorem cloneAndDestroy_machine (parent : Process) (growth : Growth)
    (notFirst : 1 ≤ system.procPid) :
    ∃ pdir, pdir = (clonePageStructures (growHeap system.machine growth.before) parent.pdir).1 ∧
      (cloneAndDestroy system parent growth).machine =
        nukePageDirectory (procClone system parent growth).machine pdir := by
  refine ⟨_, rfl, ?_⟩
  have isLast : (procClone system parent growth).processes.getLast? =
      some ⟨system.procPid + 1,
        (clonePageStructures (growHeap system.machine growth.before) parent.pdir).1,
        parent.ustackPhys, parent.heapEnd⟩ :=
    List.getLast?_concat
  unfold cloneAndDestroy procDestroy
  simp only [isLast]
  rw [if_neg (by omega)]

/-- What has happened when the clone has been destroyed, slot by slot: frames have been
taken for the heap and for the page structures, the frames of the stack list have been
counted again, more frames may have been taken for the heap, and the references of the
page structures have been given back. -/
structure Undone (system : System) (parent : Process) (growth : Growth) (heap tables : Finset Nat)
    (cloned : Phys) (late : Finset Nat) (final : Phys) : Prop where
  takes : Takes system.machine.phys cloned heap tables
    (references system.machine.phys system.machine.memory parent.pdir 768)
  early : heap = ∅ ↔ growth.before = 0 ∧ growth.between = 0
  later : late = ∅ ↔ growth.after = 0
  wasFree : ∀ slot ∈ late, raised^[occurrences system.machine.phys parent.ustackPhys slot]
    (cloned.allocations slot) = 0
  same : SameFrames final system.machine.phys
  freed : ∀ slot ∈ tables, final.allocations slot = 0
  kept : ∀ slot, slot ∉ tables → final.allocations slot =
    (if slot ∈ late then 1 else
      raised^[occurrences system.machine.phys parent.ustackPhys slot] (cloned.allocations slot)) -
      references system.machine.phys system.machine.memory parent.pdir 768 slot

theorem failed_of_increaseAll (frames : List Nat) (phys : Phys) :
    (frames.foldl increaseRefcount phys).failed = phys.failed := by
  induction frames generalizing phys with
  | nil => rfl
  | cons frame frames induction =>
      rw [List.foldl_cons, induction]
      unfold increaseRefcount
      split
      · rfl
      · split <;> rfl

theorem failed_of_growHeap {machine : Machine} {frames : Nat}
    (notFailed : (growHeap machine frames).phys.failed = false) : machine.phys.failed = false :=
  guard_of_loop (fun phys : Phys => phys.failed = false) (fun _ _ => notFailed_of_allocPage) notFailed

theorem undone_cloneAndDestroy (forkable : Forkable system.machine parent.pdir)
    (notFirst : 1 ≤ system.procPid)
    (enough : (procClone system parent growth).machine.phys.failed = false) :
    ∃ heap tables cloned late, Undone system parent growth heap tables cloned late
      (cloneAndDestroy system parent growth).machine.phys := by
  rcases cloneAndDestroy_machine parent growth notFirst with
    ⟨child, isChild, isFinal⟩
  rcases procClone_eq system parent growth with ⟨grown, pdir, cloned, ready, isGrown, isClone,
    isReady, isResult⟩
  rw [isFinal]
  rw [isResult] at enough ⊢
  have sameChild : child = pdir := by rw [isChild, ← isGrown, isClone]
  subst sameChild
  -- No frame was asked for in vain at any of the steps.
  have raisedNotFailed := failed_of_growHeap enough
  have readyNotFailed : ready.phys.failed = false := by
    rwa [failed_of_increaseAll] at raisedNotFailed
  rw [isReady] at readyNotFailed
  have clonedNotFailed := failed_of_growHeap readyNotFailed
  have cloneNotFailed : (clonePageStructures grown parent.pdir).2.phys.failed = false := by
    rw [isClone]
    exact clonedNotFailed
  have grownNotFailed := notFailed_of_allocPage (failed_of_clonePageStructures cloneNotFailed)
  rw [isGrown] at grownNotFailed
  rcases (Takes.refl system.machine.phys).grow forkable.valid grownNotFailed with
    ⟨first, -, firstTaken, firstEmpty, firstTakes⟩
  have grownMemory : (growHeap system.machine growth.before).memory = system.machine.memory := rfl
  rw [isGrown] at isClone cloneNotFailed
  generalize growHeap system.machine growth.before = before at *
  obtain ⟨memory, phys⟩ := before
  simp only at grownMemory firstTakes
  subst grownMemory
  have copied := clonePageStructures_copying forkable firstTakes cloneNotFailed
  rw [isClone] at copied
  rcases copied with ⟨tables, copying⟩
  simp only at copying
  rcases copying.takes.grow forkable.valid readyNotFailed with
    ⟨heap, subset, secondTaken, secondEmpty, takes⟩
  rw [← isReady] at takes
  have readyMemory : ready.memory = cloned.memory := by
    rw [isReady]
    rfl
  have raisedSame := (increaseAll_same parent.ustackPhys ready.phys).trans takes.same
  have lateGrowth : ∃ late, (∅ : Finset Nat) ⊆ late ∧ (0 < growth.after → late.Nonempty) ∧
      (growth.after = 0 → late = ∅) ∧ Takes (parent.ustackPhys.foldl increaseRefcount ready.phys)
        (growHeap ⟨ready.memory, parent.ustackPhys.foldl increaseRefcount ready.phys⟩
          growth.after).phys late ∅ fun _ => 0 :=
    (Takes.refl _).grow (raisedSame.valid forkable.valid) enough
  rcases lateGrowth with ⟨late, -, lateTaken, lateEmpty, lateTakes⟩
  have finalSame := lateTakes.same.trans raisedSame
  have raisedCounts : ∀ slot, (parent.ustackPhys.foldl increaseRefcount ready.phys).allocations slot =
      raised^[occurrences system.machine.phys parent.ustackPhys slot]
        (ready.phys.allocations slot) := by
    intro slot
    rw [increaseAll_allocations]
    unfold occurrences
    simp only [takes.same.addrToIndex_eq]
  have nuked : Lowered (growHeap ⟨ready.memory, parent.ustackPhys.foldl increaseRefcount
      ready.phys⟩ growth.after) _ _ _ := copying.nuke readyMemory finalSame
  refine ⟨heap, tables, ready.phys, late, takes, ?_, ⟨?_, lateEmpty⟩, fun slot isLate => ?_,
    nuked.same.trans finalSame, nuked.freed, fun slot notTable => ?_⟩
  · constructor
    · intro empty
      refine ⟨?_, ?_⟩
      · by_contra some
        exact ((firstTaken (Nat.pos_of_ne_zero some)).mono subset).ne_empty empty
      · by_contra some
        exact (secondTaken (Nat.pos_of_ne_zero some)).ne_empty empty
    · intro ⟨noneBefore, noneBetween⟩
      rw [secondEmpty noneBetween, firstEmpty noneBefore]
  · intro empty
    by_contra some
    exact (lateTaken (Nat.pos_of_ne_zero some)).ne_empty empty
  · rw [← raisedCounts]
    exact lateTakes.wasFree slot (Finset.mem_union_left _ isLate)
  · rw [nuked.kept slot notTable, ← raisedCounts]
    congr 1
    by_cases isLate : slot ∈ late
    · rw [if_pos isLate]
      exact lateTakes.taken slot (Finset.mem_union_left _ isLate)
    · rw [if_neg isLate]
      by_cases free : (parent.ustackPhys.foldl increaseRefcount ready.phys).allocations slot = 0
      · rw [free]
        apply lateTakes.free slot free
        simpa using isLate
      · exact lateTakes.used slot free

theorem unused_iff_occurrences (phys : Phys) (frames : List Nat) :
    (∀ frame ∈ frames, phys.getRefcount frame ≤ 0) ↔
      ∀ slot, phys.allocations slot ≠ 0 → occurrences phys frames slot = 0 := by
  unfold occurrences
  simp only [List.countP_eq_zero, decide_eq_true_eq]
  constructor
  · intro unused slot inUse frame member isSlot
    have count := unused frame member
    unfold getRefcount at count
    rw [isSlot] at count
    simp only at count
    omega
  · intro unused frame member
    unfold getRefcount
    cases isSlot : phys.addrToIndex frame with
    | none => exact Int.neg_nonpos_of_nonneg Int.one_nonneg
    | some slot =>
        have free : phys.allocations slot = 0 := by
          by_contra inUse
          exact unused slot inUse frame member isSlot
        simp [free]

section Slots

variable {heap tables late : Finset Nat} {cloned final : Phys}

theorem references_of_free (forkable : Forkable system.machine parent.pdir) {slot : Nat}
    (free : system.machine.phys.allocations slot = 0) :
    references system.machine.phys system.machine.memory parent.pdir 768 slot = 0 := by
  by_contra named
  have count := forkable.frames slot (by omega)
  omega

theorem Undone.restored (undone : Undone system parent growth heap tables cloned late final)
    (noHeap : heap = ∅) (noLate : late = ∅)
    (unused : ∀ slot, system.machine.phys.allocations slot ≠ 0 →
      occurrences system.machine.phys parent.ustackPhys slot = 0) (slot : Nat) :
    final.allocations slot = system.machine.phys.allocations slot := by
  subst noHeap noLate
  by_cases isTable : slot ∈ tables
  · rw [undone.freed slot isTable, undone.takes.wasFree slot (Finset.mem_union_right _ isTable)]
  · rw [undone.kept slot isTable, if_neg (Finset.notMem_empty slot)]
    by_cases free : system.machine.phys.allocations slot = 0
    · rw [undone.takes.free slot free (by simpa using isTable), raised_iterate_zero, free,
        Nat.zero_sub]
    · rw [unused slot free, Function.iterate_zero_apply, undone.takes.used slot free,
        Nat.add_sub_cancel]

theorem raised_iterate_le {times : Nat} (some : times ≠ 0) (count : Nat) :
    raised^[times] count ≤ 255 := by
  rcases Nat.exists_eq_succ_of_ne_zero some with ⟨fewer, rfl⟩
  rw [Function.iterate_succ_apply']
  unfold raised
  split <;> omega

theorem occurrences_le (phys : Phys) {frames : List Nat}
    (stack : frames.length = processStackPages) (slot : Nat) :
    occurrences phys frames slot ≤ 5 := by
  rw [show 5 = frames.length by rw [stack]; rfl]
  exact List.countP_le_length

section Restored

variable (undone : Undone system parent growth heap tables cloned late final)
  (forkable : Forkable system.machine parent.pdir)
  (stack : parent.ustackPhys.length = processStackPages)
  (restored : ∀ slot, final.allocations slot = system.machine.phys.allocations slot)

include undone forkable stack restored

theorem Undone.unused {slot : Nat} (inUse : system.machine.phys.allocations slot ≠ 0) :
    occurrences system.machine.phys parent.ustackPhys slot = 0 := by
  by_contra some
  have notTable : slot ∉ tables := fun isTable =>
    inUse (undone.takes.wasFree slot (Finset.mem_union_right _ isTable))
  have few := occurrences_le system.machine.phys stack slot
  have gained := undone.takes.used slot inUse
  have kept := undone.kept slot notTable
  have atMost := raised_iterate_le some (cloned.allocations slot)
  rw [restored slot] at kept
  by_cases small : system.machine.phys.allocations slot +
      references system.machine.phys system.machine.memory parent.pdir 768 slot ≤ 255
  · have isRaised := raised_iterate (show 1 ≤ cloned.allocations slot by omega) (by omega)
      (occurrences system.machine.phys parent.ustackPhys slot)
    by_cases isLate : slot ∈ late
    · have wasFree := undone.wasFree slot isLate
      rw [isRaised] at wasFree
      rw [if_pos isLate] at kept
      split at wasFree <;> omega
    · rw [if_neg isLate, isRaised] at kept
      split at kept <;> omega
  · -- The frame is not named by a table, and its count is more than a byte holds.
    have fits := forkable.frames slot
    split at kept <;> omega

theorem Undone.noHeap : heap = ∅ := by
  by_contra notEmpty
  rcases Finset.nonempty_iff_ne_empty.mpr notEmpty with ⟨slot, isHeap⟩
  have isTaken : slot ∈ heap ∪ tables := Finset.mem_union_left _ isHeap
  have notTable : slot ∉ tables := Finset.disjoint_left.mp undone.takes.apart isHeap
  have wasFree := undone.takes.wasFree slot isTaken
  have few := occurrences_le system.machine.phys stack slot
  have kept := undone.kept slot notTable
  rw [restored slot, undone.takes.taken slot isTaken, references_of_free forkable wasFree,
    raised_iterate (Nat.le_refl 1) (by omega)] at kept
  split at kept
  · omega
  · split at kept <;> omega

theorem Undone.noLate : late = ∅ := by
  by_contra notEmpty
  rcases Finset.nonempty_iff_ne_empty.mpr notEmpty with ⟨slot, isLate⟩
  have wasFree := undone.wasFree slot isLate
  have isFree : system.machine.phys.allocations slot = 0 := by
    by_contra inUse
    rw [undone.unused forkable stack restored inUse, Function.iterate_zero_apply,
      undone.takes.used slot inUse] at wasFree
    omega
  have notTable : slot ∉ tables := by
    intro isTable
    have few := occurrences_le system.machine.phys stack slot
    rw [undone.takes.taken slot (Finset.mem_union_right _ isTable),
      raised_iterate (Nat.le_refl 1) (by omega)] at wasFree
    split at wasFree <;> omega
  have kept := undone.kept slot notTable
  rw [restored slot, if_pos isLate, references_of_free forkable isFree, isFree] at kept
  omega

end Restored

end Slots

/-- Destroying a fresh clone leaves every count as it was exactly if no frame was taken
for the kernel heap and no frame of the stack list was in use. -/
theorem cloneAndDestroy_sameRefcounts_iff (forkable : Forkable system.machine parent.pdir)
    (notFirst : 1 ≤ system.procPid) (stack : parent.ustackPhys.length = processStackPages)
    (enough : (procClone system parent growth).machine.phys.failed = false) :
    SameRefcounts system.machine.phys (cloneAndDestroy system parent growth).machine.phys ↔
      growth.None ∧ ∀ frame ∈ parent.ustackPhys, system.machine.phys.getRefcount frame ≤ 0 := by
  rcases undone_cloneAndDestroy forkable notFirst enough with ⟨heap, tables, cloned, late, undone⟩
  rw [sameRefcounts_iff forkable.valid undone.same, unused_iff_occurrences]
  constructor
  · intro restored
    have noHeap := undone.noHeap forkable stack restored
    have noLate := undone.noLate forkable stack restored
    rcases undone.early.mp noHeap with ⟨noneBefore, noneBetween⟩
    exact ⟨⟨noneBefore, noneBetween, undone.later.mp noLate⟩,
      fun slot inUse => undone.unused forkable stack restored inUse⟩
  · rintro ⟨⟨noneBefore, noneBetween, noneAfter⟩, unused⟩
    exact undone.restored (undone.early.mpr ⟨noneBefore, noneBetween⟩)
      (undone.later.mpr noneAfter) unused

end Undone

/-! ## Two processes -/

/-- The directory in frame 1 has one table, in frame 2, for five pages of stack in the
frames 3 to 7. -/
def stackMachine : Machine :=
  { memory := fun frame place =>
      if frame = 1 ∧ place = processStack / 1024 then makeEntry 1 1 2
      else if frame = 2 ∧ place < processStackPages then makeEntry 1 1 (place + 3)
      else 0
    phys :=
      { totalUsableLower := 0x28000
        totalUsableUpper := 0
        allocations := fun index => if index < 8 then 1 else 0
        freeList := []
        failed := false
        wrapped := false } }

/-- A process with that directory, and a list of stack frames. -/
def stackProcess (ustackPhys : List Nat) : Process := ⟨2, 1, ustackPhys, 0⟩

def stackSystem (ustackPhys : List Nat) : System :=
  ⟨stackMachine, [stackProcess ustackPhys], 2⟩

theorem stackMachine_directory {place : Nat} (different : place ≠ 256) :
    stackMachine.memory 1 place = 0 := by
  unfold stackMachine
  simp only
  rw [if_neg (fun both => different both.2), if_neg (by omega)]

theorem names_stackMachine (place slot : Nat) :
    Names stackMachine.phys (stackMachine.memory 2 place) slot ↔ place < 5 ∧ slot = place + 3 := by
  unfold Names
  by_cases isStack : place < 5
  · have entry : stackMachine.memory 2 place = makeEntry 1 1 (place + 3) := by
      unfold stackMachine
      simp only
      rw [if_neg (by omega), if_pos ⟨trivial, isStack⟩]
    have isSlot : stackMachine.phys.addrToIndex (place + 3) = some (place + 3) := by
      unfold addrToIndex stackMachine
      exact if_pos (by simp only; omega)
    rw [entry, presentBit_makeEntry, pageAddr_makeEntry 1 1 (show place + 3 < 2 ^ 20 by omega), isSlot,
      Option.some.injEq]
    simp [isStack, eq_comm]
  · have entry : stackMachine.memory 2 place = 0 := by
      unfold stackMachine
      simp only
      rw [if_neg (by omega), if_neg (fun both => isStack both.2)]
    rw [entry, presentBit_zero]
    simp [isStack]

theorem references_stackMachine (slot : Nat) :
    references stackMachine.phys stackMachine.memory 1 768 slot =
      if 3 ≤ slot ∧ slot < 8 then 1 else 0 := by
  have oneTable : references stackMachine.phys stackMachine.memory 1 768 slot =
      tableReferences stackMachine.phys stackMachine.memory 2 1024 slot := by
    unfold references
    rw [Finset.sum_eq_single 256]
    · rfl
    · intro place _ different
      rw [stackMachine_directory different]
      rfl
    · intro outside
      exact absurd (Finset.mem_range.mpr (by decide)) outside
  rw [oneTable]
  unfold tableReferences
  simp only [names_stackMachine]
  split
  case isTrue inside =>
    rw [Finset.sum_eq_single (slot - 3)]
    · exact if_pos (by omega)
    · intro place _ different
      exact if_neg (by omega)
    · intro outside
      rw [Finset.mem_range] at outside
      omega
  case isFalse outside =>
    apply Finset.sum_eq_zero
    intro place _
    exact if_neg (by omega)

theorem forkable_stackMachine : Forkable stackMachine 1 := by
  refine ⟨⟨by decide, by decide, by decide⟩, ⟨1, by decide, by decide⟩, fun place _ present => ?_,
    fun slot named => ?_⟩
  · by_cases isStack : place = 256
    · subst isStack
      exact ⟨2, by decide, by decide⟩
    · rw [stackMachine_directory isStack, presentBit_zero] at present
      cases present
  · rw [references_stackMachine] at named ⊢
    have inside : 3 ≤ slot ∧ slot < 8 := by
      by_contra outside
      rw [if_neg outside] at named
      omega
    have one : stackMachine.phys.allocations slot = 1 := if_pos inside.2
    rw [if_pos inside, one]
    omega

/-- The frames of the list are not in use. -/
theorem cloneAndDestroy_sameRefcounts_unused :
    SameRefcounts stackMachine.phys (cloneAndDestroy (stackSystem [8, 9, 10, 11, 12])
      (stackProcess [8, 9, 10, 11, 12]) ⟨0, 0, 0⟩).machine.phys :=
  (cloneAndDestroy_sameRefcounts_iff forkable_stackMachine (by decide) rfl
    (by decide +kernel)).mpr ⟨⟨rfl, rfl, rfl⟩, by decide⟩

/-- The list holds the frames of the stack, as `proc_create` leaves it. -/
theorem cloneAndDestroy_countsStack :
    Forkable stackMachine 1 ∧
      (procClone (stackSystem [3, 4, 5, 6, 7]) (stackProcess [3, 4, 5, 6, 7])
        ⟨0, 0, 0⟩).machine.phys.failed = false ∧
      stackMachine.phys.getRefcount 3 = 1 ∧
      (cloneAndDestroy (stackSystem [3, 4, 5, 6, 7]) (stackProcess [3, 4, 5, 6, 7])
        ⟨0, 0, 0⟩).machine.phys.getRefcount 3 = 2 ∧
      ¬SameRefcounts stackMachine.phys (cloneAndDestroy (stackSystem [3, 4, 5, 6, 7])
        (stackProcess [3, 4, 5, 6, 7]) ⟨0, 0, 0⟩).machine.phys := by
  have enough : (procClone (stackSystem [3, 4, 5, 6, 7]) (stackProcess [3, 4, 5, 6, 7])
      ⟨0, 0, 0⟩).machine.phys.failed = false := by
    decide +kernel
  have before : stackMachine.phys.getRefcount 3 = 1 := by decide
  have after : (cloneAndDestroy (stackSystem [3, 4, 5, 6, 7]) (stackProcess [3, 4, 5, 6, 7])
      ⟨0, 0, 0⟩).machine.phys.getRefcount 3 = 2 := by
    decide +kernel
  refine ⟨forkable_stackMachine, enough, before, after, fun same => ?_⟩
  have equal := same 3
  rw [before, after] at equal
  cases equal

end Dbos.Paging
