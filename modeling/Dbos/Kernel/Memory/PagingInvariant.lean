import Mathlib.Data.Finset.Card
import Mathlib.Data.Finset.Prod
import Dbos.Kernel.Memory.Paging

/-! # References to frames

A reference count is at least the number of table entries that name the frame.
The entries that are counted are given by their slots, a table and an index, so
that the invariant can also be stated in the middle of a loop. -/

namespace Dbos.Paging

open Phys

/-! ## Entries -/

theorem pageAddr_clearReadWrite (entry : Nat) :
    pageAddr (clearReadWrite entry) = pageAddr entry := by
  unfold pageAddr clearReadWrite
  congr 1
  omega

theorem presentBit_clearReadWrite (entry : Nat) :
    presentBit (clearReadWrite entry) = presentBit entry := by
  unfold presentBit clearReadWrite
  congr 2
  omega

theorem userSupervisor_clearReadWrite (entry : Nat) :
    userSupervisor (clearReadWrite entry) = userSupervisor entry := by
  unfold userSupervisor clearReadWrite
  congr 2
  omega

theorem readWrite_clearReadWrite (entry : Nat) : readWrite (clearReadWrite entry) = false := by
  unfold readWrite clearReadWrite
  rw [decide_eq_false_iff_not]
  omega

theorem pageAddr_setPageAddr (entry : Nat) {frame : Nat} (bound : frame < frameCount) :
    pageAddr (setPageAddr entry frame) = frame := by
  unfold pageAddr setPageAddr
  rw [Nat.mod_eq_of_lt bound]
  rw [show (entry % 4096 + frame * 4096) / 4096 = frame by omega, Nat.mod_eq_of_lt bound]

theorem presentBit_setPageAddr (entry frame : Nat) :
    presentBit (setPageAddr entry frame) = presentBit entry := by
  unfold presentBit setPageAddr
  congr 2
  omega

theorem readWrite_setPageAddr (entry frame : Nat) :
    readWrite (setPageAddr entry frame) = readWrite entry := by
  unfold readWrite setPageAddr
  congr 2
  omega

theorem userSupervisor_setPageAddr (entry frame : Nat) :
    userSupervisor (setPageAddr entry frame) = userSupervisor entry := by
  unfold userSupervisor setPageAddr
  congr 2
  omega

theorem pageAddr_makeEntry (present user : Nat) {frame : Nat} (bound : frame < frameCount) :
    pageAddr (makeEntry present user frame) = frame := by
  unfold pageAddr makeEntry
  rw [Nat.mod_eq_of_lt bound,
    show (present % 2 + 2 + user % 2 * 4 + frame * 4096) / 4096 = frame by omega,
    Nat.mod_eq_of_lt bound]

theorem presentBit_makeEntry (user frame : Nat) : presentBit (makeEntry 1 user frame) = true := by
  unfold presentBit makeEntry
  rw [decide_eq_true_iff]
  omega

theorem readWrite_makeEntry (present user frame : Nat) :
    readWrite (makeEntry present user frame) = true := by
  unfold readWrite makeEntry
  rw [decide_eq_true_iff]
  omega

theorem userSupervisor_makeEntry (present frame : Nat) :
    userSupervisor (makeEntry present 1 frame) = true := by
  unfold userSupervisor makeEntry
  rw [decide_eq_true_iff]
  omega

theorem presentBit_zero : presentBit 0 = false := rfl

/-! ## Memory -/

theorem setWord_self (memory : Memory) (frame index word : Nat) :
    setWord memory frame index word frame index = word := by
  simp [setWord]

theorem setWord_of_ne (memory : Memory) {frame index other place : Nat} (word : Nat)
    (different : other ≠ frame ∨ place ≠ index) :
    setWord memory frame index word other place = memory other place := by
  unfold setWord
  by_cases same : other = frame
  · subst same
    rw [Function.update_self, Function.update_of_ne (different.resolve_left (by simp))]
  · rw [Function.update_of_ne same]

theorem setWord_frame_of_ne (memory : Memory) {frame other : Nat} (index word : Nat)
    (different : other ≠ frame) : setWord memory frame index word other = memory other := by
  unfold setWord
  rw [Function.update_of_ne different]

theorem clearFrame_self (memory : Memory) (frame index : Nat) :
    clearFrame memory frame frame index = 0 := by
  simp [clearFrame]

theorem clearFrame_of_ne (memory : Memory) {frame other : Nat} (different : other ≠ frame) :
    clearFrame memory frame other = memory other := by
  unfold clearFrame
  rw [Function.update_of_ne different]

/-! ## The invariant -/

/-- An entry, by its table and its index. -/
abbrev Slot := Nat × Nat

def wordAt (memory : Memory) (slot : Slot) : Nat := memory slot.1 slot.2

def naming (memory : Memory) (slots : Finset Slot) (frame : Nat) : Finset Slot :=
  slots.filter fun slot =>
    presentBit (wordAt memory slot) = true ∧ pageAddr (wordAt memory slot) = frame

/-- Frames are `held` as directories or for the kernel, used as `tables`, or named
by the entries in the `slots`; the counts cover all three uses. -/
structure Counted (machine : Machine) (held tables : Finset Nat) (slots : Finset Slot) : Prop where
  valid : machine.phys.Valid
  apart : Disjoint held tables
  heldManaged : ∀ frame ∈ held, machine.phys.Managed frame ∧ 1 ≤ machine.phys.refcount frame
  tableManaged : ∀ frame ∈ tables, machine.phys.Managed frame ∧ 1 ≤ machine.phys.refcount frame
  notZero : 0 ∉ tables
  inTables : ∀ slot ∈ slots, slot.1 ∈ tables
  named : ∀ slot ∈ slots, presentBit (wordAt machine.memory slot) = true →
    machine.phys.Managed (pageAddr (wordAt machine.memory slot)) ∧
      pageAddr (wordAt machine.memory slot) ∉ held ∧
      pageAddr (wordAt machine.memory slot) ∉ tables ∧
      userSupervisor (wordAt machine.memory slot) = true
  counted : ∀ frame, machine.phys.Managed frame →
    (naming machine.memory slots frame).card ≤ machine.phys.refcount frame
  exclusive : ∀ slot ∈ slots, presentBit (wordAt machine.memory slot) = true →
    readWrite (wordAt machine.memory slot) = true →
    (naming machine.memory slots (pageAddr (wordAt machine.memory slot))).card ≤ 1

section Counted

variable {memory : Memory} {phys : Phys} {held tables : Finset Nat} {slots : Finset Slot}

theorem mem_naming {frame : Nat} {slot : Slot} : slot ∈ naming memory slots frame ↔
    slot ∈ slots ∧ presentBit (wordAt memory slot) = true ∧
      pageAddr (wordAt memory slot) = frame :=
  Finset.mem_filter

theorem naming_congr {other : Memory} (same : ∀ slot ∈ slots, wordAt other slot = wordAt memory slot)
    (frame : Nat) : naming other slots frame = naming memory slots frame := by
  refine Finset.filter_congr fun slot member => ?_
  rw [same slot member]

theorem Counted.congr (counted : Counted ⟨memory, phys⟩ held tables slots) {other : Memory}
    (same : ∀ slot ∈ slots, wordAt other slot = wordAt memory slot) :
    Counted ⟨other, phys⟩ held tables slots := by
  refine ⟨counted.valid, counted.apart, counted.heldManaged, counted.tableManaged,
    counted.notZero, counted.inTables, ?_, ?_, ?_⟩
  · intro slot member
    simp only [same slot member]
    exact counted.named slot member
  · intro frame managed
    simp only [naming_congr same]
    exact counted.counted frame managed
  · intro slot member
    simp only [same slot member, naming_congr same]
    exact counted.exclusive slot member

theorem Counted.mono (counted : Counted ⟨memory, phys⟩ held tables slots) {fewer : Finset Slot}
    (subset : fewer ⊆ slots) : Counted ⟨memory, phys⟩ held tables fewer := by
  have namingSubset : ∀ frame, naming memory fewer frame ⊆ naming memory slots frame :=
    fun frame => Finset.filter_subset_filter _ subset
  refine ⟨counted.valid, counted.apart, counted.heldManaged, counted.tableManaged,
    counted.notZero, fun slot member => counted.inTables slot (subset member),
    fun slot member => counted.named slot (subset member), fun frame managed => ?_,
    fun slot member present writable => ?_⟩
  · exact (Finset.card_le_card (namingSubset frame)).trans (counted.counted frame managed)
  · exact (Finset.card_le_card (namingSubset _)).trans
      (counted.exclusive slot (subset member) present writable)

theorem Counted.grow (counted : Counted ⟨memory, phys⟩ held tables slots) {next : Phys}
    (grows : Grows phys next) : Counted ⟨memory, next⟩ held tables slots := by
  refine ⟨grows.same.valid counted.valid, counted.apart, ?_, ?_, counted.notZero,
    counted.inTables, ?_, ?_, counted.exclusive⟩
  · intro frame member
    rcases counted.heldManaged frame member with ⟨managed, positive⟩
    exact ⟨(grows.same.managed_iff frame).mpr managed,
      positive.trans (grows.refcount frame managed)⟩
  · intro frame member
    rcases counted.tableManaged frame member with ⟨managed, positive⟩
    exact ⟨(grows.same.managed_iff frame).mpr managed,
      positive.trans (grows.refcount frame managed)⟩
  · intro slot member present
    rcases counted.named slot member present with ⟨managed, rest⟩
    exact ⟨(grows.same.managed_iff _).mpr managed, rest⟩
  · intro frame managed
    have old := (grows.same.managed_iff frame).mp managed
    exact (counted.counted frame old).trans (grows.refcount frame old)

theorem naming_eq_empty {frame : Nat}
    (notNamed : ∀ slot ∈ slots, presentBit (wordAt memory slot) = true →
      pageAddr (wordAt memory slot) ≠ frame) : naming memory slots frame = ∅ :=
  Finset.filter_eq_empty_iff.mpr fun slot member both => notNamed slot member both.1 both.2

theorem Counted.free_unused (counted : Counted ⟨memory, phys⟩ held tables slots) {frame : Nat}
    (managed : phys.Managed frame) (free : phys.refcount frame = 0) :
    frame ∉ held ∧ frame ∉ tables ∧ ∀ slot ∈ slots, presentBit (wordAt memory slot) = true →
      pageAddr (wordAt memory slot) ≠ frame := by
  refine ⟨fun member => ?_, fun member => ?_, fun slot member present isFrame => ?_⟩
  · have positive := (counted.heldManaged frame member).2
    simp only at positive
    omega
  · have positive := (counted.tableManaged frame member).2
    simp only at positive
    omega
  · have count := counted.counted frame managed
    have isMember : slot ∈ naming memory slots frame := mem_naming.mpr ⟨member, present, isFrame⟩
    have positive := Finset.card_pos.mpr ⟨slot, isMember⟩
    simp only at count
    omega

theorem Counted.allocPage (counted : Counted ⟨memory, phys⟩ held tables slots)
    (ok : phys.allocPage.2.Ok) :
    phys.allocPage.1 ∉ held ∧ phys.allocPage.1 ∉ tables ∧
      (∀ slot ∈ slots, presentBit (wordAt memory slot) = true →
        pageAddr (wordAt memory slot) ≠ phys.allocPage.1) ∧
      phys.allocPage.1 ≠ 0 ∧
      Counted ⟨memory, phys.allocPage.2⟩ (insert phys.allocPage.1 held) tables slots := by
  rcases allocPage_spec counted.valid ok with ⟨managed, free, notZero, sets⟩
  rcases counted.free_unused managed free with ⟨notHeld, notTable, notNamed⟩
  refine ⟨notHeld, notTable, notNamed, notZero, ?_⟩
  have grown := counted.grow (allocPage_grows counted.valid ok)
  refine ⟨grown.valid, ?_, ?_, grown.tableManaged, grown.notZero, grown.inTables, ?_,
    grown.counted, grown.exclusive⟩
  · rw [Finset.disjoint_insert_left]
    exact ⟨notTable, counted.apart⟩
  · intro frame member
    rcases Finset.mem_insert.mp member with rfl | old
    · refine ⟨(sets.same.managed_iff _).mpr managed, ?_⟩
      simp only
      rw [sets.refcount _ managed, if_pos rfl]
    · exact grown.heldManaged frame old
  · intro slot member present
    rcases grown.named slot member present with ⟨isManaged, isNotHeld, isNotTable, user⟩
    refine ⟨isManaged, ?_, isNotTable, user⟩
    rw [Finset.mem_insert, not_or]
    exact ⟨notNamed slot member present, isNotHeld⟩

theorem Counted.toTable {table : Nat}
    (counted : Counted ⟨memory, phys⟩ (insert table held) tables slots) (notHeld : table ∉ held)
    (notZero : table ≠ 0)
    {more : Finset Slot} (onlyTable : ∀ slot ∈ more, slot.1 = table)
    (empty : ∀ slot ∈ more, presentBit (wordAt memory slot) = false) :
    Counted ⟨memory, phys⟩ held (insert table tables) (slots ∪ more) := by
  have sameNaming : ∀ frame, naming memory (slots ∪ more) frame = naming memory slots frame := by
    intro frame
    ext slot
    rw [mem_naming, mem_naming, Finset.mem_union]
    constructor
    · rintro ⟨member | member, present, isFrame⟩
      · exact ⟨member, present, isFrame⟩
      · rw [empty slot member] at present
        cases present
    · rintro ⟨member, both⟩
      exact ⟨.inl member, both⟩
  have old : ∀ slot ∈ slots ∪ more, presentBit (wordAt memory slot) = true → slot ∈ slots := by
    intro slot member present
    rcases Finset.mem_union.mp member with isOld | isNew
    · exact isOld
    · rw [empty slot isNew] at present
      cases present
  have apart := Finset.disjoint_insert_left.mp counted.apart
  refine ⟨counted.valid, ?_, ?_, ?_, ?_, ?_, ?_, ?_, ?_⟩
  · rw [Finset.disjoint_insert_right]
    exact ⟨notHeld, apart.2⟩
  · exact fun frame member => counted.heldManaged frame (Finset.mem_insert_of_mem member)
  · intro frame member
    rcases Finset.mem_insert.mp member with rfl | isOld
    · exact counted.heldManaged _ (Finset.mem_insert_self _ _)
    · exact counted.tableManaged frame isOld
  · rw [Finset.mem_insert, not_or]
    exact ⟨Ne.symm notZero, counted.notZero⟩
  · intro slot member
    rcases Finset.mem_union.mp member with isOld | isNew
    · exact Finset.mem_insert_of_mem (counted.inTables slot isOld)
    · rw [onlyTable slot isNew]
      exact Finset.mem_insert_self _ _
  · intro slot member present
    rcases counted.named slot (old slot member present) present with
      ⟨managed, notIn, notTable, user⟩
    rw [Finset.mem_insert, not_or] at notIn
    exact ⟨managed, notIn.2, by rw [Finset.mem_insert, not_or]; exact ⟨notIn.1, notTable⟩, user⟩
  · intro frame managed
    simp only [sameNaming]
    exact counted.counted frame managed
  · intro slot member present writable
    simp only [sameNaming]
    exact counted.exclusive slot (old slot member present) present writable

theorem Counted.toHeld (counted : Counted ⟨memory, phys⟩ held tables slots) {table : Nat}
    (member : table ∈ tables) (noSlot : ∀ slot ∈ slots, slot.1 ≠ table) :
    Counted ⟨memory, phys⟩ (insert table held) (tables.erase table) slots := by
  refine ⟨counted.valid, ?_, ?_, ?_, fun isTable => counted.notZero (Finset.mem_of_mem_erase isTable),
    ?_, ?_, counted.counted, counted.exclusive⟩
  · rw [Finset.disjoint_insert_left]
    exact ⟨Finset.notMem_erase _ _, counted.apart.mono_right (Finset.erase_subset _ _)⟩
  · intro frame isHeld
    rcases Finset.mem_insert.mp isHeld with rfl | isOld
    · exact counted.tableManaged _ member
    · exact counted.heldManaged frame isOld
  · exact fun frame isTable => counted.tableManaged frame (Finset.mem_of_mem_erase isTable)
  · intro slot isSlot
    exact Finset.mem_erase.mpr ⟨noSlot slot isSlot, counted.inTables slot isSlot⟩
  · intro slot isSlot present
    rcases counted.named slot isSlot present with ⟨managed, notHeld, notTable, user⟩
    refine ⟨managed, ?_, fun isTable => notTable (Finset.mem_of_mem_erase isTable), user⟩
    rw [Finset.mem_insert, not_or]
    refine ⟨fun same => notTable ?_, notHeld⟩
    simp only at same ⊢
    rw [same]
    exact member

theorem Counted.free (counted : Counted ⟨memory, phys⟩ held tables slots) {frame : Nat}
    (isHeld : frame ∈ held) :
    Counted ⟨memory, phys.free frame⟩ (held.erase frame) tables slots := by
  have managed := (counted.heldManaged frame isHeld).1
  have sets := free_sets counted.valid managed
  have notTable : frame ∉ tables := Finset.disjoint_left.mp counted.apart isHeld
  have others : ∀ other, phys.Managed other → other ≠ frame →
      (phys.free frame).refcount other = phys.refcount other := by
    intro other otherManaged different
    rw [sets.refcount other otherManaged, if_neg different]
  refine ⟨sets.same.valid counted.valid, counted.apart.mono_left (Finset.erase_subset _ _), ?_, ?_,
    counted.notZero, counted.inTables, ?_, ?_, counted.exclusive⟩
  · intro other member
    rcases Finset.mem_erase.mp member with ⟨different, old⟩
    rcases counted.heldManaged other old with ⟨otherManaged, positive⟩
    exact ⟨(sets.same.managed_iff other).mpr otherManaged,
      by simp only; rw [others other otherManaged different]; exact positive⟩
  · intro other member
    rcases counted.tableManaged other member with ⟨otherManaged, positive⟩
    have different : other ≠ frame := fun same => notTable (same ▸ member)
    exact ⟨(sets.same.managed_iff other).mpr otherManaged,
      by simp only; rw [others other otherManaged different]; exact positive⟩
  · intro slot member present
    rcases counted.named slot member present with ⟨otherManaged, notHeld, rest⟩
    exact ⟨(sets.same.managed_iff _).mpr otherManaged,
      fun erased => notHeld (Finset.mem_of_mem_erase erased), rest⟩
  · intro other otherManaged
    have old := (sets.same.managed_iff other).mp otherManaged
    by_cases same : other = frame
    · subst same
      simp only
      rw [naming_eq_empty fun slot member present isFrame =>
        (counted.named slot member present).2.1 (isFrame ▸ isHeld)]
      exact Nat.zero_le _
    · simp only
      rw [others other old same]
      exact counted.counted other old

theorem Counted.release (counted : Counted ⟨memory, phys⟩ held tables slots) {slot : Slot}
    (member : slot ∈ slots) (present : presentBit (wordAt memory slot) = true) {next : Phys}
    (sets : Sets phys next (pageAddr (wordAt memory slot))
      (phys.refcount (pageAddr (wordAt memory slot)) - 1)) :
    Counted ⟨memory, next⟩ held tables (slots.erase slot) := by
  rcases counted.named slot member present with ⟨managed, notHeld, notTable, -⟩
  have fewer := counted.mono (Finset.erase_subset slot slots)
  have others : ∀ other, phys.Managed other → other ≠ pageAddr (wordAt memory slot) →
      next.refcount other = phys.refcount other := by
    intro other otherManaged different
    rw [sets.refcount other otherManaged, if_neg different]
  refine ⟨sets.same.valid counted.valid, counted.apart, ?_, ?_, counted.notZero, fewer.inTables,
    ?_, ?_, fewer.exclusive⟩
  · intro other isHeld
    rcases counted.heldManaged other isHeld with ⟨otherManaged, positive⟩
    have different : other ≠ pageAddr (wordAt memory slot) := fun same => notHeld (same ▸ isHeld)
    exact ⟨(sets.same.managed_iff other).mpr otherManaged,
      by simp only; rw [others other otherManaged different]; exact positive⟩
  · intro other isTable
    rcases counted.tableManaged other isTable with ⟨otherManaged, positive⟩
    have different : other ≠ pageAddr (wordAt memory slot) := fun same => notTable (same ▸ isTable)
    exact ⟨(sets.same.managed_iff other).mpr otherManaged,
      by simp only; rw [others other otherManaged different]; exact positive⟩
  · intro other isSlot otherPresent
    rcases fewer.named other isSlot otherPresent with ⟨otherManaged, rest⟩
    exact ⟨(sets.same.managed_iff _).mpr otherManaged, rest⟩
  · intro frame frameManaged
    have old := (sets.same.managed_iff frame).mp frameManaged
    simp only
    by_cases same : frame = pageAddr (wordAt memory slot)
    · have isNaming : slot ∈ naming memory slots frame :=
        mem_naming.mpr ⟨member, present, same.symm⟩
      have removed : naming memory (slots.erase slot) frame =
          (naming memory slots frame).erase slot := by
        unfold naming
        rw [Finset.filter_erase]
      have count := counted.counted frame old
      rw [removed, Finset.card_erase_of_mem isNaming, sets.refcount frame old, if_pos same, ← same]
      simp only at count
      omega
    · rw [others frame old same]
      exact fewer.counted frame old

def setSlot (memory : Memory) (slot : Slot) (word : Nat) : Memory :=
  setWord memory slot.1 slot.2 word

theorem wordAt_setSlot_self (memory : Memory) (slot : Slot) (word : Nat) :
    wordAt (setSlot memory slot word) slot = word :=
  setWord_self memory slot.1 slot.2 word

theorem wordAt_setSlot_of_ne (memory : Memory) {slot other : Slot} (word : Nat)
    (different : other ≠ slot) : wordAt (setSlot memory slot word) other = wordAt memory other := by
  refine setWord_of_ne memory word ?_
  by_contra same
  rw [not_or, not_not, not_not] at same
  exact different (Prod.ext same.1 same.2)

theorem Counted.rewrite (counted : Counted ⟨memory, phys⟩ held tables slots) {slot : Slot}
    (member : slot ∈ slots) (present : presentBit (wordAt memory slot) = true) {word : Nat}
    (wordPresent : presentBit word = true) (wordUser : userSupervisor word = true)
    (sameFrame : pageAddr word = pageAddr (wordAt memory slot))
    (exclusive : readWrite word = true → (naming memory slots (pageAddr word)).card ≤ 1) :
    Counted ⟨setSlot memory slot word, phys⟩ held tables slots := by
  have sameNaming : ∀ frame, naming (setSlot memory slot word) slots frame =
      naming memory slots frame := by
    intro frame
    refine Finset.filter_congr fun other _ => ?_
    by_cases same : other = slot
    · rw [same, wordAt_setSlot_self, wordPresent, present, sameFrame]
    · rw [wordAt_setSlot_of_ne memory word same]
  refine ⟨counted.valid, counted.apart, counted.heldManaged, counted.tableManaged,
    counted.notZero, counted.inTables, ?_, ?_, ?_⟩
  · intro other isSlot otherPresent
    by_cases same : other = slot
    · subst same
      simp only [wordAt_setSlot_self, sameFrame]
      rcases counted.named _ member present with ⟨managed, notHeld, notTable, -⟩
      exact ⟨managed, notHeld, notTable, wordUser⟩
    · simp only [wordAt_setSlot_of_ne memory word same] at otherPresent ⊢
      exact counted.named other isSlot otherPresent
  · intro frame managed
    simp only [sameNaming]
    exact counted.counted frame managed
  · intro other isSlot otherPresent writable
    simp only [sameNaming]
    by_cases same : other = slot
    · subst same
      simp only [wordAt_setSlot_self] at writable ⊢
      exact exclusive writable
    · simp only [wordAt_setSlot_of_ne memory word same] at otherPresent writable ⊢
      exact counted.exclusive other isSlot otherPresent writable

theorem Counted.share (counted : Counted ⟨memory, phys⟩ held tables slots) {source slot : Slot}
    (sourceMember : source ∈ slots) (sourcePresent : presentBit (wordAt memory source) = true)
    (sourceReadonly : readWrite (wordAt memory source) = false) (member : slot ∈ slots)
    (empty : presentBit (wordAt memory slot) = false) {next : Phys}
    (sets : Sets phys next (pageAddr (wordAt memory source))
      (phys.refcount (pageAddr (wordAt memory source)) + 1)) :
    Counted ⟨setSlot memory slot (wordAt memory source), next⟩ held tables slots := by
  have grown := counted.grow (sets.grows (Nat.le_succ _))
  have different : source ≠ slot := by
    rintro rfl
    rw [empty] at sourcePresent
    cases sourcePresent
  have otherNaming : ∀ frame, frame ≠ pageAddr (wordAt memory source) →
      naming (setSlot memory slot (wordAt memory source)) slots frame =
        naming memory slots frame := by
    intro frame notNamed
    refine Finset.filter_congr fun other _ => ?_
    by_cases same : other = slot
    · rw [same, wordAt_setSlot_self, empty]
      simp [Ne.symm notNamed]
    · rw [wordAt_setSlot_of_ne memory _ same]
  have shared : naming (setSlot memory slot (wordAt memory source)) slots
      (pageAddr (wordAt memory source)) ⊆
        insert slot (naming memory slots (pageAddr (wordAt memory source))) := by
    intro other isNaming
    rw [mem_naming] at isNaming
    by_cases same : other = slot
    · exact Finset.mem_insert.mpr (.inl same)
    · rw [wordAt_setSlot_of_ne memory _ same] at isNaming
      exact Finset.mem_insert_of_mem (mem_naming.mpr isNaming)
  refine ⟨grown.valid, grown.apart, grown.heldManaged, grown.tableManaged, grown.notZero,
    grown.inTables, ?_, ?_, ?_⟩
  · intro other isSlot otherPresent
    by_cases same : other = slot
    · subst same
      simp only [wordAt_setSlot_self]
      exact grown.named source sourceMember sourcePresent
    · simp only [wordAt_setSlot_of_ne memory _ same] at otherPresent ⊢
      exact grown.named other isSlot otherPresent
  · intro frame managed
    by_cases same : frame = pageAddr (wordAt memory source)
    · subst same
      have old := (sets.same.managed_iff _).mp managed
      have count := counted.counted _ old
      have more := (Finset.card_le_card shared).trans (Finset.card_insert_le _ _)
      simp only at count ⊢
      rw [sets.refcount _ old, if_pos rfl]
      omega
    · simp only [otherNaming frame same]
      exact grown.counted frame managed
  · intro other isSlot otherPresent writable
    by_cases same : other = slot
    · subst same
      simp only [wordAt_setSlot_self, sourceReadonly] at writable
      cases writable
    · simp only [wordAt_setSlot_of_ne memory _ same] at otherPresent writable ⊢
      have alone := counted.exclusive other isSlot otherPresent writable
      by_cases sameFrame : pageAddr (wordAt memory other) = pageAddr (wordAt memory source)
      · -- The source would be a second entry for a frame that somebody may write to.
        have first : other ∈ naming memory slots (pageAddr (wordAt memory other)) :=
          mem_naming.mpr ⟨isSlot, otherPresent, rfl⟩
        have second : source ∈ naming memory slots (pageAddr (wordAt memory other)) :=
          mem_naming.mpr ⟨sourceMember, sourcePresent, sameFrame.symm⟩
        have isSource := Finset.card_le_one.mp alone other first source second
        rw [isSource, sourceReadonly] at writable
        cases writable
      · rw [otherNaming _ sameFrame]
        exact alone

theorem Counted.install (counted : Counted ⟨memory, phys⟩ held tables slots) {slot : Slot}
    (notMember : slot ∉ slots) (inTable : slot.1 ∈ tables) {word : Nat}
    (wordUser : userSupervisor word = true) (isHeld : pageAddr word ∈ held) :
    Counted ⟨setSlot memory slot word, phys⟩ (held.erase (pageAddr word)) tables
      (insert slot slots) := by
  have isOther : ∀ other ∈ slots, other ≠ slot := fun other member same =>
    notMember (same ▸ member)
  have sameWord : ∀ other ∈ slots, wordAt (setSlot memory slot word) other = wordAt memory other :=
    fun other member => wordAt_setSlot_of_ne memory word (isOther other member)
  have notNamed : ∀ other ∈ slots, presentBit (wordAt memory other) = true →
      pageAddr (wordAt memory other) ≠ pageAddr word := fun other member present same =>
    (counted.named other member present).2.1 (same ▸ isHeld)
  have otherNaming : ∀ frame, frame ≠ pageAddr word →
      naming (setSlot memory slot word) (insert slot slots) frame = naming memory slots frame := by
    intro frame different
    ext other
    rw [mem_naming, mem_naming, Finset.mem_insert]
    constructor
    · rintro ⟨rfl | member, present, isFrame⟩
      · rw [wordAt_setSlot_self] at isFrame
        exact absurd isFrame.symm different
      · rw [sameWord other member] at present isFrame
        exact ⟨member, present, isFrame⟩
    · rintro ⟨member, present, isFrame⟩
      rw [← sameWord other member] at present isFrame
      exact ⟨.inr member, present, isFrame⟩
  have ownNaming : naming (setSlot memory slot word) (insert slot slots) (pageAddr word) ⊆
      {slot} := by
    intro other isNaming
    rcases mem_naming.mp isNaming with ⟨member, present, isFrame⟩
    rcases Finset.mem_insert.mp member with rfl | old
    · exact Finset.mem_singleton_self _
    · rw [sameWord other old] at present isFrame
      exact absurd isFrame (notNamed other old present)
  have ownCount : (naming (setSlot memory slot word) (insert slot slots) (pageAddr word)).card ≤ 1 :=
    (Finset.card_le_card ownNaming).trans (Nat.le_of_eq (Finset.card_singleton slot))
  refine ⟨counted.valid, counted.apart.mono_left (Finset.erase_subset _ _), ?_,
    counted.tableManaged, counted.notZero, ?_, ?_, ?_, ?_⟩
  · exact fun frame member => counted.heldManaged frame (Finset.mem_of_mem_erase member)
  · intro other member
    rcases Finset.mem_insert.mp member with rfl | old
    · exact inTable
    · exact counted.inTables other old
  · intro other member present
    rcases Finset.mem_insert.mp member with rfl | old
    · simp only [wordAt_setSlot_self]
      exact ⟨(counted.heldManaged _ isHeld).1, Finset.notMem_erase _ _,
        Finset.disjoint_left.mp counted.apart isHeld, wordUser⟩
    · simp only [sameWord other old] at present ⊢
      rcases counted.named other old present with ⟨managed, notHeld, rest⟩
      exact ⟨managed, fun erased => notHeld (Finset.mem_of_mem_erase erased), rest⟩
  · intro frame managed
    by_cases same : frame = pageAddr word
    · subst same
      exact ownCount.trans (counted.heldManaged _ isHeld).2
    · simp only [otherNaming frame same]
      exact counted.counted frame managed
  · intro other member present writable
    rcases Finset.mem_insert.mp member with rfl | old
    · simp only [wordAt_setSlot_self]
      exact ownCount
    · simp only [sameWord other old] at present writable ⊢
      rw [otherNaming _ (notNamed other old present)]
      exact counted.exclusive other old present writable

end Counted

end Dbos.Paging
