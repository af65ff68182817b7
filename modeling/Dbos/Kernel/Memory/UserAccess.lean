import Mathlib.Tactic.IntervalCases
import Dbos.Kernel.Memory.PageFault

/-! # Loads and stores in user mode

The bytes that the processor reads and writes for a process, below `0xC0000000`. -/

namespace Dbos.Paging

open Phys

/-! ## Bytes of words -/

def byteOf (word place : Nat) : UInt8 := UInt8.ofNat (word / 256 ^ place)

def withByte (word place : Nat) (value : UInt8) : Nat :=
  word - word / 256 ^ place % 256 * 256 ^ place + value.toNat * 256 ^ place

theorem byteOf_withByte (word : Nat) {place other : Nat} (value : UInt8) (bound : place < 4)
    (otherBound : other < 4) :
    byteOf (withByte word place value) other = if other = place then value else byteOf word other := by
  have less : value.toNat < 256 := value.toNat_lt
  have same : ∀ first second : Nat, first % 256 = second % 256 →
      UInt8.ofNat first = UInt8.ofNat second := by
    intro first second congruent
    rw [← UInt8.toNat_inj, UInt8.toNat_ofNat', UInt8.toNat_ofNat']
    exact congruent
  unfold byteOf withByte
  split
  case isTrue isPlace =>
    rw [← UInt8.ofNat_toNat (x := value)]
    subst isPlace
    refine same _ _ ?_
    simp only [UInt8.toNat_ofNat']
    interval_cases other <;> omega
  case isFalse different =>
    refine same _ _ ?_
    interval_cases place <;> interval_cases other <;> omega

/-! ## The accesses -/

/-- The end of the user half. -/
def userEnd : Nat := 0xC0000000

/-- A load in user mode, or `none` if it faults. -/
def userLoad (memory : Memory) (dir address : Nat) : Option UInt8 :=
  (pageWords memory dir (address / 4096)).map fun words =>
    byteOf (words (address % 4096 / 4)) (address % 4)

/-- A store in user mode, or `none` if it faults. -/
def userStore (memory : Memory) (dir address : Nat) (value : UInt8) : Option Memory :=
  if userWritable memory dir (address / 4096) then
    (userEntry memory dir (address / 4096)).map fun word =>
      setWord memory (pageAddr word) (address % 4096 / 4)
        (withByte (memory (pageAddr word) (address % 4096 / 4)) (address % 4) value)
  else none

theorem page_lt {address : Nat} (bound : address < userEnd) : address / 4096 < userPages := by
  unfold userEnd at bound
  unfold userPages
  omega

theorem userLoad_congr {memory next : Memory} {dir copy address : Nat}
    (same : pageWords next copy (address / 4096) = pageWords memory dir (address / 4096)) :
    userLoad next copy address = userLoad memory dir address := by
  unfold userLoad
  rw [same]

section Store

variable {memory : Memory} {phys : Phys} {held dirs tables : Finset Nat} {dir page : Nat}

theorem eq_of_writable (mapped : Mapped ⟨memory, phys⟩ held dirs tables) (isDir : dir ∈ dirs)
    (bound : page < userPages) {word : Nat} (found : userEntry memory dir page = some word)
    (writable : readWrite word = true) {other otherPage : Nat} (isOther : other ∈ dirs)
    (otherBound : otherPage < userPages) {otherWord : Nat}
    (otherFound : userEntry memory other otherPage = some otherWord)
    (sameFrame : pageAddr otherWord = pageAddr word) : other = dir ∧ otherPage = page := by
  rcases present_of_userEntry found with ⟨present, isWord, wordPresent⟩
  rcases present_of_userEntry otherFound with ⟨otherPresent, isOtherWord, otherWordPresent⟩
  have isSlot := slotOf_mem mapped.links isDir bound present
  have isOtherSlot := slotOf_mem mapped.links isOther otherBound otherPresent
  have alone := mapped.counted.exclusive _ isSlot (isWord ▸ wordPresent) (isWord ▸ writable)
  have same := Finset.card_le_one.mp alone _
    (mem_naming.mpr ⟨isOtherSlot, isOtherWord ▸ otherWordPresent, ?_⟩) _
    (mem_naming.mpr ⟨isSlot, isWord ▸ wordPresent, rfl⟩)
  · exact slotOf_injective mapped.links isDir bound present isOther otherBound otherPresent same
  · simp only [isOtherWord, isWord]
    exact sameFrame

theorem Mapped.write (mapped : Mapped ⟨memory, phys⟩ held dirs tables) {frame : Nat}
    (notHeld : frame ∉ held) (notTable : frame ∉ tables) (words : Nat → Nat) :
    Mapped ⟨Function.update memory frame words, phys⟩ held dirs tables ∧
      ∀ other ∈ dirs, ∀ otherPage < userPages,
        userEntry (Function.update memory frame words) other otherPage =
          userEntry memory other otherPage := by
  have sameDir : ∀ other ∈ dirs, Function.update memory frame words other = memory other := by
    intro other isOther
    refine Function.update_of_ne (fun same => notHeld ?_) _ _
    exact same ▸ mapped.subset isOther
  have sameTable : ∀ table ∈ tables, Function.update memory frame words table = memory table := by
    intro table isTable
    refine Function.update_of_ne (fun same => notTable ?_) _ _
    exact same ▸ isTable
  refine ⟨⟨?_, ?_, mapped.subset⟩, fun other isOther otherPage otherBound => ?_⟩
  · refine mapped.counted.congr fun slot isOther => ?_
    unfold wordAt
    rw [sameTable _ (mem_tableEntries.mp isOther).1]
  · refine mapped.links.congr fun slot isEntry => ?_
    exact congrFun (sameDir _ (mem_directoryEntries.mp isEntry).1) slot.2
  · unfold userEntry
    rw [sameDir other isOther]
    cases otherPresent : presentBit (memory other (otherPage / 1024)) with
    | false => simp [otherPresent]
    | true =>
        have isTable : pageAddr (memory other (otherPage / 1024)) ∈ tables :=
          (mem_tableEntries.mp (slotOf_mem mapped.links isOther otherBound otherPresent)).1
        simp only [sameTable _ isTable]

theorem Mapped.frame_unused (mapped : Mapped ⟨memory, phys⟩ held dirs tables) (isDir : dir ∈ dirs)
    (bound : page < userPages) {word : Nat} (found : userEntry memory dir page = some word) :
    pageAddr word ∉ held ∧ pageAddr word ∉ tables := by
  rcases present_of_userEntry found with ⟨present, isWord, wordPresent⟩
  have isSlot := slotOf_mem mapped.links isDir bound present
  have named := mapped.counted.named _ isSlot (isWord ▸ wordPresent)
  simp only [isWord] at named
  exact ⟨named.2.1, named.2.2.1⟩

theorem writeFrame_spec (mapped : Mapped ⟨memory, phys⟩ held dirs tables) (isDir : dir ∈ dirs)
    (bound : page < userPages) {word : Nat} (found : userEntry memory dir page = some word)
    (writable : readWrite word = true) (words : Nat → Nat) {other otherPage : Nat}
    (isOther : other ∈ dirs) (otherBound : otherPage < userPages) :
    pageWords (Function.update memory (pageAddr word) words) other otherPage =
      if other = dir ∧ otherPage = page then some words else pageWords memory other otherPage := by
  have unused := mapped.frame_unused isDir bound found
  unfold pageWords
  rw [(mapped.write unused.1 unused.2 words).2 other isOther otherPage otherBound]
  cases otherFound : userEntry memory other otherPage with
  | none =>
      have differs : ¬(other = dir ∧ otherPage = page) := by
        rintro ⟨rfl, rfl⟩
        rw [found] at otherFound
        cases otherFound
      rw [if_neg differs]
      rfl
  | some otherWord =>
      simp only [Option.map_some]
      split
      case isTrue same =>
        rw [same.1, same.2, found] at otherFound
        cases otherFound
        rw [Function.update_self]
      case isFalse differs =>
        rw [Function.update_of_ne fun same => differs ?_]
        exact eq_of_writable mapped isDir bound found writable isOther otherBound otherFound same

theorem userStore_spec (mapped : Mapped ⟨memory, phys⟩ held dirs tables) (isDir : dir ∈ dirs)
    {address : Nat} (bound : address < userEnd) {value : UInt8} {next : Memory}
    (stored : userStore memory dir address value = some next) :
    Mapped ⟨next, phys⟩ held dirs tables ∧
      ∀ other ∈ dirs, ∀ otherAddress < userEnd, userLoad next other otherAddress =
        if other = dir ∧ otherAddress = address then some value
        else userLoad memory other otherAddress := by
  unfold userStore at stored
  rw [Option.ite_none_right_eq_some] at stored
  rcases stored with ⟨writable, stored⟩
  rcases Option.map_eq_some_iff.mp stored with ⟨word, found, rfl⟩
  have wordWritable : readWrite word = true := by
    unfold userWritable at writable
    rw [found] at writable
    simp only [Option.any_some, Bool.and_eq_true] at writable
    exact writable.2
  have unused := mapped.frame_unused isDir (page_lt bound) found
  unfold setWord
  refine ⟨(mapped.write unused.1 unused.2 _).1, fun other isOther otherAddress otherBound => ?_⟩
  unfold userLoad
  rw [writeFrame_spec mapped isDir (page_lt bound) found wordWritable _ isOther
    (page_lt otherBound)]
  by_cases samePage : other = dir ∧ otherAddress / 4096 = address / 4096
  · rw [if_pos samePage, samePage.1, samePage.2, pageWords_of_userEntry found]
    simp only [Option.map_some, true_and]
    by_cases sameIndex : otherAddress % 4096 / 4 = address % 4096 / 4
    · rw [sameIndex, Function.update_self, byteOf_withByte _ _ (Nat.mod_lt _ (by decide))
        (Nat.mod_lt _ (by decide))]
      have iff : otherAddress % 4 = address % 4 ↔ otherAddress = address := by omega
      simp only [iff]
      split <;> rfl
    · have differs : otherAddress ≠ address := fun same => sameIndex (by rw [same])
      rw [Function.update_of_ne sameIndex, if_neg differs]
  · have differs : ¬(other = dir ∧ otherAddress = address) := by
      rintro ⟨isDir', rfl⟩
      exact samePage ⟨isDir', rfl⟩
    rw [if_neg samePage, if_neg differs]

end Store

end Dbos.Paging
