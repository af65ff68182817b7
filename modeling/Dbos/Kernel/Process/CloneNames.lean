import Dbos.Kernel.Util.Strdup

/-! # The names of clones

`proc_clone` copies the name and the details of its parent and appends ` (clone)`
to both, in arrays of fixed size in the process structure. A chain of clones makes
them longer and longer. -/

namespace Dbos.CloneNames

open Dbos.ByteMemory Dbos.Bootstrap Dbos.Strdup

/-! ## Copying strings -/

/-- The loop of `strcpy`. -/
def strcpyFrom (destination source : Nat) : Nat → Nat → Memory → Option Memory
  | 0, _, _ => none
  | fuel + 1, index, memory =>
      let byte := load memory (source + index)
      let memory := store memory (destination + index) byte
      if byte = 0 then some memory else strcpyFrom destination source fuel (index + 1) memory

/-- `strcpy`, which does not end in a memory without a 0. -/
def strcpy (memory : Memory) (destination source : Nat) : Option Memory :=
  strcpyFrom destination source space 0 memory

/-- `strcat` of a constant: from the 0 at the end of `dest` on, the characters and
another 0. -/
def strcat (memory : Memory) (dest : Nat) (string : List UInt8) : Option Memory :=
  (strlen memory dest).map fun length => storeBytes memory (dest + length) (string ++ [0])

theorem strcpyFrom_eq {memory : Memory} {destination source : Nat} {text : List UInt8}
    (clean : 0 ∉ text) {index fuel : Nat} (isString : StringAt memory (source + index) text)
    (sourceBound : source + index + text.length < space)
    (bound : destination + index + text.length < space)
    (apart : source + index + text.length < destination + index ∨
      destination + index + text.length < source + index)
    (enough : text.length < fuel) :
    strcpyFrom destination source fuel index memory =
      some (storeBytes memory (destination + index) (text ++ [0])) := by
  induction text generalizing index fuel memory with
  | nil =>
      cases fuel with
      | zero => cases enough
      | succ fuel =>
          have isZero : load memory (source + index) = 0 := isString.ends
          simp [strcpyFrom, isZero, storeBytes]
  | cons byte text induction =>
      rw [List.mem_cons, not_or] at clean
      rw [List.length_cons] at sourceBound bound apart enough
      cases fuel with
      | zero => cases enough
      | succ fuel =>
          have isByte : load memory (source + index) = byte := isString.bytes 0 (by simp)
          have rest : StringAt (store memory (destination + index) byte) (source + (index + 1))
              text := by
            apply isString.tail.congr
            exact sameOn_store (by omega) (by omega) (by omega)
          rw [strcpyFrom, isByte, if_neg (Ne.symm clean.1),
            induction clean.2 rest (by omega) (by omega) (by omega) (by omega)]
          rfl

theorem stringAt_storeBytes {memory : Memory} {address : Nat} {text : List UInt8}
    (bound : address + text.length < space) :
    StringAt (storeBytes memory address (text ++ [0])) address text := by
  constructor
  · intro index below
    rw [load_storeBytes (by simp only [List.length_append, List.length_singleton]; omega)
      (by simp only [List.length_append, List.length_singleton]; omega),
      List.getElem_append_left below]
  · rw [load_storeBytes (by simp only [List.length_append, List.length_singleton]; omega)
      (by simp)]
    simp

/-- Copying a string and appending another one to it. -/
theorem strcpy_strcat {memory : Memory} {destination source : Nat} {text suffix : List UInt8}
    (clean : 0 ∉ text) (isString : StringAt memory source text)
    (sourceBound : source + text.length < space)
    (bound : destination + text.length + suffix.length < space)
    (apart : source + text.length < destination ∨ destination + text.length < source) :
    ∃ next, ((strcpy memory destination source).bind fun memory =>
        strcat memory destination suffix) = some next ∧
      StringAt next destination (text ++ suffix) ∧
      ∀ first last, last ≤ space →
        last ≤ destination ∨ destination + text.length + suffix.length + 1 ≤ first →
        SameOn first last next memory := by
  have copied : strcpy memory destination source =
      some (storeBytes memory destination (text ++ [0])) :=
    strcpyFrom_eq clean isString sourceBound (by omega) apart (by omega)
  have isCopy : StringAt (storeBytes memory destination (text ++ [0])) destination text :=
    stringAt_storeBytes (by omega)
  have appended : strcat (storeBytes memory destination (text ++ [0])) destination suffix =
      some (storeBytes (storeBytes memory destination (text ++ [0])) (destination + text.length)
        (suffix ++ [0])) := by
    rw [strcat, strlen, strlenFrom_eq clean isCopy (by omega)]
    rfl
  have isSuffix := @stringAt_storeBytes (storeBytes memory destination (text ++ [0]))
    (destination + text.length) suffix (by omega)
  have kept : SameOn destination (destination + text.length)
      (storeBytes (storeBytes memory destination (text ++ [0])) (destination + text.length)
        (suffix ++ [0])) (storeBytes memory destination (text ++ [0])) :=
    sameOn_storeBytes (by simp only [List.length_append, List.length_singleton]; omega)
      (by omega) (.inl (Nat.le_refl _))
  refine ⟨_, by rw [copied, Option.bind_some, appended], ⟨?_, ?_⟩, ?_⟩
  · intro index below
    rw [List.length_append] at below
    by_cases inText : index < text.length
    · rw [kept _ (by omega) (by omega), List.getElem_append_left inText]
      exact isCopy.bytes index inText
    · have later := isSuffix.bytes (index - text.length) (by omega)
      rw [List.getElem_append_right (by omega), ← later]
      congr 1
      omega
  · rw [List.length_append, ← Nat.add_assoc]
    exact isSuffix.ends
  · intro first last lastBound outside
    refine SameOn.trans (sameOn_storeBytes ?_ lastBound ?_) (sameOn_storeBytes ?_ lastBound ?_) <;>
      simp only [List.length_append, List.length_singleton] <;> omega

/-! ## The process structure -/

def procRegsOffset : Nat := 0
def cplOffset : Nat := 4
def procPdirOffset : Nat := 8
def sysStackOffset : Nat := 12
def procTssOffset : Nat := 16
def fpuRegsOffset : Nat := 32
def heapStartOffset : Nat := 544
def heapEndOffset : Nat := 548
def nameOffset : Nat := 552
def detailsOffset : Nat := 680
def pidOffset : Nat := 936
def stateOffset : Nat := 940
def typeOffset : Nat := 941
def procUstackPhysOffset : Nat := 944
def procUstackPagesOffset : Nat := 948
def waitersOffset : Nat := 952
def nodesOffset : Nat := 956
def parentOffset : Nat := 960
def whereAmIOffset : Nat := 964

/-- `sizeof(proc_t)`; `fpu_regs` is aligned to 16 bytes. -/
def procSize : Nat := 976

/-- `sizeof(registers_t)`. -/
def registersSize : Nat := 76

def processPrvUser : Nat := 2
def processStateReady : UInt8 := 1
def processTypeClone : UInt8 := 2

/-- `" (clone)"`. -/
def cloneSuffix : List UInt8 := [0x20, 0x28, 0x63, 0x6C, 0x6F, 0x6E, 0x65, 0x29]

/-- What the calls in a run of `proc_clone` return. -/
structure CloneCall where
  /-- From `kern_malloc`, for the structure. -/
  process : Nat
  /-- From `proc_get_pid`. -/
  pid : Nat
  nodes : Nat
  waiters : Nat
  procPdir : Nat
  procUstackPhys : Nat
  sysStack : Nat
  whereAmI : Nat

/-- The first assignments of `proc_clone` to its new structure, which `kern_malloc`
has cleared. -/
def assignIdentity (memory : Memory) (call : CloneCall) : Memory :=
  let process := call.process
  let memory := fill memory process 0 procSize
  let memory := storeWord memory (process + cplOffset) processPrvUser
  let memory := storeWord memory (process + pidOffset) call.pid
  let memory := storeWord memory (process + nodesOffset) call.nodes
  let memory := storeWord memory (process + waitersOffset) call.waiters
  let memory := store memory (process + stateOffset) processStateReady
  store memory (process + typeOffset) processTypeClone

def assignFields (memory : Memory) (parent : Nat) (call : CloneCall) : Memory :=
  let process := call.process
  let memory := assignIdentity memory call
  let memory := storeWord memory (process + parentOffset) parent
  let memory := storeWord memory (process + procPdirOffset) call.procPdir
  let memory := storeWord memory (process + heapStartOffset)
    (loadWord memory (parent + heapStartOffset))
  let memory := storeWord memory (process + heapEndOffset)
    (loadWord memory (parent + heapEndOffset))
  let memory := storeWord memory (process + procUstackPagesOffset)
    (loadWord memory (parent + procUstackPagesOffset))
  let memory := storeWord memory (process + procUstackPhysOffset) call.procUstackPhys
  let memory := storeWord memory (process + sysStackOffset) call.sysStack
  let memory := storeWord memory (process + procRegsOffset)
    ((call.sysStack + 4096 * 2 - registersSize) % space)
  let memory := storeWord memory (process + procTssOffset)
    (loadWord memory (parent + procTssOffset))
  let memory := memcpy8 memory (process + fpuRegsOffset) (parent + fpuRegsOffset) 512
  storeWord memory (process + whereAmIOffset) call.whereAmI

/-- `proc_clone`, as far as it writes to the new structure. -/
def procClone (memory : Memory) (parent : Nat) (call : CloneCall) : Option Memory :=
  let memory := assignFields memory parent call
  (strcpy memory (call.process + nameOffset) (parent + nameOffset)).bind fun memory =>
    (strcat memory (call.process + nameOffset) cloneSuffix).bind fun memory =>
      (strcpy memory (call.process + detailsOffset) (parent + detailsOffset)).bind fun memory =>
        strcat memory (call.process + detailsOffset) cloneSuffix

/-- The new structure is in memory and apart from the parent's. -/
structure CloneCall.Apart (call : CloneCall) (parent : Nat) : Prop where
  bound : call.process + procSize ≤ space
  parentBound : parent + procSize ≤ space
  apart : parent + procSize ≤ call.process ∨ call.process + procSize ≤ parent
  pid : call.pid < space

/-- The pid, the state and the type have been assigned. -/
structure Assigned (memory : Memory) (call : CloneCall) : Prop where
  pid : loadWord memory (call.process + pidOffset) = call.pid
  state : load memory (call.process + stateOffset) = processStateReady
  type : load memory (call.process + typeOffset) = processTypeClone

theorem Assigned.congr {memory other : Memory} {call : CloneCall} (assigned : Assigned memory call)
    (same : SameOn (call.process + pidOffset) (call.process + typeOffset + 1) other memory) :
    Assigned other call := by
  simp only [pidOffset, typeOffset] at same
  refine ⟨?_, ?_, ?_⟩
  · rw [← assigned.pid]
    exact same.loadWord (Nat.le_refl _) (by simp only [pidOffset]; omega)
  · rw [← assigned.state]
    exact same _ (by simp only [stateOffset]; omega) (by simp only [stateOffset]; omega)
  · rw [← assigned.type]
    exact same _ (by simp only [typeOffset]; omega) (by simp only [typeOffset]; omega)

section Fields

variable {parent : Nat} {call : CloneCall} (apart : call.Apart parent) (memory : Memory)

include apart

theorem sameOn_assignIdentity {first last : Nat} (lastBound : last ≤ space)
    (outside : last ≤ call.process ∨ call.process + procSize ≤ first ∨
      call.process + pidOffset ≤ first ∧ last ≤ call.process + typeOffset + 1) :
    SameOn first last (assignFields memory parent call) (assignIdentity memory call) := by
  have bound := apart.bound
  have parentBound := apart.parentBound
  have distinct := apart.apart
  have word : ∀ (memory : Memory) (offset value : Nat),
      offset + 4 ≤ procSize ∧ (offset + 4 ≤ pidOffset ∨ typeOffset + 1 ≤ offset) →
      SameOn first last (storeWord memory (call.process + offset) value) memory := by
    rintro memory offset value ⟨inside, elsewhere⟩
    exact sameOn_storeWord (by omega) lastBound (by omega)
  have copied : ∀ memory : Memory, SameOn first last
      (memcpy8 memory (call.process + fpuRegsOffset) (parent + fpuRegsOffset) 512) memory := by
    intro memory
    simp only [procSize, pidOffset, typeOffset, fpuRegsOffset] at *
    exact (@memcpy8_spec memory (call.process + 32) (parent + 32) 512 (by omega) (by omega)
      (by omega) 512 (Nat.le_refl _)).2 first last lastBound (by omega)
  unfold assignFields
  apply (word _ _ _ (by decide)).trans
  apply (copied _).trans
  iterate 8 apply (word _ _ _ (by decide)).trans
  exact word _ _ _ (by decide)

theorem sameOn_assignFields {first last : Nat} (lastBound : last ≤ space)
    (outside : last ≤ call.process ∨ call.process + procSize ≤ first) :
    SameOn first last (assignFields memory parent call) memory := by
  have bound := apart.bound
  have word : ∀ (memory : Memory) (offset value : Nat), offset + 4 ≤ procSize →
      SameOn first last (storeWord memory (call.process + offset) value) memory := by
    intro memory offset value inside
    exact sameOn_storeWord (by omega) lastBound (by omega)
  have byte : ∀ (memory : Memory) (offset : Nat) (value : UInt8), offset + 1 ≤ procSize →
      SameOn first last (store memory (call.process + offset) value) memory := by
    intro memory offset value inside
    exact sameOn_store (by omega) lastBound (by omega)
  apply (sameOn_assignIdentity apart memory lastBound (by omega)).trans
  unfold assignIdentity
  apply (byte _ _ _ (by decide)).trans
  apply (byte _ _ _ (by decide)).trans
  iterate 4 apply (word _ _ _ (by decide)).trans
  exact sameOn_fill bound lastBound (by omega)

theorem assigned_assignFields : Assigned (assignFields memory parent call) call := by
  have bound := apart.bound
  simp only [procSize] at bound
  have identity : Assigned (assignIdentity memory call) call := by
    refine ⟨?_, ?_, ?_⟩
    · have kept : SameOn (call.process + pidOffset) (call.process + pidOffset + 4)
          (assignIdentity memory call)
          (storeWord (storeWord (fill memory call.process 0 procSize)
            (call.process + cplOffset) processPrvUser) (call.process + pidOffset) call.pid) := by
        simp only [assignIdentity, pidOffset, nodesOffset, waitersOffset, stateOffset, typeOffset]
        apply (sameOn_store (by omega) (by omega) (by omega)).trans
        apply (sameOn_store (by omega) (by omega) (by omega)).trans
        apply (sameOn_storeWord (by omega) (by omega) (by omega)).trans
        exact sameOn_storeWord (by omega) (by omega) (by omega)
      rw [kept.loadWord (Nat.le_refl _) (Nat.le_refl _)]
      exact loadWord_storeWord (by simp only [pidOffset]; omega) apart.pid
    · simp only [assignIdentity]
      rw [load_store_of_ne (by simp only [typeOffset]; omega) (by simp only [stateOffset]; omega)
        (by simp only [stateOffset, typeOffset]; omega), load_store_self]
    · simp only [assignIdentity]
      exact load_store_self _ _ _
  apply identity.congr
  apply sameOn_assignIdentity apart
  · simp only [typeOffset]
    omega
  · exact .inr (.inr ⟨Nat.le_refl _, Nat.le_refl _⟩)

end Fields

/-! ## One clone -/

theorem StringAt.unique {memory : Memory} {address : Nat} {text other : List UInt8}
    (isText : StringAt memory address text) (clean : 0 ∉ text)
    (isOther : StringAt memory address other) (otherClean : 0 ∉ other) : text = other := by
  have length : text.length = other.length := by
    have first : strlenFrom memory (text.length + other.length + 1) address = some text.length :=
      strlenFrom_eq clean isText (by omega)
    have second : strlenFrom memory (text.length + other.length + 1) address =
        some other.length := strlenFrom_eq otherClean isOther (by omega)
    exact Option.some.inj (first.symm.trans second)
  apply List.ext_getElem length
  intro index below otherBelow
  rw [← isText.bytes index below, ← isOther.bytes index otherBelow]

/-- The strings of a process. -/
structure Named (memory : Memory) (process : Nat) (name details : List UInt8) : Prop where
  isName : StringAt memory (process + nameOffset) name
  cleanName : 0 ∉ name
  shortName : name.length < 128
  isDetails : StringAt memory (process + detailsOffset) details
  cleanDetails : 0 ∉ details
  shortDetails : details.length < 256

/-- A clone as it should be: both strings end in their arrays, and what is stored
behind the name is what has been assigned. -/
structure Intact (before after : Memory) (parent : Nat) (call : CloneCall) : Prop where
  name : ∃ index < 128, load after (call.process + nameOffset + index) = 0
  details : ∃ index < 256, load after (call.process + detailsOffset + index) = 0
  assignedDetails : ∀ text, 0 ∉ text → StringAt before (parent + detailsOffset) text →
    StringAt after (call.process + detailsOffset) (text ++ cloneSuffix)
  assigned : Assigned after call

def Room (name details : List UInt8) : Prop :=
  name.length + cloneSuffix.length < 128 ∧ details.length + cloneSuffix.length < 256

theorem notMem_append_cloneSuffix {text : List UInt8} (clean : 0 ∉ text) :
    0 ∉ text ++ cloneSuffix := by
  rw [List.mem_append, not_or]
  exact ⟨clean, by decide⟩

theorem length_lt_of_zero {memory : Memory} {address size : Nat} {text : List UInt8}
    (clean : 0 ∉ text)
    (bytes : ∀ index (below : index < text.length), index < size →
      load memory (address + index) = text[index])
    (ends : ∃ index < size, load memory (address + index) = 0) : text.length < size := by
  rcases ends with ⟨index, inside, isZero⟩
  by_contra long
  have below : index < text.length := by omega
  rw [bytes index below inside] at isZero
  exact clean (isZero ▸ List.getElem_mem below)

section Clone

variable {memory : Memory} {parent : Nat} {call : CloneCall} {name details : List UInt8}

theorem procClone_spec (named : Named memory parent name details) (apart : call.Apart parent) :
    ∃ next, procClone memory parent call = some next ∧
      (∀ index (below : index < (name ++ cloneSuffix).length), index < 128 →
        load next (call.process + nameOffset + index) = (name ++ cloneSuffix)[index]) ∧
      (name.length + cloneSuffix.length < 128 →
        StringAt next (call.process + nameOffset) (name ++ cloneSuffix)) ∧
      StringAt next (call.process + detailsOffset) (details ++ cloneSuffix) ∧
      (details.length + cloneSuffix.length < 256 → Assigned next call) := by
  have bound := apart.bound
  have parentBound := apart.parentBound
  have distinct := apart.apart
  have shortName := named.shortName
  have shortDetails := named.shortDetails
  have suffixLength : cloneSuffix.length = 8 := rfl
  have assigned := assigned_assignFields apart memory
  have parentKept : SameOn parent (parent + procSize) (assignFields memory parent call) memory :=
    sameOn_assignFields apart memory parentBound (by omega)
  simp only [procSize] at bound parentBound distinct parentKept
  have isName : StringAt (assignFields memory parent call) (parent + nameOffset) name := by
    apply named.isName.congr
    apply parentKept.mono <;> simp only [nameOffset] <;> omega
  rcases @strcpy_strcat _ (call.process + nameOffset) _ _ cloneSuffix named.cleanName isName
    (by simp only [nameOffset]; omega) (by simp only [nameOffset]; omega)
    (by simp only [nameOffset]; omega) with ⟨middle, copiesName, middleName, middleKept⟩
  have isDetails : StringAt middle (parent + detailsOffset) details := by
    apply named.isDetails.congr
    refine SameOn.trans (middleKept _ _ ?_ ?_) (parentKept.mono ?_ ?_) <;>
      simp only [nameOffset, detailsOffset] <;> omega
  rcases @strcpy_strcat _ (call.process + detailsOffset) _ _ cloneSuffix named.cleanDetails
    isDetails (by simp only [detailsOffset]; omega) (by simp only [detailsOffset]; omega)
    (by simp only [detailsOffset]; omega) with ⟨next, copiesDetails, nextDetails, nextKept⟩
  have nameKept : SameOn (call.process + nameOffset) (call.process + detailsOffset) next middle :=
    nextKept _ _ (by simp only [detailsOffset]; omega) (.inl (Nat.le_refl _))
  refine ⟨next, ?_, ?_, ?_, nextDetails, ?_⟩
  · rw [← copiesDetails, procClone, ← Option.bind_assoc, copiesName]
    rfl
  · intro index below inside
    rw [nameKept _ (by omega) (by simp only [nameOffset, detailsOffset]; omega)]
    exact middleName.bytes index below
  · intro fits
    apply middleName.congr
    apply nameKept.mono (Nat.le_refl _)
    rw [List.length_append]
    simp only [nameOffset, detailsOffset]
    omega
  · intro fits
    apply assigned.congr
    refine SameOn.trans (nextKept _ _ ?_ ?_) (middleKept _ _ ?_ ?_) <;>
      simp only [nameOffset, detailsOffset, pidOffset, typeOffset] <;> omega

theorem procClone_intact_iff (named : Named memory parent name details)
    (apart : call.Apart parent) :
    ∃ next, procClone memory parent call = some next ∧
      (Intact memory next parent call ↔ Room name details) ∧
      (Room name details →
        Named next call.process (name ++ cloneSuffix) (details ++ cloneSuffix)) := by
  rcases procClone_spec named apart with
    ⟨next, clones, nameBytes, isName, isDetails, isAssigned⟩
  have cleanName := notMem_append_cloneSuffix named.cleanName
  have cleanDetails := notMem_append_cloneSuffix named.cleanDetails
  refine ⟨next, clones, ⟨?_, ?_⟩, ?_⟩
  · intro intact
    constructor
    · rw [← List.length_append]
      exact length_lt_of_zero cleanName nameBytes intact.name
    · rw [← List.length_append]
      exact length_lt_of_zero cleanDetails (fun index below _ => isDetails.bytes index below)
        intact.details
  · rintro ⟨nameFits, detailsFit⟩
    refine ⟨⟨_, ?_, (isName nameFits).ends⟩, ⟨_, ?_, isDetails.ends⟩, ?_, isAssigned detailsFit⟩
    · rwa [List.length_append]
    · rwa [List.length_append]
    · intro text clean isText
      rw [StringAt.unique isText clean named.isDetails named.cleanDetails]
      exact isDetails
  · rintro ⟨nameFits, detailsFit⟩
    refine ⟨isName nameFits, cleanName, ?_, isDetails, cleanDetails, ?_⟩
    · rwa [List.length_append]
    · rwa [List.length_append]

end Clone

/-! ## Chains of clones -/

/-- All clones of a chain are as they should be. Each call clones the clone before
it; in between everything may change but the two strings of that clone. -/
def AllIntact : Memory → Nat → List CloneCall → Prop
  | _, _, [] => True
  | memory, parent, call :: calls =>
      ∃ next, procClone memory parent call = some next ∧ Intact memory next parent call ∧
        ∀ later, SameOn (call.process + nameOffset) (call.process + pidOffset) later next →
          AllIntact later call.process calls

/-- Every new structure is apart from the one it is cloned from. -/
def Fresh : Nat → List CloneCall → Prop
  | _, [] => True
  | parent, call :: calls => call.Apart parent ∧ Fresh call.process calls

theorem Named.congr {memory other : Memory} {process : Nat} {name details : List UInt8}
    (named : Named memory process name details)
    (same : SameOn (process + nameOffset) (process + pidOffset) other memory) :
    Named other process name details := by
  have shortName := named.shortName
  have shortDetails := named.shortDetails
  refine ⟨named.isName.congr ?_, named.cleanName, shortName, named.isDetails.congr ?_,
    named.cleanDetails, shortDetails⟩ <;> apply same.mono <;>
    simp only [nameOffset, detailsOffset, pidOffset] <;> omega

/-- Every generation needs room for another suffix. -/
def RoomFor (generations : Nat) (name details : List UInt8) : Prop :=
  name.length + cloneSuffix.length * generations < 128 ∧
    details.length + cloneSuffix.length * generations < 256

theorem roomFor_succ_iff (generations : Nat) (name details : List UInt8) :
    RoomFor (generations + 1) name details ↔
      Room name details ∧
        RoomFor generations (name ++ cloneSuffix) (details ++ cloneSuffix) := by
  have suffixLength : cloneSuffix.length = 8 := rfl
  simp only [RoomFor, Room, List.length_append, suffixLength]
  omega

theorem roomFor_of_allIntact {calls : List CloneCall} {memory : Memory} {process : Nat}
    {name details : List UInt8} (named : Named memory process name details)
    (fresh : Fresh process calls) (intact : AllIntact memory process calls) :
    RoomFor calls.length name details := by
  induction calls generalizing memory process name details with
  | nil => exact ⟨by simpa using named.shortName, by simpa using named.shortDetails⟩
  | cons call calls induction =>
      rcases intact with ⟨next, clones, isIntact, rest⟩
      rcases procClone_intact_iff named fresh.1 with ⟨_, same, intactIff, renamed⟩
      cases clones.symm.trans same
      have room := intactIff.mp isIntact
      rw [List.length_cons, roomFor_succ_iff]
      exact ⟨room, induction (renamed room) fresh.2 (rest next fun _ _ _ => rfl)⟩

theorem allIntact_of_roomFor {calls : List CloneCall} {memory : Memory} {process : Nat}
    {name details : List UInt8} (named : Named memory process name details)
    (fresh : Fresh process calls) (room : RoomFor calls.length name details) :
    AllIntact memory process calls := by
  induction calls generalizing memory process name details with
  | nil => trivial
  | cons call calls induction =>
      rw [List.length_cons, roomFor_succ_iff] at room
      rcases procClone_intact_iff named fresh.1 with ⟨next, clones, intactIff, renamed⟩
      refine ⟨next, clones, intactIff.mpr room.1, fun later same => ?_⟩
      exact induction ((renamed room.1).congr same) fresh.2 room.2

/-- All clones of a chain are as they should be exactly if the first name has room
for as many suffixes as the chain is long, and so have the details. -/
theorem allIntact_iff {calls : List CloneCall} {memory : Memory} {process : Nat}
    {name details : List UInt8} (named : Named memory process name details)
    (fresh : Fresh process calls) :
    AllIntact memory process calls ↔
      name.length + 8 * calls.length < 128 ∧ details.length + 8 * calls.length < 256 :=
  ⟨roomFor_of_allIntact named fresh, allIntact_of_roomFor named fresh⟩

/-- `init`, a `USER PROCESS`. -/
def initName : List UInt8 := [0x69, 0x6E, 0x69, 0x74]

def userProcess : List UInt8 :=
  [0x55, 0x53, 0x45, 0x52, 0x20, 0x50, 0x52, 0x4F, 0x43, 0x45, 0x53, 0x53]

def initMemory : Memory :=
  storeBytes (storeBytes (fun _ => 0) (0x1000 + nameOffset) (initName ++ [0]))
    (0x1000 + detailsOffset) (userProcess ++ [0])

theorem named_initMemory : Named initMemory 0x1000 initName userProcess where
  isName := by
    have stored : StringAt (storeBytes (fun _ => 0) (0x1000 + nameOffset) (initName ++ [0]))
        (0x1000 + nameOffset) initName :=
      stringAt_storeBytes (by simp [nameOffset, initName, space])
    apply stored.congr
    apply sameOn_storeBytes <;> simp [nameOffset, detailsOffset, initName, userProcess, space]
  cleanName := by decide
  shortName := by decide
  isDetails := stringAt_storeBytes (by simp [detailsOffset, userProcess, space])
  cleanDetails := by decide
  shortDetails := by decide

/-- Clones of clones, each a page behind its parent. -/
def generations : Nat → Nat → List CloneCall
  | 0, _ => []
  | count + 1, process =>
      ⟨process + 0x1000, 0, 0, 0, 0, 0, 0, 0⟩ :: generations count (process + 0x1000)

theorem length_generations (count process : Nat) : (generations count process).length = count := by
  induction count generalizing process with
  | zero => rfl
  | succ count induction => rw [generations, List.length_cons, induction]

theorem fresh_generations {count process : Nat}
    (bound : process + 0x1000 * (count + 1) ≤ space) : Fresh process (generations count process) := by
  induction count generalizing process with
  | zero => trivial
  | succ count induction =>
      have further : process + 0x1000 + 0x1000 * (count + 1) ≤ space := by
        rw [Nat.mul_succ, Nat.add_comm (0x1000 * (count + 1)), ← Nat.add_assoc] at bound
        exact bound
      have page : 0x1000 ≤ 0x1000 * (count + 1) := Nat.le_mul_of_pos_right _ (Nat.succ_pos _)
      have fits : procSize ≤ 0x1000 := by decide
      have apart : process + procSize ≤ process + 0x1000 := Nat.add_le_add_left fits process
      refine ⟨⟨?_, ?_, .inl apart, ?_⟩, induction further⟩
      · exact Nat.le_trans (Nat.add_le_add_left (Nat.le_trans fits page) _) further
      · exact Nat.le_trans apart (Nat.le_trans (Nat.le_add_right _ _) further)
      · simp [space]

theorem allIntact_iff_init : AllIntact initMemory 0x1000 (generations 15 0x1000) := by
  rw [allIntact_iff named_initMemory (fresh_generations (by simp [space])), length_generations]
  decide

/-- The name of the sixteenth generation does not end in its array. -/
theorem not_allIntact_init :
    ¬∀ (memory : Memory) (process : Nat) (name details : List UInt8) (calls : List CloneCall),
      Named memory process name details → Fresh process calls →
        AllIntact memory process calls := by
  intro always
  have fresh : Fresh 0x1000 (generations 16 0x1000) := fresh_generations (by simp [space])
  have room := roomFor_of_allIntact named_initMemory fresh
    (always _ _ _ _ _ named_initMemory fresh)
  rw [length_generations] at room
  exact absurd room.1 (by decide)

end Dbos.CloneNames
