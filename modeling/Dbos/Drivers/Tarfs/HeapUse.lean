import Dbos.Drivers.Tarfs.Directory

/-! # The kernel heap during a lookup

`find_in_directory_tarfs` and `read_directory_tarfs` once more, with every
`kern_malloc` and `kern_free` on their way. What the functions return is as before;
here it is followed which blocks they leave behind. -/

namespace Dbos.Tarfs.HeapUse

open Dbos.Rounds Dbos.Strings

/-! ## Blocks -/

/-- What is needed of `kern_malloc`: the block it returns was not in use. -/
structure Allocator where
  choose : List Nat → Nat → Nat
  fresh : ∀ live size, choose live size ∉ live
  notNull : ∀ live size, choose live size ≠ 0

/-- The blocks in use, and whether every pointer that has been freed was one of them. -/
structure KernelHeap where
  live : List Nat
  faithful : Bool
deriving DecidableEq, Repr

namespace KernelHeap

def malloc (allocator : Allocator) (heap : KernelHeap) (size : Nat) : Nat × KernelHeap :=
  (allocator.choose heap.live size,
    { heap with live := allocator.choose heap.live size :: heap.live })

def free (heap : KernelHeap) (object : Nat) : KernelHeap where
  live := heap.live.erase object
  faithful := heap.faithful && decide (object ∈ heap.live)

def Keeps (before after : KernelHeap) : Prop := ∀ object ∈ before.live, object ∈ after.live

theorem Keeps.refl (heap : KernelHeap) : Keeps heap heap := fun _ => id

theorem Keeps.trans {first second third : KernelHeap} (before : Keeps first second)
    (after : Keeps second third) : Keeps first third :=
  fun object member => after object (before object member)

section Operations

variable (allocator : Allocator) {before heap : KernelHeap}

theorem Keeps.malloc (keeps : Keeps before heap) (size : Nat) :
    Keeps before (heap.malloc allocator size).2 :=
  fun object member => List.mem_cons_of_mem _ (keeps object member)

theorem Keeps.free (keeps : Keeps before heap) {object : Nat} (other : object ∉ before.live) :
    Keeps before (heap.free object) := by
  intro kept member
  have different : kept ≠ object := by
    rintro rfl
    exact other member
  exact (List.mem_erase_of_ne different).mpr (keeps kept member)

theorem free_malloc (heap : KernelHeap) (size : Nat) :
    (heap.malloc allocator size).2.free (heap.malloc allocator size).1 = heap := by
  simp [KernelHeap.malloc, KernelHeap.free]

end Operations

end KernelHeap

open KernelHeap

/-! ## The functions -/

/-- `check_parse_filename` duplicates the name of a child for a while. -/
def checkParseFilename (allocator : Allocator) (heap : KernelHeap) (isChild : Int)
    (name : Str) : KernelHeap :=
  if isChild = 0 then
    let (dup, heap) := heap.malloc allocator (name.length + 1)
    heap.free dup
  else heap

theorem checkParseFilename_eq (allocator : Allocator) (heap : KernelHeap) (isChild : Int)
    (name : Str) : checkParseFilename allocator heap isChild name = heap := by
  unfold checkParseFilename
  split
  · exact free_malloc allocator heap _
  · rfl

/-- `sizeof(tarfs_file_t)`. -/
def fileSize : Nat := 8

/-- `sizeof(vfs_gen_node_t)`. -/
def nodeSize : Nat := 64

/-- How the loop of `read_directory_tarfs` is left. -/
inductive Exit where
  | parent
  | child (file : Nat) (node : Node)
  | foreign

section Functions

variable (allocator : Allocator) (memory : Memory)

/-- The loop of `read_directory_tarfs`. -/
def readDirectoryLoop (node : Node) (entryNo : Nat) :
    Nat → Position → KernelHeap → Option (Exit × KernelHeap)
  | 0, _, _ => none
  | fuel + 1, position, heap =>
      let address := align position.address
      (readNodeTarfs memory node address position.header).bind fun header =>
        let size := getFileSizeTarfs header
        if header.isUstar then
          (Tarfs.checkParseFilename header.name node.name).bind fun (isChild, name) =>
            let heap := checkParseFilename allocator heap isChild name
            let parsed := header.setName name
            if isChild = 1 ∧ entryNo = 0 ∧ position.currentEntry = 0 then some (.parent, heap)
            else if isChild = 0 ∧ position.currentEntry = entryNo then
              let (file, heap) := heap.malloc allocator fileSize
              some (.child file (entryNode node address header parsed), heap)
            else
              readDirectoryLoop node entryNo fuel
                { address := (address + hdrSize + size) % wordSize
                  currentEntry :=
                    if isChild ≠ -1 then position.currentEntry + 1 else position.currentEntry
                  header := parsed } heap
        else some (.foreign, heap)

/-- `read_directory_tarfs`; `none` for the node is `NULL`. -/
def readDirectoryTarfs (fuel : Nat) (node : Option Node) (entryNo : Int) (heap : KernelHeap) :
    Option (Option Node × KernelHeap) :=
  match node with
  | none => some (none, heap)
  | some node =>
      if entryNo < 0 ∨ node.typeFlags ≠ .directory then some (none, heap)
      else
        let (header, heap) := heap.malloc allocator hdrSize
        (readDirectoryLoop allocator memory node entryNo.toNat fuel .initial heap).map
          fun (exit, heap) =>
            match exit with
            | .parent => (some node, heap.free header)
            | .child file found =>
                let (_, heap) := heap.malloc allocator nodeSize
                (some found, heap.free file)
            | .foreign =>
                -- `file` is still `NULL` here.
                (none, (heap.free header).free 0)

/-- The loop of `find_in_directory_tarfs_internal`. -/
def searchLoop (node : Node) (chunk : Str) :
    Nat → Nat → Header → KernelHeap → Option (Option (Nat × Node) × KernelHeap)
  | 0, _, _, _ => none
  | fuel + 1, address, header, heap =>
      let address := align address
      (readNodeTarfs memory node address header).bind fun header =>
        if header.isUstar then
          (Tarfs.checkParseFilename header.name node.name).bind fun (isChild, name) =>
            let heap := checkParseFilename allocator heap isChild name
            let size := getFileSizeTarfs header
            let header := header.setName name
            if isChild = 0 ∧ name = chunk then
              let (file, heap) := heap.malloc allocator fileSize
              some (some (file, buildNodeTarfs node header address), heap)
            else
              searchLoop node chunk fuel ((address + hdrSize + size) % wordSize) header heap
        else some (none, heap)

/-- `find_in_directory_tarfs_internal`. The copy of the path is never freed. -/
def findInDirectoryTarfsInternal (fuel : Nat) :
    Nat → Node → Str → Str → KernelHeap → Option (Option Node × KernelHeap)
  | 0, _, _, _, _ => none
  | depth + 1, node, path, filename, heap =>
      let (_, heap) := heap.malloc allocator (path.length + 1)
      let chunk := (path.drop 1).takeWhile fun byte => byte ≠ slash
      let (header, heap) := heap.malloc allocator hdrSize
      (searchLoop allocator memory node chunk fuel 0 (fun _ => 0) heap).bind
        fun (found, heap) =>
          match found with
          | none => some (none, (heap.free header).free 0)
          | some (file, found) =>
              let (_, heap) := heap.malloc allocator nodeSize
              let heap := heap.free file
              if found.name = filename then some (some found, heap)
              else
                findInDirectoryTarfsInternal fuel depth found (path.drop (1 + chunk.length))
                  filename heap

def findInDirectoryTarfs (fuel : Nat) (node : Option Node) (path : Option Str)
    (heap : KernelHeap) : Option (Option Node × KernelHeap) :=
  match node, path with
  | some node, some path =>
      if path.head? ≠ some slash then some (none, heap)
      else if path.length = 1 then some (some node, heap)
      else
        match strrchr path slash with
        | none => some (none, heap)
        | some filename =>
            findInDirectoryTarfsInternal allocator memory fuel path.length node path
              (filename.drop 1) heap
  | _, _ => some (none, heap)

end Functions

/-! ## What the functions return -/

section Results

variable (allocator : Allocator) (memory : Memory)

/-- What is returned for an exit of the loop. -/
def Exit.result (node : Node) : Exit → Option Node
  | .parent => some node
  | .child _ found => some found
  | .foreign => none

theorem result_readDirectoryLoop (node : Node) (entryNo fuel : Nat) (position : Position)
    (heap : KernelHeap) :
    (readDirectoryLoop allocator memory node entryNo fuel position heap).map
        (fun exit => exit.1.result node) =
      rounds (readDirectoryRound parseHeader memory node entryNo) fuel position := by
  induction fuel generalizing position heap with
  | zero => rfl
  | succ fuel induction =>
      simp only [readDirectoryLoop, rounds, readDirectoryRound]
      cases readNodeTarfs memory node (align position.address) position.header with
      | none => rfl
      | some header =>
          simp only [Option.bind_some]
          by_cases isUstar : header.isUstar = true
          · simp only [isUstar, if_true, parseHeader]
            cases Tarfs.checkParseFilename header.name node.name with
            | none => rfl
            | some outcome =>
                rcases outcome with ⟨isChild, name⟩
                simp only [Option.bind_some, Option.map_some]
                split
                · rfl
                · split
                  · rfl
                  · exact induction _ _
          · simp only [isUstar]
            rfl

theorem result_readDirectoryTarfs (fuel : Nat) (node : Node) (entryNo : Int)
    (heap : KernelHeap) :
    (readDirectoryTarfs allocator memory fuel (some node) entryNo heap).map Prod.fst =
      Tarfs.readDirectoryTarfs memory fuel node entryNo := by
  simp only [readDirectoryTarfs, Tarfs.readDirectoryTarfs]
  split
  · rfl
  · rw [← result_readDirectoryLoop allocator memory node entryNo.toNat fuel .initial
      (heap.malloc allocator hdrSize).2]
    cases readDirectoryLoop allocator memory node entryNo.toNat fuel .initial
      (heap.malloc allocator hdrSize).2 with
    | none => rfl
    | some outcome =>
        rcases outcome with ⟨exit, after⟩
        cases exit <;> rfl

theorem result_searchLoop (node : Node) (chunk : Str) (fuel address : Nat) (header : Header)
    (heap : KernelHeap) :
    (searchLoop allocator memory node chunk fuel address header heap).map
        (fun found => found.1.map Prod.snd) =
      Tarfs.searchLoop memory node chunk fuel address header := by
  induction fuel generalizing address header heap with
  | zero => rfl
  | succ fuel induction =>
      simp only [searchLoop, Tarfs.searchLoop]
      cases readNodeTarfs memory node (align address) header with
      | none => rfl
      | some header =>
          simp only [Option.bind_some]
          by_cases isUstar : header.isUstar = true
          · simp only [isUstar, if_true]
            cases Tarfs.checkParseFilename header.name node.name with
            | none => rfl
            | some outcome =>
                rcases outcome with ⟨isChild, name⟩
                simp only [Option.bind_some]
                split
                · rfl
                · exact induction _ _ _
          · simp only [isUstar]
            rfl

theorem result_findInDirectoryTarfsInternal (fuel depth : Nat) (node : Node) (path filename : Str)
    (heap : KernelHeap) :
    (findInDirectoryTarfsInternal allocator memory fuel depth node path filename heap).map
        Prod.fst =
      Tarfs.findInDirectoryTarfsInternal memory fuel depth node path filename := by
  induction depth generalizing node path heap with
  | zero => rfl
  | succ depth induction =>
      simp only [findInDirectoryTarfsInternal, Tarfs.findInDirectoryTarfsInternal]
      rw [← result_searchLoop allocator memory node _ fuel 0 (fun _ => 0)
        (((heap.malloc allocator (path.length + 1)).2.malloc allocator hdrSize).2)]
      cases searchLoop allocator memory node _ fuel 0 (fun _ => 0)
        (((heap.malloc allocator (path.length + 1)).2.malloc allocator hdrSize).2) with
      | none => rfl
      | some outcome =>
          rcases outcome with ⟨found, after⟩
          cases found with
          | none => rfl
          | some found =>
              rcases found with ⟨file, found⟩
              simp only [Option.bind_some, Option.map_some]
              split
              · rfl
              · exact induction _ _ _

theorem result_findInDirectoryTarfs (fuel : Nat) (node : Node) (path : Str)
    (heap : KernelHeap) :
    (findInDirectoryTarfs allocator memory fuel (some node) (some path) heap).map Prod.fst =
      Tarfs.findInDirectoryTarfs memory fuel node path := by
  unfold findInDirectoryTarfs Tarfs.findInDirectoryTarfs
  simp only
  split
  · rfl
  · split
    · rfl
    · cases strrchr path slash with
      | none => rfl
      | some filename => exact result_findInDirectoryTarfsInternal _ _ _ _ _ _ _ _

end Results

/-! ## What the functions leave behind -/

section Heap

variable {allocator : Allocator} {memory : Memory}

theorem heap_readDirectoryLoop {node : Node} {entryNo fuel : Nat} {position : Position}
    {heap after : KernelHeap}
    (left : readDirectoryLoop allocator memory node entryNo fuel position heap =
      some (.foreign, after)) : after = heap := by
  induction fuel generalizing position heap with
  | zero => cases left
  | succ fuel induction =>
      simp only [readDirectoryLoop, checkParseFilename_eq] at left
      rcases Option.bind_eq_some_iff.mp left with ⟨header, -, rest⟩
      split at rest
      case isTrue =>
        rcases Option.bind_eq_some_iff.mp rest with ⟨⟨isChild, name⟩, -, goesOn⟩
        simp only at goesOn
        split at goesOn
        · cases goesOn
        · split at goesOn
          · cases goesOn
          · exact induction goesOn
      case isFalse =>
        cases rest
        rfl

theorem heap_searchLoop {node : Node} {chunk : Str} {fuel address : Nat} {header : Header}
    {heap after : KernelHeap} {found : Option (Nat × Node)}
    (left : searchLoop allocator memory node chunk fuel address header heap =
      some (found, after)) :
    (found = none → after = heap) ∧
      ∀ file node, found = some (file, node) →
        (file, after) = heap.malloc allocator fileSize := by
  induction fuel generalizing address header with
  | zero => cases left
  | succ fuel induction =>
      simp only [searchLoop, checkParseFilename_eq] at left
      rcases Option.bind_eq_some_iff.mp left with ⟨read, -, rest⟩
      split at rest
      case isTrue =>
        rcases Option.bind_eq_some_iff.mp rest with ⟨⟨isChild, name⟩, -, goesOn⟩
        simp only at goesOn
        split at goesOn
        · cases goesOn
          refine ⟨fun isNone => (by cases isNone), fun file node isSome => ?_⟩
          cases isSome
          rfl
        · exact induction goesOn
      case isFalse =>
        cases rest
        exact ⟨fun _ => rfl, fun file node isSome => (by cases isSome)⟩

variable (allocator) in
theorem null_notMem_malloc {heap : KernelHeap} (notNull : 0 ∉ heap.live) (size : Nat) :
    0 ∉ (heap.malloc allocator size).2.live := by
  rw [KernelHeap.malloc, List.mem_cons, not_or]
  exact ⟨Ne.symm (allocator.notNull heap.live size), notNull⟩

theorem null_notMem_free {heap : KernelHeap} (notNull : 0 ∉ heap.live) (object : Nat) :
    0 ∉ (heap.free object).live := fun member => notNull (List.mem_of_mem_erase member)

/-- A search that fails has freed `NULL`, and the copy of its path is still there. -/
theorem heap_findInDirectoryTarfsInternal {fuel depth : Nat} {node : Node} {path filename : Str}
    {heap after : KernelHeap} (notNull : 0 ∉ heap.live)
    (failed : findInDirectoryTarfsInternal allocator memory fuel depth node path filename heap =
      some (none, after)) :
    after.faithful = false ∧ Keeps (heap.malloc allocator (path.length + 1)).2 after := by
  induction depth generalizing node path heap with
  | zero => cases failed
  | succ depth induction =>
      have tmpNotNull := null_notMem_malloc allocator notNull (path.length + 1)
      simp only [findInDirectoryTarfsInternal] at failed
      generalize (heap.malloc allocator (path.length + 1)).2 = withTmp at failed tmpNotNull ⊢
      rcases Option.bind_eq_some_iff.mp failed with ⟨⟨found, searched⟩, left, rest⟩
      have searchHeap := heap_searchLoop left
      cases found with
      | none =>
          have outcome : ((withTmp.malloc allocator hdrSize).2.free
              (withTmp.malloc allocator hdrSize).1).free 0 = after := by
            rw [← searchHeap.1 rfl]
            exact (Prod.mk.inj (Option.some.inj rest)).2
          rw [free_malloc] at outcome
          rw [← outcome]
          refine ⟨?_, (Keeps.refl withTmp).free tmpNotNull⟩
          simp [KernelHeap.free, tmpNotNull]
      | some found =>
          rcases found with ⟨file, found⟩
          have fileHeap : (file, searched) =
              (withTmp.malloc allocator hdrSize).2.malloc allocator fileSize :=
            searchHeap.2 file found rfl
          have fileOther : file ∉ withTmp.live := by
            intro member
            have isFresh := allocator.fresh (withTmp.malloc allocator hdrSize).2.live fileSize
            rw [(Prod.mk.inj fileHeap).1] at member
            exact isFresh (List.mem_cons_of_mem _ member)
          have keeps : Keeps withTmp searched := by
            rw [(Prod.mk.inj fileHeap).2]
            exact ((Keeps.refl withTmp).malloc allocator _).malloc allocator _
          have searchedNotNull : 0 ∉ searched.live := by
            rw [(Prod.mk.inj fileHeap).2]
            exact null_notMem_malloc allocator (null_notMem_malloc allocator tmpNotNull _) _
          simp only at rest
          split at rest
          · cases rest
          · have keepsLonger : Keeps withTmp
                ((searched.malloc allocator nodeSize).2.free file) :=
              (keeps.malloc allocator _).free fileOther
            rcases induction
              (null_notMem_free (null_notMem_malloc allocator searchedNotNull nodeSize) file) rest with
              ⟨unfaithful, keepsLater⟩
            refine ⟨unfaithful, keepsLonger.trans (Keeps.trans ?_ keepsLater)⟩
            exact (Keeps.refl _).malloc allocator _

end Heap

/-! ## When a failed lookup leaves the heap alone -/

/-- The blocks in use are the same as before, and only such blocks have been freed. -/
def Undisturbed (live : List Nat) (after : KernelHeap) : Prop :=
  (∀ object, object ∈ after.live ↔ object ∈ live) ∧ after.faithful = true

/-- The arguments are refused before anything is allocated. -/
def RefusedAtOnce (node : Option Node) (path : Option Str) : Prop :=
  node = none ∨ ∀ chars, path = some chars → chars.head? ≠ some slash

/-- The directory or the number is refused before anything is allocated. -/
def NoEntry (node : Option Node) (entryNo : Int) : Prop :=
  ∀ directory, node = some directory → entryNo < 0 ∨ directory.typeFlags ≠ .directory

theorem exists_strrchr {path : Str} (absolute : path.head? = some slash) :
    ∃ filename, strrchr path slash = some filename := by
  rcases List.head?_eq_some_iff.mp absolute with ⟨rest, rfl⟩
  rw [strrchr]
  split
  · exact ⟨_, rfl⟩
  · exact ⟨_, if_pos rfl⟩

section Undisturbed

variable {allocator : Allocator} {memory : Memory} {live : List Nat} (notNull : 0 ∉ live)

include notNull

theorem findInDirectoryTarfs_undisturbed_iff {fuel : Nat} {node : Option Node}
    {path : Option Str} {after : KernelHeap}
    (failed : findInDirectoryTarfs allocator memory fuel node path ⟨live, true⟩ =
      some (none, after)) : Undisturbed live after ↔ RefusedAtOnce node path := by
  have unchanged : after = ⟨live, true⟩ → Undisturbed live after := by
    rintro rfl
    exact ⟨fun object => Iff.rfl, rfl⟩
  cases node with
  | none =>
      have same : after = ⟨live, true⟩ := (Prod.mk.inj (Option.some.inj failed)).2.symm
      exact ⟨fun _ => .inl rfl, fun _ => unchanged same⟩
  | some node =>
      cases path with
      | none =>
          have same : after = ⟨live, true⟩ := (Prod.mk.inj (Option.some.inj failed)).2.symm
          exact ⟨fun _ => .inr fun chars isPath => (by cases isPath), fun _ => unchanged same⟩
      | some path =>
          simp only [findInDirectoryTarfs] at failed
          split at failed
          case isTrue relative =>
            have same : after = ⟨live, true⟩ := (Prod.mk.inj (Option.some.inj failed)).2.symm
            refine ⟨fun _ => .inr fun chars isPath => ?_, fun _ => unchanged same⟩
            rw [← Option.some.inj isPath]
            exact relative
          case isFalse absolute =>
            have notRefused : ¬RefusedAtOnce (some node) (some path) := by
              rintro (isNull | relative)
              · cases isNull
              · exact absolute (relative path rfl)
            split at failed
            case isTrue => cases failed
            case isFalse =>
              rcases exists_strrchr (Decidable.not_not.mp absolute) with ⟨filename, isFilename⟩
              rw [isFilename] at failed
              have outcome := heap_findInDirectoryTarfsInternal notNull failed
              simp only [notRefused, iff_false]
              rintro ⟨-, faithful⟩
              rw [outcome.1] at faithful
              cases faithful

theorem findInDirectoryTarfs_leaks {fuel : Nat} {node : Node} {path : Str} {after : KernelHeap}
    (absolute : path.head? = some slash)
    (failed : findInDirectoryTarfs allocator memory fuel (some node) (some path) ⟨live, true⟩ =
      some (none, after)) : ∃ object ∈ after.live, object ∉ live := by
  simp only [findInDirectoryTarfs, absolute, ne_eq, not_true_eq_false, if_false] at failed
  split at failed
  case isTrue => cases failed
  case isFalse =>
    rcases exists_strrchr absolute with ⟨filename, isFilename⟩
    rw [isFilename] at failed
    have keeps := (heap_findInDirectoryTarfsInternal notNull failed).2
    exact ⟨_, keeps _ List.mem_cons_self, allocator.fresh live (path.length + 1)⟩

theorem readDirectoryTarfs_undisturbed_iff {fuel : Nat} {node : Option Node} {entryNo : Int}
    {after : KernelHeap}
    (failed : readDirectoryTarfs allocator memory fuel node entryNo ⟨live, true⟩ =
      some (none, after)) : Undisturbed live after ↔ NoEntry node entryNo := by
  have unchanged : after = ⟨live, true⟩ → Undisturbed live after := by
    rintro rfl
    exact ⟨fun object => Iff.rfl, rfl⟩
  cases node with
  | none =>
      have same : after = ⟨live, true⟩ := (Prod.mk.inj (Option.some.inj failed)).2.symm
      exact ⟨fun _ directory isNode => (by cases isNode), fun _ => unchanged same⟩
  | some node =>
      simp only [readDirectoryTarfs] at failed
      split at failed
      case isTrue refused =>
        have same : after = ⟨live, true⟩ := (Prod.mk.inj (Option.some.inj failed)).2.symm
        refine ⟨fun _ directory isNode => ?_, fun _ => unchanged same⟩
        rw [← Option.some.inj isNode]
        exact refused
      case isFalse entered =>
        have notRefused : ¬NoEntry (some node) entryNo := fun noEntry => entered (noEntry node rfl)
        rcases Option.map_eq_some_iff.mp failed with ⟨⟨exit, left⟩, loops, outcome⟩
        cases exit with
        | parent => cases (Prod.mk.inj outcome).1
        | child file found => cases (Prod.mk.inj outcome).1
        | foreign =>
            have freed := (Prod.mk.inj outcome).2
            rw [heap_readDirectoryLoop loops, free_malloc] at freed
            simp only [notRefused, iff_false]
            rintro ⟨-, faithful⟩
            rw [← freed] at faithful
            simp [KernelHeap.free, notNull] at faithful

end Undisturbed

/-- A lookup or a read that fails leaves the heap alone exactly if its arguments are
refused at once. All others free `NULL`, and the lookups leave a block behind. -/
theorem failed_undisturbed_iff (allocator : Allocator) (memory : Memory) {live : List Nat}
    (notNull : 0 ∉ live) (fuel : Nat) (node : Option Node) (after : KernelHeap) :
    (∀ path, findInDirectoryTarfs allocator memory fuel node path ⟨live, true⟩ =
        some (none, after) →
      (Undisturbed live after ↔ RefusedAtOnce node path) ∧
        (¬RefusedAtOnce node path → ∃ object ∈ after.live, object ∉ live)) ∧
    ∀ entryNo, readDirectoryTarfs allocator memory fuel node entryNo ⟨live, true⟩ =
        some (none, after) →
      (Undisturbed live after ↔ NoEntry node entryNo) := by
  refine ⟨fun path failed => ⟨?_, fun begun => ?_⟩, fun entryNo failed => ?_⟩
  · exact findInDirectoryTarfs_undisturbed_iff notNull failed
  · cases node with
    | none => exact absurd (.inl rfl) begun
    | some node =>
        cases path with
        | none => exact absurd (.inr fun chars isPath => (by cases isPath)) begun
        | some path =>
            apply findInDirectoryTarfs_leaks notNull _ failed
            by_contra relative
            apply begun
            right
            rintro chars ⟨⟩
            exact relative
  · exact readDirectoryTarfs_undisturbed_iff notNull failed

def counting : Allocator where
  choose := fun live _ => live.max?.getD 0 + 1
  fresh := by
    intro live size member
    have bound : live.max?.getD 0 + 1 ≤ live.max?.getD 0 := List.le_max?_getD_of_mem member
    omega
  notNull := fun live size => Nat.succ_ne_zero _

/-- There is no `/z` in the archive. -/
theorem failed_undisturbed_iff_similarNames :
    ∃ after, findInDirectoryTarfs counting (imageAt 0x100000 similarNames) 10 (some similarRoot)
        (some [slash, 0x7A]) ⟨[], true⟩ = some (none, after) ∧
      (Undisturbed [] after ↔ RefusedAtOnce (some similarRoot) (some [slash, 0x7A])) := by
  have failed : (findInDirectoryTarfs counting (imageAt 0x100000 similarNames) 10
      (some similarRoot) (some [slash, 0x7A]) ⟨[], true⟩).map Prod.fst = some none := by
    decide +kernel
  rcases Option.map_eq_some_iff.mp failed with ⟨⟨found, after⟩, returned, isNull⟩
  cases isNull
  exact ⟨after, returned, ((failed_undisturbed_iff counting _ (by simp) 10 _ after).1 _
    returned).1⟩

theorem not_undisturbed_similarNames :
    ¬∀ (allocator : Allocator) (memory : Memory) (root : Node) (entries : List Entry),
      Archive memory root entries → ∀ (live : List Nat), 0 ∉ live →
      ∀ (fuel : Nat) (path : Str) (after : KernelHeap),
        findInDirectoryTarfs allocator memory fuel (some root) (some path) ⟨live, true⟩ =
          some (none, after) → Undisturbed live after := by
  intro always
  have failed : (findInDirectoryTarfs counting (imageAt 0x100000 similarNames) 10
      (some similarRoot) (some [slash, 0x7A]) ⟨[], true⟩) = some (none, ⟨[1], false⟩) := by
    decide +kernel
  have undisturbed := always counting _ similarRoot similarNames similarNames_archive []
    (by simp) 10 _ _ failed
  cases undisturbed.2

end Dbos.Tarfs.HeapUse
