import Mathlib.Data.List.GetD
import Dbos.Drivers.Tarfs.Tarfs
import Dbos.Foundation.Pieces

/-! # Archives as the build makes them

An archive as a list of entries, how the entries lie in memory, and what
`find_in_directory_tarfs` makes of them. -/

namespace Dbos.Tarfs

open Dbos.Strings Dbos.Pieces

/-! ## Entries -/

structure Entry where
  segments : List Str
  typeflag : UInt8
  contents : List UInt8
deriving DecidableEq, Repr

def Entry.IsDirectory (entry : Entry) : Prop := entry.typeflag = 0x35

instance (entry : Entry) : Decidable entry.IsDirectory :=
  inferInstanceAs (Decidable (entry.typeflag = 0x35))

def Entry.path (entry : Entry) : Str := joined slash entry.segments

def Entry.fullName (entry : Entry) : Str :=
  0x2E ::
    if entry.segments = [] then [slash]
    else entry.path ++ if entry.IsDirectory then [slash] else []

structure Entry.WellFormed (entry : Entry) : Prop where
  short : entry.fullName.length < 100
  nonempty : ∀ segment ∈ entry.segments, segment ≠ []
  slash_notMem : ∀ segment ∈ entry.segments, slash ∉ segment
  nul_notMem : ∀ segment ∈ entry.segments, 0 ∉ segment
  empty : entry.IsDirectory → entry.contents = []

instance Entry.WellFormed.decidable (entry : Entry) : Decidable entry.WellFormed :=
  decidable_of_iff
    (entry.fullName.length < 100 ∧ (∀ segment ∈ entry.segments, segment ≠ []) ∧
      (∀ segment ∈ entry.segments, slash ∉ segment) ∧
      (∀ segment ∈ entry.segments, 0 ∉ segment) ∧ (entry.IsDirectory → entry.contents = []))
    ⟨fun ⟨short, nonempty, noSlash, noNul, empty⟩ => ⟨short, nonempty, noSlash, noNul, empty⟩,
      fun ⟨short, nonempty, noSlash, noNul, empty⟩ => ⟨short, nonempty, noSlash, noNul, empty⟩⟩

def headerAt (memory : Memory) (address : Nat) : Header := fun index => memory (address + index)

/-- The header at the address, with the contents behind it, is the one of the entry. -/
structure Entry.At (memory : Memory) (address : Nat) (entry : Entry) : Prop where
  magic : (headerAt memory address).isUstar = true
  name : (headerAt memory address).name = entry.fullName
  typeflag : (headerAt memory address).typeflag = entry.typeflag
  size : getFileSizeTarfs (headerAt memory address) = entry.contents.length
  contents : ∀ index < entry.contents.length,
    memory (address + hdrSize + index) = entry.contents.getD index 0

instance Entry.At.decidable (memory : Memory) (address : Nat) (entry : Entry) :
    Decidable (entry.At memory address) :=
  decidable_of_iff
    ((headerAt memory address).isUstar = true ∧ (headerAt memory address).name = entry.fullName ∧
      (headerAt memory address).typeflag = entry.typeflag ∧
      getFileSizeTarfs (headerAt memory address) = entry.contents.length ∧
      ∀ index < entry.contents.length,
        memory (address + hdrSize + index) = entry.contents.getD index 0)
    ⟨fun ⟨magic, name, typeflag, size, contents⟩ => ⟨magic, name, typeflag, size, contents⟩,
      fun ⟨magic, name, typeflag, size, contents⟩ => ⟨magic, name, typeflag, size, contents⟩⟩

/-- The bytes of the blocks that contents of this length take up. -/
def blocks (length : Nat) : Nat := (length + (hdrSize - 1)) / hdrSize * hdrSize

/-- The entries lie one after the other from the offset on, with a zero block at
the end. -/
def Laid (memory : Memory) (base size : Nat) : Nat → List Entry → Prop
  | offset, [] =>
      offset + hdrSize ≤ size ∧ ∀ index < hdrSize, memory (base + offset + index) = 0
  | offset, entry :: entries =>
      entry.At memory (base + offset) ∧
        Laid memory base size (offset + hdrSize + blocks entry.contents.length) entries

instance Laid.decidable (memory : Memory) (base size : Nat) :
    ∀ (offset : Nat) (entries : List Entry), Decidable (Laid memory base size offset entries)
  | offset, [] => inferInstanceAs (Decidable
      (offset + hdrSize ≤ size ∧ ∀ index < hdrSize, memory (base + offset + index) = 0))
  | offset, entry :: entries =>
      have := Laid.decidable memory base size
        (offset + hdrSize + blocks entry.contents.length) entries
      inferInstanceAs (Decidable (entry.At memory (base + offset) ∧
        Laid memory base size (offset + hdrSize + blocks entry.contents.length) entries))

/-- The directory of every entry is one of the entries before it. -/
def ParentsPrecede : List Entry → List Entry → Prop
  | _, [] => True
  | before, entry :: entries =>
      (entry.segments ≠ [] → ∃ directory ∈ before,
        directory.IsDirectory ∧ directory.segments = entry.segments.dropLast) ∧
        ParentsPrecede (before ++ [entry]) entries

/-- A well-formed archive, and the node that has been mounted for it. -/
structure Archive (memory : Memory) (root : Node) (entries : List Entry) : Prop where
  mountpoint : root.name = [slash]
  directory : root.typeFlags = .directory
  base_pos : 0 < root.basePointer
  fits : root.basePointer + root.size ≤ wordSize
  laid : Laid memory root.basePointer root.size 0 entries
  first : ∃ entry rest, entries = entry :: rest ∧ entry.segments = [] ∧ entry.IsDirectory
  wellFormed : ∀ entry ∈ entries, entry.WellFormed
  distinct : (entries.map fun entry => entry.segments).Nodup
  ordered : ParentsPrecede [] entries

/-! ## What is expected of a lookup -/

/-- The node has the size, the type and the contents of the entry. -/
structure Node.Shows (memory : Memory) (node : Node) (entry : Entry) : Prop where
  size : node.size = entry.contents.length
  typeFlags : node.typeFlags = getTypeFlags entry.typeflag
  contents : ∀ index < entry.contents.length,
    memory ((node.basePointer + index) % wordSize) = entry.contents.getD index 0

/-- The segments that an absolute path names. -/
def components (path : Str) : List Str :=
  if path = [slash] then [] else piecesOf slash (path.drop 1)

def sought (entries : List Entry) (path : Str) : Option Entry :=
  entries.find? fun entry => entry.segments = components path

/-- A result shows the entry, or is `NULL` if there is none. -/
def Answers (memory : Memory) : Option Entry → Option (Option Node) → Prop
  | some entry, result => ∃ node, result = some (some node) ∧ node.Shows memory entry
  | none, result => result = some none

/-- The lookup comes to an end with the entry the path names. -/
def Exact (memory : Memory) (root : Node) (entries : List Entry) (path : Str) : Prop :=
  ∃ bound, ∀ fuel ≥ bound,
    Answers memory (sought entries path) (findInDirectoryTarfs memory fuel root path)

/-! ## Headers -/

def Agree (header other : Header) : Prop := ∀ index < hdrSize, header index = other index

theorem Agree.string {header other : Header} (agree : Agree header other) (offset : Nat) :
    header.string offset = other.string offset := by
  unfold Header.string
  congr 1
  refine List.map_congr_left fun index member => agree _ ?_
  have bound := List.mem_range.mp member
  omega

theorem Agree.isUstar {header other : Header} (agree : Agree header other) :
    header.isUstar = other.isUstar := by
  unfold Header.isUstar
  rw [agree.string]

theorem Agree.getFileSizeTarfs {header other : Header} (agree : Agree header other) :
    getFileSizeTarfs header = getFileSizeTarfs other := by
  unfold Tarfs.getFileSizeTarfs
  congr 1
  refine List.map_congr_left fun index member => agree _ ?_
  have bound := List.mem_range.mp member
  unfold hdrSize
  omega

@[simp] theorem getFileSizeTarfs_setName (header : Header) (name : Str) :
    getFileSizeTarfs (header.setName name) = getFileSizeTarfs header := by
  unfold getFileSizeTarfs
  congr 1

@[simp] theorem typeflag_setName (header : Header) (name : Str) :
    (header.setName name).typeflag = header.typeflag := rfl

theorem string_eq {header : Header} {offset : Nat} {name : Str}
    (bound : offset + name.length < hdrSize)
    (bytes : ∀ index < name.length, header (offset + index) = name.getD index 0)
    (ends : header (offset + name.length) = 0) (nulNotMem : 0 ∉ name) :
    header.string offset = name := by
  have split : hdrSize - offset = name.length + ((hdrSize - offset - name.length - 1) + 1) := by
    omega
  have start : (List.range name.length).map (fun index => header (offset + index)) = name := by
    refine List.ext_getElem (by simp) fun index left right => ?_
    rw [List.getElem_map, List.getElem_range, bytes index right, List.getD_eq_getElem]
  unfold Header.string
  rw [split, List.range_add, List.map_append, start, List.range_succ_eq_map, List.map_cons,
    List.map_cons, List.takeWhile_append_of_pos]
  · simp [ends]
  · intro byte member
    simpa using fun zero : byte = 0 => nulNotMem (zero ▸ member)

theorem name_setName (header : Header) {name : Str} (short : name.length < 100)
    (nulNotMem : 0 ∉ name) : (header.setName name).name = name := by
  refine string_eq ?_ (fun index bound => ?_) ?_ nulNotMem
  · unfold hdrSize
    omega
  · rw [Nat.zero_add, Header.setName, if_pos (Nat.lt_trans bound short)]
  · rw [Nat.zero_add, Header.setName, if_pos short, List.getD_eq_default _ _ (Nat.le_refl _)]

/-! ## Which entry is taken for a child -/

/-- The entry's last segment is the child, and the child stands, at least with its
beginning, directly behind the first occurrence of the directory's name in the
path. The name of the root is empty here. -/
def TakenFor (directory child : Str) (entry : Entry) : Prop :=
  entry.segments.getLast? = some child ∧
    ∃ before, FirstAt entry.path directory before ∧
      before ++ directory ++ slash :: child <+: entry.path

instance TakenFor.decidable (directory child : Str) (entry : Entry) :
    Decidable (TakenFor directory child entry) :=
  decidable_of_iff
    (entry.segments.getLast? = some child ∧ ∃ before ∈ entry.path.inits,
      FirstAt entry.path directory before ∧ before ++ directory ++ slash :: child <+: entry.path)
    (and_congr_right fun _ => ⟨fun ⟨before, _, both⟩ => ⟨before, both⟩,
      fun ⟨before, firstAt, child⟩ => ⟨before, (List.mem_inits _ _).mpr
        ((List.prefix_append before directory).trans firstAt.occurs), firstAt, child⟩⟩)

/-- The name by which a directory is searched for in a path. -/
def key (name : Str) : Str := if name = [slash] then [] else name

theorem Entry.path_eq {entry : Entry} {last : Str} (isLast : entry.segments.getLast? = some last) :
    entry.path = joined slash entry.segments.dropLast ++ slash :: last :=
  joined_of_getLast? slash isLast

theorem firstAt_slash {entry : Entry} {before : Str} (nonroot : entry.segments ≠ []) :
    FirstAt entry.path [slash] before ↔ before = [] := by
  have starts : [slash] <+: entry.path := by
    unfold Entry.path joined
    cases shape : entry.segments with
    | nil => exact absurd shape nonroot
    | cons segment segments => simp
  constructor
  · exact fun firstAt => firstAt.nil starts
  · rintro rfl
    exact ⟨starts, fun _ _ => Nat.zero_le _⟩

theorem path_of_fullName {entry : Entry} (wellFormed : entry.WellFormed)
    (nonroot : entry.segments ≠ []) :
    ∃ path, entry.fullName = 0x2E :: path ∧ path ≠ [slash] ∧
      (if path.getLast? = some slash then path.dropLast else path) = entry.path := by
  have isLast := List.getLast?_eq_some_getLast nonroot
  have member := List.getLast_mem nonroot
  have split := Entry.path_eq isLast
  have noSlash : entry.path.getLast? ≠ some slash := by
    intro ends
    rw [split, List.getLast?_append_cons, List.getLast?_cons_of_ne_nil
      (wellFormed.nonempty _ member)] at ends
    exact wellFormed.slash_notMem _ member (List.mem_of_getLast? ends)
  unfold Entry.fullName
  rw [if_neg nonroot]
  refine ⟨_, rfl, ?_⟩
  by_cases isDirectory : entry.IsDirectory
  · rw [if_pos isDirectory, List.getLast?_concat, if_pos rfl, List.dropLast_concat]
    refine ⟨fun slashOnly => ?_, rfl⟩
    have lengths := congrArg List.length slashOnly
    simp only [split, List.length_append, List.length_cons, List.length_nil] at lengths
    omega
  · rw [if_neg isDirectory, List.append_nil, if_neg noSlash]
    refine ⟨fun slashOnly => noSlash ?_, rfl⟩
    rw [slashOnly]
    rfl

theorem prefix_occ_iff {entry : Entry} {parent found : Str} (last : Str)
    (nonroot : entry.segments ≠ []) (nonempty : parent ≠ [])
    (isFound : strstr entry.path parent = some found) :
    slash :: last <+: (if parent = [slash] then found else found.drop parent.length) ↔
      ∃ before, FirstAt entry.path (key parent) before ∧
        before ++ key parent ++ slash :: last <+: entry.path := by
  rcases (strstr_eq_some_iff nonempty).mp isFound with ⟨before, split, firstAt⟩
  unfold key
  split
  case isTrue isRoot =>
    rw [isRoot, firstAt_slash nonroot] at firstAt
    rw [firstAt, List.nil_append] at split
    simp [firstAt_nil_iff, split]
  case isFalse notRoot =>
    have starts : parent <+: found := by
      have occurs := firstAt.occurs
      rw [split] at occurs
      exact (List.prefix_append_right_inj before).mp occurs
    rcases starts with ⟨occ, rfl⟩
    rw [List.drop_left]
    constructor
    · intro child
      refine ⟨before, firstAt, ?_⟩
      rw [split, List.append_assoc, List.prefix_append_right_inj, List.prefix_append_right_inj]
      exact child
    · rintro ⟨other, otherAt, child⟩
      rw [← firstAt.unique otherAt, split, List.append_assoc, List.prefix_append_right_inj,
        List.prefix_append_right_inj] at child
      exact child

theorem strstr_of_takenFor {entry : Entry} {parent child : Str} (nonempty : parent ≠ [])
    (taken : TakenFor (key parent) child entry) : strstr entry.path parent ≠ none := by
  rcases taken with ⟨isLast, before, firstAt, -⟩
  have nonroot : entry.segments ≠ [] := by
    rintro root
    simp [root] at isLast
  have found : ∃ before, FirstAt entry.path parent before := by
    unfold key at firstAt
    split at firstAt
    case isTrue isRoot => exact ⟨[], isRoot ▸ (firstAt_slash nonroot).mpr rfl⟩
    case isFalse => exact ⟨before, firstAt⟩
  rcases found with ⟨before, firstAt⟩
  rcases (List.prefix_append before parent).trans firstAt.occurs with ⟨found, split⟩
  rw [(strstr_eq_some_iff nonempty).mpr ⟨before, split.symm, firstAt⟩]
  exact Option.some_ne_none found

theorem checkParseFilename_spec {entry : Entry} (wellFormed : entry.WellFormed)
    {parent : Str} (nonempty : parent ≠ []) :
    ∃ isChild name, checkParseFilename entry.fullName parent = some (isChild, name) ∧
      ∀ chunk, isChild = 0 ∧ name = chunk ↔ TakenFor (key parent) chunk entry := by
  by_cases root : entry.segments = []
  · refine ⟨1, parent, by simp [checkParseFilename, Entry.fullName, root], fun chunk => ?_⟩
    simp [TakenFor, root]
  · rcases path_of_fullName wellFormed root with ⟨path, isName, notSlash, stripped⟩
    have isLast := List.getLast?_eq_some_getLast root
    have noSlash := wellFormed.slash_notMem _ (List.getLast_mem root)
    rw [isName]
    unfold checkParseFilename
    simp only [if_neg notSlash, stripped]
    cases found : strstr entry.path parent with
    | none =>
        refine ⟨_, _, rfl, fun chunk => ⟨fun both => absurd both.1 (by decide), fun taken => ?_⟩⟩
        exact absurd found (strstr_of_takenFor nonempty taken)
    | some found' =>
        have compared := prefix_occ_iff (entry.segments.getLast root) root nonempty found
        have child := strrchr_append_cons (joined slash entry.segments.dropLast) noSlash
        rw [← Entry.path_eq isLast] at child
        simp only [child, Option.map_some, strncmp_eq_zero_iff]
        unfold TakenFor
        simp only [isLast, Option.some_inj]
        by_cases taken : ∃ before, FirstAt entry.path (key parent) before ∧
            before ++ key parent ++ slash :: entry.segments.getLast root <+: entry.path
        · rw [if_pos (compared.mpr taken)]
          refine ⟨_, _, rfl, fun chunk => ?_⟩
          constructor
          · rintro ⟨-, rfl⟩
            exact ⟨rfl, taken⟩
          · exact fun both => ⟨rfl, both.1⟩
        · rw [if_neg (mt compared.mp taken)]
          refine ⟨_, _, rfl, fun chunk => ⟨fun both => absurd both.1 (by decide), ?_⟩⟩
          rintro ⟨rfl, otherwise⟩
          exact absurd otherwise taken

/-! ## The search through a directory -/

/-- A node through which the archive is read. -/
structure Reads (root node : Node) : Prop where
  directory : node.typeFlags = .directory
  base : node.basePointer = root.basePointer
  size : node.size = root.size ∨ node.size = 0

theorem readNodeTarfs_agree (memory : Memory) {root node : Node} (reads : Reads root node)
    (basePos : 0 < root.basePointer) (fits : root.basePointer + root.size ≤ wordSize)
    {offset : Nat} (within : offset + hdrSize ≤ root.size) (header : Header) :
    ∃ header', readNodeTarfs memory node offset header = some header' ∧
      Agree header' (headerAt memory (root.basePointer + offset)) := by
  have address : ∀ index < hdrSize,
      (node.basePointer + offset + index) % wordSize = root.basePointer + offset + index := by
    intro index bound
    rw [reads.base, Nat.mod_eq_of_lt (by omega)]
  have len : (if (offset + hdrSize) % wordSize > (node.size + wordSize - 1) % wordSize then
      (node.size + wordSize - offset) % wordSize else hdrSize) = hdrSize := by
    have sizes := reads.size
    rw [ite_eq_right_iff]
    intro past
    simp only [wordSize, hdrSize] at past fits within ⊢
    omega
  have notNull : node.basePointer ≠ 0 := by
    rw [reads.base]
    omega
  unfold readNodeTarfs
  rw [if_neg notNull, if_neg fun outside => outside.1 reads.directory]
  simp only [len, Nat.le_refl, if_true]
  refine ⟨_, rfl, fun index bound => ?_⟩
  simp only [bound, if_true, address index bound]
  rfl

theorem Laid.within {memory : Memory} {base size offset : Nat} {entries : List Entry}
    (laid : Laid memory base size offset entries) : offset + hdrSize ≤ size := by
  induction entries generalizing offset with
  | nil => exact laid.1
  | cons entry entries induction =>
      have later := induction laid.2
      omega

theorem le_blocks (length : Nat) : length ≤ blocks length := by
  unfold blocks hdrSize
  omega

theorem align_next {offset length : Nat} (aligned : offset % hdrSize = 0)
    (within : offset + hdrSize + blocks length < wordSize) :
    align ((offset + hdrSize + length) % wordSize) = offset + hdrSize + blocks length := by
  have bound := le_blocks length
  rw [Nat.mod_eq_of_lt (by omega)]
  unfold align blocks hdrSize at *
  split
  · rw [Nat.mod_eq_of_lt] <;> omega
  · omega

theorem getTypeFlags_eq_directory (flag : UInt8) :
    getTypeFlags flag = .directory ↔ flag = 0x35 := by
  grind [getTypeFlags]

/-- The node that is built for an entry at an offset. -/
structure Located (memory : Memory) (root : Node) (offset : Nat) (name : Str) (entry : Entry)
    (node : Node) : Prop where
  name : node.name = name
  shows : node.Shows memory entry
  reads : entry.IsDirectory → Reads root node
  placed : entry.contents ≠ [] → node.basePointer = root.basePointer + offset + hdrSize
  bounded : node.size < wordSize

theorem Entry.WellFormed.getLast {entry : Entry} (wellFormed : entry.WellFormed) {name : Str}
    (isLast : entry.segments.getLast? = some name) : name.length < 100 ∧ 0 ∉ name := by
  have bound := wellFormed.short
  have nonroot : entry.segments ≠ [] := by
    rintro root
    simp [root] at isLast
  simp only [Entry.fullName, if_neg nonroot, Entry.path_eq isLast, List.length_cons,
    List.length_append] at bound
  exact ⟨by omega, wellFormed.nul_notMem name (List.mem_of_getLast? isLast)⟩

theorem buildNodeTarfs_located {memory : Memory} {root directory : Node}
    (reads : Reads root directory) (fits : root.basePointer + root.size ≤ wordSize)
    {entry : Entry} (wellFormed : entry.WellFormed) {offset : Nat}
    (entryAt : entry.At memory (root.basePointer + offset))
    (within : offset + hdrSize + entry.contents.length + hdrSize ≤ root.size)
    {header : Header} (agree : Agree header (headerAt memory (root.basePointer + offset)))
    {name : Str} (member : entry.segments.getLast? = some name) :
    Located memory root offset name entry
      (buildNodeTarfs directory (header.setName name) offset) := by
  have size : getFileSizeTarfs header = entry.contents.length :=
    agree.getFileSizeTarfs.trans entryAt.size
  have typeflag : header.typeflag = entry.typeflag :=
    (agree 156 (by decide)).trans entryAt.typeflag
  have isName : (buildNodeTarfs directory (header.setName name) offset).name = name := by
    rcases wellFormed.getLast member with ⟨short, noNul⟩
    exact name_setName header short noNul
  have blockPos : 0 < hdrSize := by decide
  have placed : 0 < entry.contents.length →
      (buildNodeTarfs directory (header.setName name) offset).basePointer =
        root.basePointer + offset + hdrSize := by
    intro positive
    rw [← size] at positive
    simp only [buildNodeTarfs, getFileSizeTarfs_setName, if_pos positive, reads.base]
    exact Nat.mod_eq_of_lt (by omega)
  refine ⟨isName, ⟨?_, ?_, ?_⟩, ?_, fun nonempty => placed (List.length_pos_iff.mpr nonempty), ?_⟩
  · simpa [buildNodeTarfs] using size
  · simp [buildNodeTarfs, typeflag]
  · intro index bound
    rw [placed (by omega), Nat.mod_eq_of_lt (by omega)]
    exact entryAt.contents index bound
  · intro isDirectory
    have empty := wellFormed.empty isDirectory
    refine ⟨?_, ?_, .inr ?_⟩
    · simpa [buildNodeTarfs, typeflag, getTypeFlags_eq_directory, Entry.IsDirectory] using
        isDirectory
    · simp [buildNodeTarfs, size, empty, reads.base]
    · simp [buildNodeTarfs, size, empty]
  · have bound : entry.contents.length < wordSize := by omega
    simpa [buildNodeTarfs, size] using bound

theorem readNodeTarfs_end {memory : Memory} {root node : Node} (reads : Reads root node)
    (basePos : 0 < root.basePointer) (fits : root.basePointer + root.size ≤ wordSize)
    {offset : Nat} (laid : Laid memory root.basePointer root.size offset []) (header : Header) :
    ∃ read, readNodeTarfs memory node offset header = some read ∧ read.isUstar = false := by
  rcases readNodeTarfs_agree memory reads basePos fits laid.within header with
    ⟨read, isRead, agree⟩
  refine ⟨read, isRead, ?_⟩
  have noMagic : read.string 257 = [] := by
    refine string_eq (by decide) (fun index bound => absurd bound (by simp)) ?_ (by simp)
    exact (agree 257 (by decide)).trans (laid.2 257 (by decide))
  simp [Header.isUstar, noMagic, magic]

/-- The header has been read for the entry. -/
structure Entry.ReadAs (entry : Entry) (read : Header) : Prop where
  isUstar : read.isUstar = true
  name : read.name = entry.fullName
  size : getFileSizeTarfs read = entry.contents.length
  typeflag : read.typeflag = entry.typeflag

/-- The header of an entry is read, and the next one is looked for where it lies. -/
theorem readNodeTarfs_entry {memory : Memory} {root node : Node} (reads : Reads root node)
    (basePos : 0 < root.basePointer) (fits : root.basePointer + root.size ≤ wordSize)
    {offset : Nat} {entry : Entry} {entries : List Entry}
    (laid : Laid memory root.basePointer root.size offset (entry :: entries))
    (aligned : offset % hdrSize = 0) (header : Header) :
    (∃ read, readNodeTarfs memory node offset header = some read ∧
      Agree read (headerAt memory (root.basePointer + offset)) ∧ entry.ReadAs read) ∧
      (offset + hdrSize + blocks entry.contents.length) % hdrSize = 0 ∧
      align ((offset + hdrSize + entry.contents.length) % wordSize) =
        offset + hdrSize + blocks entry.contents.length := by
  rcases readNodeTarfs_agree memory reads basePos fits laid.within header with
    ⟨read, isRead, agree⟩
  rcases laid with ⟨entryAt, later⟩
  have laterWithin := later.within
  refine ⟨⟨read, isRead, agree, ?_⟩, ?_, align_next aligned (by omega)⟩
  · exact {
      isUstar := agree.isUstar.trans entryAt.magic
      name := (agree.string 0).trans entryAt.name
      size := agree.getFileSizeTarfs.trans entryAt.size
      typeflag := (agree 156 (by decide)).trans entryAt.typeflag }
  · have blocksAligned : blocks entry.contents.length % hdrSize = 0 := Nat.mul_mod_left _ _
    simp only [hdrSize] at aligned blocksAligned ⊢
    omega

/-- Where an entry lies behind the first one. -/
def offsetOf : List Entry → Entry → Nat
  | [], _ => 0
  | first :: entries, entry =>
      if first = entry then 0
      else hdrSize + blocks first.contents.length + offsetOf entries entry

/-- What the search finds through a directory whose entries lie from the offset on. -/
def Finds (memory : Memory) (root : Node) (entries : List Entry) (offset : Nat) (chunk : Str) :
    Option Entry → Option (Option Node) → Prop
  | some entry, result => ∃ node, result = some (some node) ∧
      Located memory root (offset + offsetOf entries entry) chunk entry node
  | none, result => result = some none

/-- The first entry that is taken for the child. -/
def chosen (entries : List Entry) (directory child : Str) : Option Entry :=
  entries.find? fun entry => TakenFor directory child entry

theorem Finds.later {memory : Memory} {root : Node} {first : Entry} {entries : List Entry}
    {offset : Nat} {directory chunk : Str} {result : Option (Option Node)}
    (notTaken : ¬TakenFor directory chunk first)
    (finds : Finds memory root entries (offset + hdrSize + blocks first.contents.length) chunk
      (chosen entries directory chunk) result) :
    Finds memory root (first :: entries) offset chunk (chosen entries directory chunk) result := by
  cases isChosen : chosen entries directory chunk with
  | none =>
      rw [isChosen] at finds
      exact finds
  | some entry =>
      rw [isChosen] at finds
      have isTaken : TakenFor directory chunk entry := by
        simpa using List.find?_some isChosen
      have different : first ≠ entry := fun equal => notTaken (equal ▸ isTaken)
      rcases finds with ⟨node, found, located⟩
      refine ⟨node, found, ?_⟩
      rw [offsetOf, if_neg different, ← Nat.add_assoc, ← Nat.add_assoc]
      exact located

/-- The loop finds the first entry that is taken for the child. -/
theorem searchLoop_finds {memory : Memory} {root directory : Node} {entries : List Entry}
    {offset : Nat} (reads : Reads root directory) (nonempty : directory.name ≠ [])
    (basePos : 0 < root.basePointer) (fits : root.basePointer + root.size ≤ wordSize)
    (wellFormed : ∀ entry ∈ entries, entry.WellFormed)
    (laid : Laid memory root.basePointer root.size offset entries)
    (aligned : offset % hdrSize = 0) (chunk : Str) {fuel address : Nat}
    (enough : entries.length < fuel) (atOffset : align address = offset) (header : Header) :
    Finds memory root entries offset chunk (chosen entries (key directory.name) chunk)
      (searchLoop memory directory chunk fuel address header) := by
  induction entries generalizing offset fuel address header with
  | nil =>
      cases fuel with
      | zero => simp at enough
      | succ fuel =>
          rcases readNodeTarfs_end reads basePos fits laid header with ⟨read, isRead, notUstar⟩
          simp [searchLoop, atOffset, isRead, notUstar, chosen, Finds]
  | cons entry entries induction =>
      cases fuel with
      | zero => simp at enough
      | succ fuel =>
          rcases readNodeTarfs_entry reads basePos fits laid aligned header with
            ⟨⟨read, isRead, agree, readAs⟩, laterAligned, atNext⟩
          rcases laid with ⟨entryAt, later⟩
          have isWellFormed := wellFormed entry (by simp)
          have laterWithin := later.within
          have bound := le_blocks entry.contents.length
          rcases checkParseFilename_spec isWellFormed nonempty with
            ⟨isChild, name, decided, taken⟩
          simp only [searchLoop, atOffset, isRead, readAs.isUstar, if_true, readAs.name, decided,
            readAs.size, taken chunk, chosen, List.find?_cons]
          by_cases isTaken : TakenFor (key directory.name) chunk entry
          · rw [((taken chunk).mpr isTaken).2]
            simp only [isTaken, decide_true, if_true]
            refine ⟨_, rfl, ?_⟩
            rw [offsetOf, if_pos rfl, Nat.add_zero]
            exact buildNodeTarfs_located reads fits isWellFormed entryAt (by omega) agree
              isTaken.1
          · simp only [isTaken, decide_false, if_false]
            refine Finds.later isTaken (induction (fun other member => wellFormed other
              (by simp [member])) later laterAligned (Nat.lt_of_succ_lt_succ enough) atNext _)

/-! ## The walk along a path -/

/-- The contents of the entry begin with a header of their own. -/
def Entry.HoldsHeader (entry : Entry) : Prop :=
  Header.isUstar (fun index => entry.contents.getD index 0) = true

instance (entry : Entry) : Decidable entry.HoldsHeader :=
  inferInstanceAs (Decidable (Header.isUstar (fun index => entry.contents.getD index 0) = true))

theorem isUstar_zero : Header.isUstar (fun _ => 0) = false := by
  have noMagic : Header.string (fun _ => 0) 257 = [] :=
    string_eq (by decide) (fun index bound => absurd bound (by simp)) rfl (by simp)
  simp [Header.isUstar, noMagic, magic]

theorem readNodeTarfs_file {memory : Memory} {root node : Node} {offset : Nat} {name : Str}
    {entry : Entry} (located : Located memory root offset name entry node) (file : ¬entry.IsDirectory)
    (noHeader : ¬entry.HoldsHeader) :
    ∃ header, readNodeTarfs memory node 0 (fun _ => 0) = some header ∧
      header.isUstar = false := by
  have notDirectory : node.typeFlags ≠ .directory := by
    rw [located.shows.typeFlags, ne_eq, getTypeFlags_eq_directory]
    exact file
  unfold readNodeTarfs
  by_cases null : node.basePointer = 0
  · exact ⟨_, by rw [if_pos null], isUstar_zero⟩
  by_cases empty : node.size = 0
  · exact ⟨_, by rw [if_neg null, if_pos ⟨notDirectory, .inl (Nat.le_of_eq empty)⟩],
      isUstar_zero⟩
  have bounded := located.bounded
  have size := located.shows.size
  have len : (if (0 + hdrSize) % wordSize > (node.size + wordSize - 1) % wordSize then
      (node.size + wordSize - 0) % wordSize else hdrSize) = min node.size hdrSize := by
    split
    case isTrue past =>
      simp only [wordSize, hdrSize] at past bounded ⊢
      omega
    case isFalse past =>
      simp only [wordSize, hdrSize] at past bounded ⊢
      omega
  rw [if_neg null, if_neg fun outside => by omega]
  simp only [len, Nat.min_le_right, if_true]
  refine ⟨_, rfl, ?_⟩
  have agree : Agree (fun index => if index < min node.size hdrSize then
      memory ((node.basePointer + 0 + index) % wordSize) else 0)
      (fun index => entry.contents.getD index 0) := by
    intro index bound
    by_cases within : index < node.size
    · have less : index < min node.size hdrSize := by omega
      simp only [less, if_true, Nat.add_zero]
      exact located.shows.contents index (by omega)
    · have notLess : ¬index < min node.size hdrSize := by omega
      simp only [notLess, if_false]
      rw [List.getD_eq_default _ _ (by omega)]
  rw [agree.isUstar]
  exact Bool.eq_false_iff.mpr noHeader

theorem searchLoop_file {memory : Memory} {root node : Node} {offset : Nat} {name : Str}
    {entry : Entry} (located : Located memory root offset name entry node) (file : ¬entry.IsDirectory)
    (noHeader : ¬entry.HoldsHeader) (chunk : Str) {fuel : Nat} (enough : 0 < fuel) :
    searchLoop memory node chunk fuel 0 (fun _ => 0) = some none := by
  rcases readNodeTarfs_file located file noHeader with ⟨header, isRead, notUstar⟩
  have start : align 0 = 0 := rfl
  cases fuel with
  | zero => simp at enough
  | succ fuel => simp [searchLoop, start, isRead, notUstar]

theorem Entry.HoldsHeader.nonempty {entry : Entry} (holds : entry.HoldsHeader) :
    entry.contents ≠ [] := by
  intro empty
  have isUstar : Header.isUstar (fun _ => 0) = true := by
    simpa [Entry.HoldsHeader, empty] using holds
  exact absurd isUstar (by rw [isUstar_zero]; decide)

/-- Where the walk along a path comes to. -/
inductive Outcome where
  | ends (found : Option Entry)
  /-- A file that begins with a header, in which `rest` is looked for like in an archive. -/
  | enters (file : Entry) (segment : Str) (rest : List Str)
deriving DecidableEq

/-- Where the code gets to with the segments of a path. -/
def follow (entries : List Entry) (filename : Str) : Str → List Str → Outcome
  | _, [] => .ends none
  | directory, segment :: segments =>
      match chosen entries directory segment with
      | none => .ends none
      | some entry =>
          if segment = filename then .ends (some entry)
          else if entry.IsDirectory then follow entries filename segment segments
          else if entry.HoldsHeader then .enters entry segment segments
          else .ends none

/-- The node that the code makes of a file with contents. -/
def fileNode (root : Node) (entries : List Entry) (segment : Str) (file : Entry) : Node where
  name := segment
  size := file.contents.length
  typeFlags := getTypeFlags file.typeflag
  basePointer := root.basePointer + offsetOf entries file + hdrSize

theorem Located.eq_fileNode {memory : Memory} {root node : Node} {entries : List Entry}
    {segment : Str} {file : Entry} (nonempty : file.contents ≠ [])
    (located : Located memory root (offsetOf entries file) segment file node) :
    node = fileNode root entries segment file := by
  cases node
  simp only [fileNode, Node.mk.injEq]
  exact ⟨located.name, located.shows.size, located.shows.typeFlags, located.placed nonempty⟩

/-- What the recursion of the code makes of where it gets to. Of the depth that it started
with, `spare` goes beyond the number of segments. -/
def Follows (memory : Memory) (root : Node) (entries : List Entry) (fuel spare : Nat)
    (filename : Str) : Outcome → Option (Option Node) → Prop
  | .ends found, result => Answers memory found result
  | .enters file segment rest, result =>
      result = findInDirectoryTarfsInternal memory fuel (rest.length + spare)
        (fileNode root entries segment file) (joined slash rest) filename

theorem chunk_joined {segment : Str} (segments : List Str) (slashNotMem : slash ∉ segment) :
    ((joined slash (segment :: segments)).drop 1).takeWhile (fun byte => byte ≠ slash) =
      segment := by
  have inside : ∀ byte ∈ segment, decide (byte ≠ slash) = true := by
    intro byte member
    simpa using fun isSlash : byte = slash => slashNotMem (isSlash ▸ member)
  simp only [joined, List.flatMap_cons, List.cons_append, List.drop_succ_cons, List.drop_zero]
  rw [List.takeWhile_append_of_pos inside]
  cases segments with
  | nil => simp
  | cons next segments => simp

/-- The recursion of the code goes where the entries lead it. -/
theorem findInDirectoryTarfsInternal_follows {memory : Memory} {root : Node}
    {entries : List Entry} (archive : Archive memory root entries) {fuel : Nat}
    (enough : entries.length < fuel) (spare : Nat) {filename : Str} {segments : List Str}
    (slashNotMem : ∀ segment ∈ segments, slash ∉ segment)
    (isLast : segments.getLast? = some filename) {node : Node} (reads : Reads root node)
    (nonempty : node.name ≠ []) :
    Follows memory root entries fuel spare filename
      (follow entries filename (key node.name) segments)
      (findInDirectoryTarfsInternal memory fuel (segments.length + spare) node
        (joined slash segments) filename) := by
  induction segments generalizing node with
  | nil => simp at isLast
  | cons segment segments induction =>
      have noSlash := slashNotMem segment (by simp)
      have start : align 0 = 0 := rfl
      have search := searchLoop_finds reads nonempty archive.base_pos archive.fits
        archive.wellFormed archive.laid rfl segment enough start (fun _ => 0)
      rw [List.length_cons, Nat.add_right_comm]
      unfold findInDirectoryTarfsInternal follow
      simp only [chunk_joined segments noSlash]
      rw [Nat.add_comm 1, drop_joined]
      cases isChosen : chosen entries (key node.name) segment with
      | none =>
          rw [isChosen] at search
          simp [show searchLoop _ _ _ _ _ _ = some none from search, Follows, Answers]
      | some entry =>
          rw [isChosen] at search
          rcases search with ⟨found, isFound, located⟩
          rw [Nat.zero_add] at located
          have member := List.mem_of_find?_eq_some isChosen
          simp only [isFound, located.name]
          split
          · exact ⟨found, rfl, located.shows⟩
          case isFalse notLast =>
            have more : segments ≠ [] := by
              rintro rfl
              exact notLast (Option.some_inj.mp isLast)
            rw [List.getLast?_cons_of_ne_nil more] at isLast
            split
            case isTrue isDirectory =>
              have taken : TakenFor (key node.name) segment entry := by
                simpa using List.find?_some isChosen
              have named : found.name ≠ [] := by
                rw [located.name]
                exact (archive.wellFormed entry member).nonempty segment
                  (List.mem_of_getLast? taken.1)
              have sameKey : key found.name = segment := by
                rw [located.name, key, if_neg]
                rintro rfl
                exact noSlash (by simp)
              rw [← sameKey]
              exact induction (fun other later => slashNotMem other (by simp [later])) isLast
                (located.reads isDirectory) named
            case isFalse file =>
              split
              case isTrue holds =>
                -- The file is searched as if it were a directory.
                rw [located.eq_fileNode holds.nonempty]
                rfl
              case isFalse noHeader =>
                have deeper : segments.length + spare = segments.length - 1 + spare + 1 := by
                  have positive := List.length_pos_iff.mpr more
                  omega
                rw [deeper]
                simp [findInDirectoryTarfsInternal, Follows, Answers,
                  searchLoop_file located file noHeader _
                    (Nat.lt_of_le_of_lt (Nat.zero_le _) enough)]

/-! ## When a lookup is exact -/

/-- Every segment leads to a directory from the one before it. -/
def Clear (entries : List Entry) : Str → List Str → Prop
  | _, [] => True
  | directory, segment :: segments =>
      (∃ entry, chosen entries directory segment = some entry ∧ entry.IsDirectory) ∧
        Clear entries segment segments

/-- The last segment of a path. -/
def filename (path : Str) : Str := (components path).getLastD []

/-- The segments in front of the first one that equals the last. -/
def walked (path : Str) : List Str :=
  (components path).takeWhile fun segment => segment ≠ filename path

/-- The entry that the path leads to: the one taken for the last segment in the
directory reached by the segments in front of its first occurrence. -/
def LeadsTo (entries : List Entry) (path : Str) (entry : Entry) : Prop :=
  Clear entries [] (walked path) ∧
    chosen entries ((walked path).getLastD []) (filename path) = some entry

/-- Behind directories, the segments come to a file that begins with a header. -/
def EntersFrom (entries : List Entry) (filename directory : Str) (segments : List Str)
    (file : Entry) (segment : Str) (rest : List Str) : Prop :=
  ∃ passed, segments = passed ++ segment :: rest ∧ filename ∉ passed ∧ segment ≠ filename ∧
    Clear entries directory passed ∧
    chosen entries (passed.getLastD directory) segment = some file ∧ ¬file.IsDirectory ∧
    file.HoldsHeader

/-- In front of the first segment that equals the last, the path comes to a file that begins
with a header, and `rest` is left of it. -/
def Enters (entries : List Entry) (path : Str) (file : Entry) (segment : Str)
    (rest : List Str) : Prop :=
  EntersFrom entries (filename path) [] (components path) file segment rest

/-- What is left of the path, looked for in the bytes of the file, is what is sought. -/
def AnsweredIn (memory : Memory) (root : Node) (entries : List Entry) (path : Str)
    (file : Entry) (segment : Str) (rest : List Str) : Prop :=
  ∃ bound, ∀ fuel ≥ bound,
    Answers memory (sought entries path)
      (findInDirectoryTarfsInternal memory fuel
        (rest.length + (path.length - (components path).length))
        (fileNode root entries segment file) (joined slash rest) (filename path))

/-- The two entries have the same size, type and contents. -/
def Alike (entry other : Entry) : Prop :=
  entry.contents = other.contents ∧ getTypeFlags entry.typeflag = getTypeFlags other.typeflag

theorem follow_eq_ends_some_iff {entries : List Entry} {filename : Str} {segments : List Str}
    (isLast : segments.getLast? = some filename) (directory : Str) (entry : Entry) :
    follow entries filename directory segments = .ends (some entry) ↔
      Clear entries directory (segments.takeWhile fun segment => segment ≠ filename) ∧
        chosen entries
          ((segments.takeWhile fun segment => segment ≠ filename).getLastD directory) filename =
            some entry := by
  induction segments generalizing directory with
  | nil => simp at isLast
  | cons segment segments induction =>
      unfold follow
      by_cases here : segment = filename
      · subst here
        simp only [List.takeWhile_cons, ne_eq, not_true_eq_false, decide_false, if_true,
          Bool.false_eq_true, if_false, Clear, true_and, List.getLastD_nil]
        cases chosen entries directory segment <;> simp
      · have more : segments ≠ [] := by
          rintro rfl
          exact here (Option.some_inj.mp isLast)
        rw [List.getLast?_cons_of_ne_nil more] at isLast
        simp only [List.takeWhile_cons, ne_eq, here, not_false_eq_true, decide_true, if_true,
          if_false, Clear, List.getLastD_cons]
        cases isChosen : chosen entries directory segment with
        | none => simp
        | some found =>
            by_cases isDirectory : found.IsDirectory
            · simpa [isDirectory] using induction isLast segment
            · by_cases holds : found.HoldsHeader <;> simp [isDirectory, holds]

theorem entersFrom_cons {entries : List Entry} {filename directory first : Str}
    {segments : List Str} {file : Entry} {segment : Str} {rest : List Str} :
    EntersFrom entries filename directory (first :: segments) file segment rest ↔
      first ≠ filename ∧ ∃ entry, chosen entries directory first = some entry ∧
        if entry.IsDirectory then EntersFrom entries filename first segments file segment rest
        else entry.HoldsHeader ∧ file = entry ∧ segment = first ∧ rest = segments := by
  constructor
  · rintro ⟨passed, split, notPassed, notLast, clear, isChosen, isFile, holds⟩
    cases passed with
    | nil =>
        rw [List.nil_append, List.cons.injEq] at split
        rcases split with ⟨rfl, rfl⟩
        refine ⟨notLast, file, isChosen, ?_⟩
        rw [if_neg isFile]
        exact ⟨holds, rfl, rfl, rfl⟩
    | cons head passed =>
        rw [List.cons_append, List.cons.injEq] at split
        rcases split with ⟨rfl, rfl⟩
        rw [List.mem_cons, not_or] at notPassed
        rcases clear with ⟨⟨entry, isEntry, isDirectory⟩, clear⟩
        refine ⟨fun equal => notPassed.1 equal.symm, entry, isEntry, ?_⟩
        rw [if_pos isDirectory]
        rw [List.getLastD_cons] at isChosen
        exact ⟨passed, rfl, notPassed.2, notLast, clear, isChosen, isFile, holds⟩
  · rintro ⟨different, entry, isEntry, further⟩
    split at further
    case isTrue isDirectory =>
      rcases further with ⟨passed, rfl, notPassed, notLast, clear, isChosen, isFile, holds⟩
      refine ⟨first :: passed, rfl, ?_, notLast, ⟨⟨entry, isEntry, isDirectory⟩, clear⟩, ?_,
        isFile, holds⟩
      · rw [List.mem_cons, not_or]
        exact ⟨fun equal => different equal.symm, notPassed⟩
      · rwa [List.getLastD_cons]
    case isFalse isFile =>
      rcases further with ⟨holds, rfl, rfl, rfl⟩
      exact ⟨[], rfl, List.not_mem_nil, different, trivial, isEntry, isFile, holds⟩

theorem follow_eq_enters_iff {entries : List Entry} {filename : Str} {segments : List Str}
    (directory : Str) (file : Entry) (segment : Str) (rest : List Str) :
    follow entries filename directory segments = .enters file segment rest ↔
      EntersFrom entries filename directory segments file segment rest := by
  induction segments generalizing directory with
  | nil => simp [follow, EntersFrom]
  | cons first segments induction =>
      rw [entersFrom_cons, follow]
      cases isChosen : chosen entries directory first with
      | none => simp
      | some entry =>
          by_cases here : first = filename
          · simp [here]
          by_cases isDirectory : entry.IsDirectory
          · simp [here, isDirectory, induction first]
          by_cases holds : entry.HoldsHeader
          · simp [here, isDirectory, holds, eq_comm]
          · simp [here, isDirectory, holds]

theorem Answers.alike {memory : Memory} {entry other : Entry} {result : Option (Option Node)}
    (answers : Answers memory (some entry) result)
    (otherAnswers : Answers memory (some other) result) : Alike entry other := by
  rcases answers with ⟨node, rfl, shows⟩
  rcases otherAnswers with ⟨_, same, otherShows⟩
  cases same
  have length := shows.size.symm.trans otherShows.size
  refine ⟨List.ext_getElem length fun index left right => ?_,
    shows.typeFlags.symm.trans otherShows.typeFlags⟩
  have first := shows.contents index left
  have second := otherShows.contents index right
  rw [List.getD_eq_getElem _ _ left] at first
  rw [List.getD_eq_getElem _ _ right] at second
  exact first.symm.trans second

theorem Answers.congr {memory : Memory} {entry other : Entry} {result : Option (Option Node)}
    (alike : Alike entry other) (answers : Answers memory (some entry) result) :
    Answers memory (some other) result := by
  rcases answers with ⟨node, isResult, shows⟩
  rcases alike with ⟨contents, typeFlags⟩
  refine ⟨node, isResult, ?_, ?_, ?_⟩
  · rw [← contents]
    exact shows.size
  · rw [← typeFlags]
    exact shows.typeFlags
  · rw [← contents]
    exact shows.contents

theorem components_spec {path : Str} (absolute : path.head? = some slash)
    (notRoot : path ≠ [slash]) :
    path = joined slash (components path) ∧ (∀ segment ∈ components path, slash ∉ segment) ∧
      (components path).getLast? = some (filename path) := by
  cases path with
  | nil => simp at absolute
  | cons first rest =>
      rw [List.head?_cons, Option.some_inj] at absolute
      subst absolute
      unfold filename components
      rw [if_neg notRoot, List.drop_succ_cons, List.drop_zero]
      refine ⟨separator_cons_eq slash rest, separator_notMem_of_mem_piecesOf slash rest, ?_⟩
      rw [List.getLastD_eq_getLast?]
      cases isLast : (piecesOf slash rest).getLast? with
      | none => exact absurd (List.getLast?_eq_none_iff.mp isLast) (piecesOf_ne_nil slash rest)
      | some last => rfl

theorem findInDirectoryTarfs_follows {memory : Memory} {root : Node}
    {entries : List Entry} (archive : Archive memory root entries) {fuel : Nat}
    (enough : entries.length < fuel) {path : Str} (absolute : path.head? = some slash)
    (notRoot : path ≠ [slash]) :
    Follows memory root entries fuel (path.length - (components path).length) (filename path)
      (follow entries (filename path) [] (components path))
      (findInDirectoryTarfs memory fuel root path) := by
  rcases components_spec absolute notRoot with ⟨isJoined, noSlash, isLast⟩
  have longer : path.length ≠ 1 := by
    intro single
    rcases List.length_eq_one_iff.mp single with ⟨first, rfl⟩
    rw [List.head?_cons, Option.some_inj] at absolute
    exact notRoot (by rw [absolute])
  have last : strrchr path slash = some (slash :: filename path) := by
    have split := isJoined.trans (joined_of_getLast? slash isLast)
    have found := strrchr_append_cons (joined slash (components path).dropLast)
      (noSlash _ (List.mem_of_getLast? isLast))
    rwa [← split] at found
  have reads : Reads root root := ⟨archive.directory, rfl, .inl rfl⟩
  have named : root.name ≠ [] := by
    rw [archive.mountpoint]
    exact List.cons_ne_nil _ _
  have isKey : key root.name = [] := by rw [archive.mountpoint, key, if_pos rfl]
  have deep : (components path).length ≤ path.length := by
    conv_rhs => rw [isJoined]
    exact length_le_joined slash (components path)
  unfold findInDirectoryTarfs
  rw [if_neg (by simp [absolute]), if_neg longer, last]
  have follows := findInDirectoryTarfsInternal_follows archive enough
    (path.length - (components path).length) noSlash isLast reads named
  rw [isKey, ← isJoined, Nat.add_sub_cancel' deep] at follows
  exact follows

theorem not_exact_root {memory : Memory} {root : Node} {entries : List Entry}
    (archive : Archive memory root entries) : ¬Exact memory root entries [slash] := by
  rintro ⟨bound, answers⟩
  rcases archive.first with ⟨entry, rest, rfl, isRoot, isDirectory⟩
  have isSought : sought (entry :: rest) [slash] = some entry := by
    simp [sought, components, isRoot]
  have answer := answers bound (Nat.le_refl bound)
  rw [isSought] at answer
  rcases answer with ⟨node, isNode, shows⟩
  have same : root = node := by simpa [findInDirectoryTarfs] using isNode
  have empty := (archive.wellFormed entry (by simp)).empty isDirectory
  have size := shows.size
  have within := archive.laid.within
  rw [← same, empty, List.length_nil] at size
  rw [size] at within
  exact absurd within (by decide)

/-- A lookup that ends among the entries is exact if it ends at one like the entry sought, or
nowhere if there is none. -/
theorem exact_iff_of_ends {memory : Memory} {root : Node} {entries : List Entry}
    (archive : Archive memory root entries) {path : Str} (absolute : path.head? = some slash)
    (notRoot : path ≠ [slash]) {found : Option Entry}
    (isFollowed : follow entries (filename path) [] (components path) = .ends found) :
    Exact memory root entries path ↔
      match sought entries path with
      | some entry => ∃ other, found = some other ∧ Alike other entry
      | none => found = none := by
  have actual : ∀ fuel > entries.length,
      Answers memory found (findInDirectoryTarfs memory fuel root path) := by
    intro fuel enough
    have follows := findInDirectoryTarfs_follows archive enough absolute notRoot
    rwa [isFollowed] at follows
  constructor
  · rintro ⟨bound, answers⟩
    have expected := answers (bound + entries.length + 1) (by omega)
    have isAnswer := actual (bound + entries.length + 1) (by omega)
    cases isSought : sought entries path with
    | some entry =>
        rw [isSought] at expected
        cases found with
        | some other => exact ⟨other, rfl, isAnswer.alike expected⟩
        | none =>
            rcases expected with ⟨node, isNode, -⟩
            cases isNode.symm.trans isAnswer
    | none =>
        rw [isSought] at expected
        cases found with
        | none => rfl
        | some other =>
            rcases isAnswer with ⟨node, isNode, -⟩
            cases isNode.symm.trans expected
  · intro condition
    refine ⟨entries.length + 1, fun fuel enough => ?_⟩
    have isAnswer := actual fuel enough
    cases isSought : sought entries path with
    | some entry =>
        rw [isSought] at condition
        rcases condition with ⟨other, rfl, alike⟩
        exact isAnswer.congr alike
    | none =>
        rw [isSought] at condition
        rwa [condition] at isAnswer

theorem exact_iff_of_enters {memory : Memory} {root : Node} {entries : List Entry}
    (archive : Archive memory root entries) {path : Str} (absolute : path.head? = some slash)
    (notRoot : path ≠ [slash]) {file : Entry} {segment : Str} {rest : List Str}
    (isFollowed : follow entries (filename path) [] (components path) =
      .enters file segment rest) :
    Exact memory root entries path ↔ AnsweredIn memory root entries path file segment rest := by
  have actual : ∀ fuel > entries.length, findInDirectoryTarfs memory fuel root path =
      findInDirectoryTarfsInternal memory fuel
        (rest.length + (path.length - (components path).length))
        (fileNode root entries segment file) (joined slash rest) (filename path) := by
    intro fuel enough
    have follows := findInDirectoryTarfs_follows archive enough absolute notRoot
    rwa [isFollowed] at follows
  constructor
  · rintro ⟨bound, answers⟩
    refine ⟨bound + entries.length + 1, fun fuel enough => ?_⟩
    rw [← actual fuel (by omega)]
    exact answers fuel (by omega)
  · rintro ⟨bound, answers⟩
    refine ⟨bound + entries.length + 1, fun fuel enough => ?_⟩
    rw [actual fuel (by omega)]
    exact answers fuel (by omega)

/-- The header of an entry, as the build writes it. -/
def headerOf (entry : Entry) : Header := fun index =>
  if index < 100 then entry.fullName.getD index 0
  else if 124 ≤ index ∧ index < 135 then
    UInt8.ofNat (0x30 + entry.contents.length / 8 ^ (134 - index) % 8)
  else if index = 156 then entry.typeflag
  else if 257 ≤ index then magic.getD (index - 257) 0
  else 0

def image (entries : List Entry) : List Header :=
  entries.flatMap fun entry =>
    headerOf entry ::
      if entry.contents = [] then [] else [fun index => entry.contents.getD index 0]

def imageAt (base : Nat) (entries : List Entry) : Memory := fun address =>
  (image entries).getD ((address - base) / hdrSize) (fun _ => 0) ((address - base) % hdrSize)

/-- `./`, `./ba/`, `./ba/f`, `./a/` and `./a/f`. -/
def similarNames : List Entry :=
  [⟨[], 0x35, []⟩, ⟨[[0x62, 0x61]], 0x35, []⟩, ⟨[[0x62, 0x61], [0x66]], 0x30, [1]⟩,
    ⟨[[0x61]], 0x35, []⟩, ⟨[[0x61], [0x66]], 0x30, [2]⟩]

def similarRoot : Node := ⟨[slash], 0x1200, .directory, 0x100000⟩

theorem similarNames_archive :
    Archive (imageAt 0x100000 similarNames) similarRoot similarNames where
  mountpoint := rfl
  directory := rfl
  base_pos := by decide
  fits := by decide
  laid := by decide +kernel
  first := ⟨_, _, rfl, rfl, rfl⟩
  wellFormed := by decide
  distinct := by decide
  ordered := by simp [ParentsPrecede, similarNames, Entry.IsDirectory]

theorem similarNames_noHeaders : ∀ entry ∈ similarNames, ¬entry.HoldsHeader := by
  decide +kernel

end Dbos.Tarfs
