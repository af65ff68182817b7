import Dbos.Drivers.Tarfs.Scan

/-! # Listing a directory

`read_directory_tarfs` counts the entries of a directory, `list_directory_tarfs`
asks for one after the other, and `find_in_directory_tarfs` looks for a name. Over
an archive that begins with `./` all three see one list of nodes. -/

namespace Dbos.Tarfs

open Dbos.Rounds Dbos.Strings Dbos.Pieces

/-! ## The operations -/

def readDirectoryTarfs (memory : Memory) (fuel : Nat) (node : Node) (entryNo : Int) :
    Option (Option Node) :=
  if entryNo < 0 ∨ node.typeFlags ≠ .directory then some none
  else rounds (readDirectoryRound parseHeader memory node entryNo.toNat) fuel .initial

/-- The loop of `list_directory_tarfs` from the entry `i` on. -/
def listLoop (memory : Memory) (fuel : Nat) (node : Node) : Nat → Nat → Option (List Node)
  | 0, _ => none
  | rounds + 1, i =>
      (readDirectoryTarfs memory fuel node i).bind fun tmpnode =>
        match tmpnode with
        | none => some []
        | some tmpnode => (listLoop memory fuel node rounds (i + 1)).map (tmpnode :: ·)

/-- `list_directory_tarfs`: the slots of the array. -/
def listDirectoryTarfs (memory : Memory) (fuel : Nat) (node : Node) :
    Option (List (Option Node)) :=
  (listLoop memory fuel node fuel 1).map fun nodes => nodes.map some ++ [none]

/-! ## The nodes of a directory -/

/-- The name under which an entry is taken for a child. -/
def Entry.childName (directory : Str) (entry : Entry) : Option Str :=
  entry.segments.getLast?.filter fun child => TakenFor directory child entry

def childNode (directory : Node) (offset : Nat) (entry : Entry) (name : Str) : Node where
  name := name
  size := entry.contents.length
  typeFlags := getTypeFlags entry.typeflag
  basePointer :=
    if entry.contents.length > 0 then (directory.basePointer + offset + hdrSize) % wordSize
    else directory.basePointer

/-- The nodes of what is taken for a child, in the order of the archive. -/
def childNodes (directory : Node) : Nat → List Entry → List Node
  | _, [] => []
  | offset, entry :: entries =>
      ((entry.childName (key directory.name)).map (childNode directory offset entry)).toList ++
        childNodes directory (offset + hdrSize + blocks entry.contents.length) entries

theorem childName_eq_some_iff {directory name : Str} {entry : Entry} :
    entry.childName directory = some name ↔ TakenFor directory name entry := by
  unfold Entry.childName
  rw [Option.filter_eq_some_iff]
  constructor
  · intro both
    simpa using both.2
  · intro taken
    exact ⟨taken.1, by simpa using taken⟩

theorem isChild_of_ne_root {dot : UInt8} {path parent name : Str} {isChild : Int}
    (notRoot : path ≠ [slash])
    (decided : checkParseFilename (dot :: path) parent = some (isChild, name)) :
    isChild = 0 ∨ isChild = -1 := by
  simp only [checkParseFilename, if_neg notRoot] at decided
  split at decided
  case h_1 => exact .inr (Prod.mk.inj (Option.some.inj decided)).1.symm
  case h_2 found _ =>
    rcases Option.map_eq_some_iff.mp decided with ⟨childName, -, outcome⟩
    by_cases begins : strncmp (if parent = [slash] then found else found.drop parent.length)
        childName childName.length = 0
    · rw [if_pos begins] at outcome
      exact .inl (Prod.mk.inj outcome).1.symm
    · rw [if_neg begins] at outcome
      exact .inr (Prod.mk.inj outcome).1.symm

theorem checkParseFilename_childName {entry : Entry} (wellFormed : entry.WellFormed)
    (notRoot : entry.segments ≠ []) {parent : Str} (nonempty : parent ≠ []) :
    (∃ name, entry.childName (key parent) = some name ∧
        checkParseFilename entry.fullName parent = some (0, name)) ∨
      entry.childName (key parent) = none ∧
        ∃ name, checkParseFilename entry.fullName parent = some (-1, name) := by
  rcases checkParseFilename_spec wellFormed nonempty with ⟨isChild, name, decided, taken⟩
  rcases path_of_fullName wellFormed notRoot with ⟨path, isName, notSlash, -⟩
  rcases isChild_of_ne_root notSlash (isName ▸ decided) with rfl | rfl
  · left
    refine ⟨name, ?_, decided⟩
    rw [childName_eq_some_iff, ← taken name]
    exact ⟨rfl, rfl⟩
  · right
    refine ⟨?_, name, decided⟩
    rw [Option.eq_none_iff_forall_ne_some]
    intro other isTaken
    rw [childName_eq_some_iff, ← taken other] at isTaken
    exact absurd isTaken.1 (by decide)

/-! ## The loops over the archive -/

/-- A well-formed archive as far as listing depends on it: it begins with `./`,
and there is no other entry of that name. -/
structure Rooted (memory : Memory) (root : Node) (entries : List Entry) : Prop where
  mountpoint : root.name = [slash]
  directory : root.typeFlags = .directory
  base_pos : 0 < root.basePointer
  fits : root.basePointer + root.size ≤ wordSize
  laid : Laid memory root.basePointer root.size 0 entries
  wellFormed : ∀ entry ∈ entries, entry.WellFormed
  first : ∃ entry rest, entries = entry :: rest ∧ entry.segments = [] ∧
    ∀ other ∈ rest, other.segments ≠ []

section Built

variable {directory : Node} {entry : Entry} (wellFormed : entry.WellFormed) {read : Header}
  (readAs : entry.ReadAs read) {parent name : Str} (child : entry.childName parent = some name)

include wellFormed readAs child

theorem buildNodeTarfs_eq (offset : Nat) :
    buildNodeTarfs directory (read.setName name) offset =
      childNode directory offset entry name := by
  rcases wellFormed.getLast (childName_eq_some_iff.mp child).1 with ⟨short, noNul⟩
  simp [buildNodeTarfs, childNode, name_setName read short noNul, readAs.size, readAs.typeflag]

theorem entryNode_eq (offset : Nat) :
    entryNode directory offset read (read.setName name) =
      childNode directory offset entry name := by
  rw [← buildNodeTarfs_eq wellFormed readAs child]
  simp [entryNode, buildNodeTarfs]

end Built

section Loops

variable {memory : Memory} {root directory : Node} (reads : Reads root directory)
  (nonempty : directory.name ≠ []) (basePos : 0 < root.basePointer)
  (fits : root.basePointer + root.size ≤ wordSize)

include reads nonempty basePos fits

/-- Over entries other than the root, the loop of `read_directory_tarfs` counts the
nodes of the directory. -/
theorem rounds_readDirectoryRound {entries : List Entry} {offset : Nat}
    (wellFormed : ∀ entry ∈ entries, entry.WellFormed)
    (below : ∀ entry ∈ entries, entry.segments ≠ [])
    (laid : Laid memory root.basePointer root.size offset entries)
    (aligned : offset % hdrSize = 0) {fuel address : Nat} (enough : entries.length < fuel)
    (atOffset : align address = offset) (header : Header) (current index : Nat) :
    rounds (readDirectoryRound parseHeader memory directory (current + index)) fuel
        ⟨address, current, header⟩ =
      some (childNodes directory offset entries)[index]? := by
  induction entries generalizing offset fuel address header current index with
  | nil =>
      cases fuel with
      | zero => simp at enough
      | succ fuel =>
          rcases readNodeTarfs_end reads basePos fits laid header with ⟨read, isRead, notUstar⟩
          simp [rounds, readDirectoryRound, atOffset, isRead, notUstar, childNodes]
  | cons entry entries induction =>
      cases fuel with
      | zero => simp at enough
      | succ fuel =>
          rcases readNodeTarfs_entry reads basePos fits laid aligned header with
            ⟨⟨read, isRead, -, readAs⟩, laterAligned, atNext⟩
          have isWellFormed := wellFormed entry (by simp)
          have goesOn := @induction _ (fun other member => wellFormed other (by simp [member]))
            (fun other member => below other (by simp [member])) laid.2 laterAligned fuel _
            (Nat.lt_of_succ_lt_succ enough) atNext
          rcases checkParseFilename_childName isWellFormed (below entry (by simp)) nonempty with
            ⟨name, child, decided⟩ | ⟨noChild, name, decided⟩
          · have parses : parseHeader read directory.name = some (0, read.setName name) := by
              rw [parseHeader, readAs.name, decided]
              rfl
            cases index with
            | zero =>
                simp [rounds, readDirectoryRound, atOffset, isRead, readAs.isUstar, parses,
                  childNodes, child, entryNode_eq isWellFormed readAs child]
            | succ index =>
                have further := goesOn (read.setName name) (current + 1) index
                have entryNo : current + 1 + index = current + (index + 1) := by omega
                rw [entryNo] at further
                simp [rounds, readDirectoryRound, atOffset, isRead, readAs.isUstar, parses,
                  childNodes, child, readAs.size, further]
          · have parses : parseHeader read directory.name = some (-1, read.setName name) := by
              rw [parseHeader, readAs.name, decided]
              rfl
            have further := goesOn (read.setName name) current index
            simp [rounds, readDirectoryRound, atOffset, isRead, readAs.isUstar, parses,
              childNodes, noChild, readAs.size, further]

theorem searchLoop_eq_find? {entries : List Entry} {offset : Nat}
    (wellFormed : ∀ entry ∈ entries, entry.WellFormed)
    (laid : Laid memory root.basePointer root.size offset entries)
    (aligned : offset % hdrSize = 0) (chunk : Str) {fuel address : Nat}
    (enough : entries.length < fuel) (atOffset : align address = offset) (header : Header) :
    searchLoop memory directory chunk fuel address header =
      some ((childNodes directory offset entries).find? fun node => node.name = chunk) := by
  induction entries generalizing offset fuel address header with
  | nil =>
      cases fuel with
      | zero => simp at enough
      | succ fuel =>
          rcases readNodeTarfs_end reads basePos fits laid header with ⟨read, isRead, notUstar⟩
          simp [searchLoop, atOffset, isRead, notUstar, childNodes]
  | cons entry entries induction =>
      cases fuel with
      | zero => simp at enough
      | succ fuel =>
          rcases readNodeTarfs_entry reads basePos fits laid aligned header with
            ⟨⟨read, isRead, -, readAs⟩, laterAligned, atNext⟩
          have isWellFormed := wellFormed entry (by simp)
          have goesOn := @induction _ (fun other member => wellFormed other (by simp [member]))
            laid.2 laterAligned fuel _ (Nat.lt_of_succ_lt_succ enough) atNext
          rcases checkParseFilename_spec isWellFormed nonempty with
            ⟨isChild, name, decided, taken⟩
          simp only [searchLoop, atOffset, isRead, readAs.isUstar, if_true, readAs.name, decided,
            readAs.size, taken chunk, childNodes]
          by_cases isTaken : TakenFor (key directory.name) chunk entry
          · have child := childName_eq_some_iff.mpr isTaken
            rw [((taken chunk).mpr isTaken).2, if_pos isTaken,
              buildNodeTarfs_eq isWellFormed readAs child, child]
            simp [childNode]
          · rw [if_neg isTaken, goesOn]
            cases child : entry.childName (key directory.name) with
            | none => simp
            | some other =>
                have different : other ≠ chunk := by
                  rintro rfl
                  exact isTaken (childName_eq_some_iff.mp child)
                simp [childNode, different]

end Loops

/-! ## The three operations -/

/-- The root, or the node that is built for a directory of the archive. -/
def DirectoryNode (root : Node) (entries : List Entry) (directory : Node) : Prop :=
  directory = root ∨ ∃ entry ∈ entries, ∃ name, entry.IsDirectory ∧
    entry.segments.getLast? = some name ∧
      directory = ⟨name, 0, .directory, root.basePointer⟩

theorem length_childNodes (directory : Node) (offset : Nat) (entries : List Entry) :
    (childNodes directory offset entries).length ≤ entries.length := by
  induction entries generalizing offset with
  | nil => simp [childNodes]
  | cons entry entries induction =>
      have later := induction (offset + hdrSize + blocks entry.contents.length)
      have here : ((entry.childName (key directory.name)).map
          (childNode directory offset entry)).toList.length ≤ 1 := by
        cases entry.childName (key directory.name) <;> simp
      simp only [childNodes, List.length_append, List.length_cons]
      omega

theorem directoryNode_of_mem_childNodes {root directory : Node} {entries all : List Entry}
    {offset : Nat} (sameBase : directory.basePointer = root.basePointer)
    (within : ∀ entry ∈ entries, entry ∈ all)
    (wellFormed : ∀ entry ∈ entries, entry.WellFormed) {node : Node}
    (member : node ∈ childNodes directory offset entries)
    (isDirectory : node.typeFlags = .directory) : DirectoryNode root all node := by
  induction entries generalizing offset with
  | nil => cases member
  | cons entry entries induction =>
      rcases List.mem_append.mp member with here | later
      · rw [Option.mem_toList, Option.map_eq_some_iff] at here
        rcases here with ⟨name, child, rfl⟩
        have isEntry : entry.IsDirectory := (getTypeFlags_eq_directory _).mp isDirectory
        have empty := (wellFormed entry (by simp)).empty isEntry
        refine .inr ⟨entry, within entry (by simp), name, isEntry,
          (childName_eq_some_iff.mp child).1, ?_⟩
        simp only [childNode, empty, List.length_nil, Nat.lt_irrefl, if_false, sameBase,
          Node.mk.injEq, true_and, and_true, gt_iff_lt]
        exact isDirectory
      · exact induction (fun other member => within other (by simp [member]))
          (fun other member => wellFormed other (by simp [member])) later

section Operations

variable {memory : Memory} {root directory : Node} {entries : List Entry}
  (archive : Rooted memory root entries) (obtained : DirectoryNode root entries directory)

include archive obtained

theorem DirectoryNode.reads : Reads root directory ∧ directory.name ≠ [] := by
  rcases obtained with rfl | ⟨entry, member, name, isDirectory, isLast, rfl⟩
  · refine ⟨⟨archive.directory, rfl, .inl rfl⟩, ?_⟩
    rw [archive.mountpoint]
    exact List.cons_ne_nil _ _
  · refine ⟨⟨rfl, rfl, .inr rfl⟩, ?_⟩
    exact (archive.wellFormed entry member).nonempty name (List.mem_of_getLast? isLast)

variable {fuel : Nat} (enough : entries.length < fuel)

include enough

theorem readDirectoryTarfs_eq (index : Nat) :
    readDirectoryTarfs memory fuel directory (index + 1 : Nat) =
      some (childNodes directory 0 entries)[index]? := by
  rcases obtained.reads archive with ⟨reads, nonempty⟩
  rcases archive.first with ⟨first, rest, rfl, isRoot, below⟩
  have wellFormed := archive.wellFormed
  cases fuel with
  | zero => simp at enough
  | succ fuel =>
      rcases readNodeTarfs_entry reads archive.base_pos archive.fits archive.laid rfl
        (fun _ => 0) with ⟨⟨read, isRead, -, readAs⟩, laterAligned, atNext⟩
      have start : align 0 = 0 := rfl
      have parses : parseHeader read directory.name =
          some (1, read.setName directory.name) := by
        simp [parseHeader, readAs.name, checkParseFilename, Entry.fullName, isRoot]
      have noChild : first.childName (key directory.name) = none := by
        simp [Entry.childName, isRoot]
      have further := rounds_readDirectoryRound reads nonempty archive.base_pos archive.fits
        (fun other member => wellFormed other (by simp [member])) below archive.laid.2
        laterAligned (Nat.lt_of_succ_lt_succ enough) atNext (read.setName directory.name) 1 index
      have entryNo : ((index + 1 : Nat) : Int).toNat = 1 + index := by omega
      have enters : ¬(((index + 1 : Nat) : Int) < 0 ∨ directory.typeFlags ≠ .directory) := by
        rintro (negative | notDirectory)
        · omega
        · exact notDirectory reads.directory
      unfold readDirectoryTarfs
      rw [if_neg enters, entryNo]
      simp [rounds, readDirectoryRound, Position.initial, start, isRead, readAs.isUstar, parses,
        readAs.size, childNodes, noChild]
      exact further

theorem findInDirectoryTarfs_eq {name : Str} (named : name ≠ []) (noSlash : slash ∉ name) :
    findInDirectoryTarfs memory fuel directory (slash :: name) =
      some ((childNodes directory 0 entries).find? fun node => node.name = name) := by
  rcases obtained.reads archive with ⟨reads, nonempty⟩
  have last : strrchr (slash :: name) slash = some (slash :: name) :=
    strrchr_append_cons [] noSlash
  have longer : (slash :: name).length ≠ 1 := by
    simpa using named
  have chunk : name.takeWhile (fun byte => byte ≠ slash) = name := by
    simpa [joined] using chunk_joined [] noSlash
  have search := searchLoop_eq_find? reads nonempty archive.base_pos archive.fits
    archive.wellFormed archive.laid rfl name enough (show align 0 = 0 from rfl) (fun _ => 0)
  unfold findInDirectoryTarfs
  rw [if_neg (by simp), if_neg longer, last]
  simp only [List.length_cons, findInDirectoryTarfsInternal, List.drop_succ_cons, List.drop_zero,
    chunk, search]
  cases found : (childNodes directory 0 entries).find? fun node => node.name = name with
  | none => rfl
  | some node =>
      have isNamed : node.name = name := by simpa using List.find?_some found
      simp [isNamed]

theorem listLoop_eq {rounds index : Nat}
    (inside : index ≤ (childNodes directory 0 entries).length)
    (further : (childNodes directory 0 entries).length < index + rounds) :
    listLoop memory fuel directory rounds (index + 1) =
      some ((childNodes directory 0 entries).drop index) := by
  induction rounds generalizing index with
  | zero => omega
  | succ rounds induction =>
      rw [listLoop, readDirectoryTarfs_eq archive obtained enough, Option.bind_some]
      by_cases ends : index = (childNodes directory 0 entries).length
      · simp [ends]
      · have within : index < (childNodes directory 0 entries).length := by omega
        rw [List.getElem?_eq_getElem within, List.drop_eq_getElem_cons within,
          induction within (by omega)]
        rfl

theorem listDirectoryTarfs_eq :
    listDirectoryTarfs memory fuel directory =
      some ((childNodes directory 0 entries).map some ++ [none]) := by
  have bound := length_childNodes directory 0 entries
  rw [listDirectoryTarfs, listLoop_eq archive obtained enough (Nat.zero_le _) (by omega),
    List.drop_zero]
  rfl

/-- What is handed out for a directory is again the root or a directory of the
archive, both by its number and by its name. -/
theorem directoryNode_of_returned {node : Node} (isDirectory : node.typeFlags = .directory)
    (returned : (∃ index : Nat,
        readDirectoryTarfs memory fuel directory (index + 1 : Nat) = some (some node)) ∨
      ∃ name, name ≠ [] ∧ slash ∉ name ∧
        findInDirectoryTarfs memory fuel directory (slash :: name) = some (some node)) :
    DirectoryNode root entries node := by
  apply directoryNode_of_mem_childNodes (obtained.reads archive).1.base (fun _ => id)
    archive.wellFormed ?_ isDirectory
  · exact 0
  · rcases returned with ⟨index, isRead⟩ | ⟨name, named, noSlash, isFound⟩
    · rw [readDirectoryTarfs_eq archive obtained enough, Option.some_inj] at isRead
      exact List.mem_of_getElem? isRead
    · rw [findInDirectoryTarfs_eq archive obtained enough named noSlash,
        Option.some_inj] at isFound
      exact List.mem_of_find?_eq_some isFound

end Operations

/-! ## Listing and lookup -/

/-- What a lookup of a name, the entries one by one and the list of them have to do
with each other. -/
structure ListingAgrees (name : Str) (find : Option (Option Node))
    (read : Int → Option (Option Node)) (list : Option (List (Option Node))) : Prop where
  found_iff : (∃ node, find = some (some node)) ↔
    ∃ entryNo ≥ 1, ∃ node, read entryNo = some (some node) ∧ node.name = name
  returns : ∃ result, find = some result
  least : ∀ entryNo ≥ 1, ∀ node, read entryNo = some (some node) → node.name = name →
    (∀ earlier ≥ 1, earlier < entryNo →
      ∀ other, read earlier = some (some other) → other.name ≠ name) →
    find = some (some node)
  listed : ∃ nodes : List Node, list = some (nodes.map some ++ [none]) ∧
    (∀ index node, nodes[index]? = some node → read (index + 1 : Nat) = some (some node)) ∧
    read (nodes.length + 1 : Nat) = some none

theorem listingAgrees_of_nodes {name : Str} {nodes : List Node}
    {read : Int → Option (Option Node)}
    (reads : ∀ index : Nat, read (index + 1 : Nat) = some nodes[index]?) :
    ListingAgrees name (some (nodes.find? fun node => node.name = name)) read
      (some (nodes.map some ++ [none])) := by
  have position : ∀ entryNo : Int, entryNo ≥ 1 → ∃ index : Nat, entryNo = (index + 1 : Nat) := by
    intro entryNo positive
    exact ⟨(entryNo - 1).toNat, by omega⟩
  refine ⟨?_, ⟨_, rfl⟩, ?_, ⟨nodes, rfl, ?_, ?_⟩⟩
  · constructor
    · rintro ⟨node, found⟩
      have isFound := Option.some.inj found
      rcases List.mem_iff_getElem?.mp (List.mem_of_find?_eq_some isFound) with ⟨index, isNode⟩
      refine ⟨(index + 1 : Nat), by omega, node, ?_, ?_⟩
      · rw [reads, isNode]
      · simpa using List.find?_some isFound
    · rintro ⟨entryNo, positive, node, isRead, named⟩
      rcases position entryNo positive with ⟨index, rfl⟩
      rw [reads, Option.some_inj] at isRead
      have isSome : (nodes.find? fun node => node.name = name).isSome := by
        rw [List.find?_isSome]
        exact ⟨node, List.mem_of_getElem? isRead, by simpa using named⟩
      rcases Option.isSome_iff_exists.mp isSome with ⟨found, isFound⟩
      exact ⟨found, by rw [isFound]⟩
  · intro entryNo positive node isRead named earliest
    rcases position entryNo positive with ⟨index, rfl⟩
    rw [reads, Option.some_inj] at isRead
    rw [Option.some_inj, List.find?_eq_some_iff_getElem]
    rcases List.getElem?_eq_some_iff.mp isRead with ⟨inside, isNode⟩
    refine ⟨by simpa using named, index, inside, isNode, fun earlier before => ?_⟩
    have different := earliest (earlier + 1 : Nat) (by omega) (by omega) nodes[earlier] (by
      rw [reads, List.getElem?_eq_getElem])
    simpa using different
  · intro index node isNode
    rw [reads, isNode]
  · rw [reads, List.getElem?_eq_none (Nat.le_refl _)]

/-- In every archive that begins with its only `./`, listing and lookup agree in
all directories and for all names. -/
theorem listing_agrees {memory : Memory} {root directory : Node} {entries : List Entry}
    (archive : Rooted memory root entries) (obtained : DirectoryNode root entries directory)
    {name : Str} (named : name ≠ []) (noSlash : slash ∉ name) :
    ∃ bound, ∀ fuel ≥ bound,
      ListingAgrees name (findInDirectoryTarfs memory fuel directory (slash :: name))
        (readDirectoryTarfs memory fuel directory) (listDirectoryTarfs memory fuel directory) := by
  refine ⟨entries.length + 1, fun fuel enough => ?_⟩
  rw [findInDirectoryTarfs_eq archive obtained enough named noSlash,
    listDirectoryTarfs_eq archive obtained enough]
  exact listingAgrees_of_nodes (readDirectoryTarfs_eq archive obtained enough)

theorem similarNames_rooted :
    Rooted (imageAt 0x100000 similarNames) similarRoot similarNames where
  mountpoint := rfl
  directory := rfl
  base_pos := by decide
  fits := by decide
  laid := similarNames_archive.laid
  wellFormed := similarNames_archive.wellFormed
  first := ⟨_, _, rfl, rfl, by decide⟩

/-- The directory `/ba` of this archive and the name `f`. -/
theorem listing_agrees_similarNames :
    ∃ bound, ∀ fuel ≥ bound,
      ListingAgrees [0x66]
        (findInDirectoryTarfs (imageAt 0x100000 similarNames) fuel
          ⟨[0x62, 0x61], 0, .directory, 0x100000⟩ [slash, 0x66])
        (readDirectoryTarfs (imageAt 0x100000 similarNames) fuel
          ⟨[0x62, 0x61], 0, .directory, 0x100000⟩)
        (listDirectoryTarfs (imageAt 0x100000 similarNames) fuel
          ⟨[0x62, 0x61], 0, .directory, 0x100000⟩) := by
  have obtained : DirectoryNode similarRoot similarNames
      ⟨[0x62, 0x61], 0, .directory, 0x100000⟩ :=
    .inr ⟨⟨[[0x62, 0x61]], 0x35, []⟩, by decide, [0x62, 0x61], rfl, rfl, rfl⟩
  exact listing_agrees similarNames_rooted obtained (by decide) (by decide)

end Dbos.Tarfs
