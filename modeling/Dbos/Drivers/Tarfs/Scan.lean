import Dbos.Foundation.Rounds
import Dbos.Drivers.Tarfs.Archive

/-! # Scanning an archive

The loops of `read_directory_tarfs` and `find_in_directory_tarfs_internal` go from
header to header, over an archive whose bytes are arbitrary. What
`check_parse_filename` makes of a header is a parameter here: it decides which
entry is taken, but not where the next header is. -/

namespace Dbos.Tarfs

open Dbos.Rounds Dbos.Strings

/-- Where the archive is in memory. -/
structure Ramdisk where
  start : Nat
  size : Nat
  fits : start + size ≤ wordSize

def Ramdisk.Contains (disk : Ramdisk) (address : Nat) : Prop :=
  disk.start ≤ address ∧ address < disk.start + disk.size

instance (disk : Ramdisk) (address : Nat) : Decidable (disk.Contains address) :=
  inferInstanceAs (Decidable (_ ∧ _))

/-- The root node that `mount_tarfs` makes. -/
def mountTarfs (disk : Ramdisk) (mountpoint : Str) : Node where
  name := mountpoint
  size := disk.size
  typeFlags := .directory
  basePointer := disk.start

/-! ## One round -/

/-- How many bytes `read_node_tarfs` copies. Only for files is the start checked
against the size, and the number of bytes may wrap around. -/
def copyLength (node : Node) (startAt : Nat) : Nat :=
  if node.basePointer = 0 then 0
  else if node.typeFlags ≠ .directory ∧ (node.size ≤ startAt ∨ 2 ^ 31 ≤ startAt) then 0
  else if (startAt + hdrSize) % wordSize > (node.size + wordSize - 1) % wordSize then
    (node.size + wordSize - startAt) % wordSize
  else hdrSize

theorem readNodeTarfs_eq (memory : Memory) (node : Node) (startAt : Nat) (header : Header) :
    readNodeTarfs memory node startAt header =
      if copyLength node startAt ≤ hdrSize then
        some fun index =>
          if index < copyLength node startAt then
            memory ((node.basePointer + startAt + index) % wordSize)
          else header index
      else none := by
  unfold readNodeTarfs copyLength
  split
  · simp
  · split
    · simp
    · rfl

/-- A header read copies bytes of the ramdisk only. -/
def ReadsInside (disk : Ramdisk) (node : Node) (startAt : Nat) : Prop :=
  ∀ index < copyLength node startAt,
    disk.Contains ((node.basePointer + startAt + index) % wordSize)

/-- The variables of the loops: `address`, `current_entry` and the header buffer. -/
structure Position where
  address : Nat
  currentEntry : Nat
  header : Header

/-- The loops begin at address 0 with a buffer of zeros. -/
def Position.initial : Position := ⟨0, 0, fun _ => 0⟩

/-- The node of the entry that has been read at `address`; `parsed` is the header
after `check_parse_filename`. -/
def entryNode (node : Node) (address : Nat) (header parsed : Header) : Node where
  name := parsed.name
  size := getFileSizeTarfs parsed
  typeFlags := getTypeFlags parsed.typeflag
  basePointer :=
    if getFileSizeTarfs header > 0 then (node.basePointer + address + hdrSize) % wordSize
    else node.basePointer

section Loops

variable (parse : Header → Str → Option (Int × Header)) (memory : Memory) (node : Node)

/-- The loop body of `read_directory_tarfs`, which is entered for directories only. -/
def readDirectoryRound (entryNo : Nat) (position : Position) :
    Option (Option Node ⊕ Position) :=
  let address := align position.address
  (readNodeTarfs memory node address position.header).bind fun header =>
    let size := getFileSizeTarfs header
    if header.isUstar then
      (parse header node.name).map fun (isChild, parsed) =>
        if isChild = 1 ∧ entryNo = 0 ∧ position.currentEntry = 0 then .inl (some node)
        else if isChild = 0 ∧ position.currentEntry = entryNo then
          .inl (some (entryNode node address header parsed))
        else
          .inr {
            address := (address + hdrSize + size) % wordSize
            currentEntry :=
              if isChild ≠ -1 then position.currentEntry + 1 else position.currentEntry
            header := parsed }
    else some (.inl none)

/-- The loop body of `find_in_directory_tarfs_internal`, looking for `chunk`. -/
def findRound (chunk : Str) (position : Position) : Option (Option Node ⊕ Position) :=
  let address := align position.address
  (readNodeTarfs memory node address position.header).bind fun header =>
    let size := getFileSizeTarfs header
    if header.isUstar then
      (parse header node.name).map fun (isChild, parsed) =>
        if isChild = 0 ∧ parsed.name = chunk then
          .inl (some (entryNode node address header parsed))
        else
          .inr { position with
            address := (address + hdrSize + size) % wordSize
            header := parsed }
    else some (.inl none)

/-! ## Where the headers end -/

/-- Where the header behind the one at `address` is, if there is a header at
`address`, and what is in the buffer by then. -/
def nextHeader (address : Nat) (buffer : Header) : Option (Nat × Header) :=
  (readNodeTarfs memory node (align address) buffer).bind fun header =>
    if header.isUstar then
      (parse header node.name).map fun (_, parsed) =>
        ((align address + hdrSize + getFileSizeTarfs header) % wordSize, parsed)
    else none

/-- Going from header to header one comes to a block that is none, and all of them
are in the ramdisk. A block that is cut off by the end of the directory is filled
up with what is in the buffer. -/
inductive HeadersEnd (disk : Ramdisk) : Nat → Header → Prop
  | stop {address : Nat} {buffer header : Header}
      (inside : ReadsInside disk node (align address))
      (isRead : readNodeTarfs memory node (align address) buffer = some header)
      (foreign : header.isUstar = false) : HeadersEnd disk address buffer
  | next {address later : Nat} {buffer parsed : Header}
      (inside : ReadsInside disk node (align address))
      (goesOn : nextHeader parse memory node address buffer = some (later, parsed))
      (rest : HeadersEnd disk later parsed) : HeadersEnd disk address buffer

/-- The loop reads the headers one after the other until it is left. -/
def Walks (round : Position → Option (Option Node ⊕ Position)) : Prop :=
  (∀ position header,
      readNodeTarfs memory node (align position.address) position.header = some header →
      header.isUstar = false → round position = some (.inl none)) ∧
    ∀ position later parsed,
      nextHeader parse memory node position.address position.header = some (later, parsed) →
      (∃ result, round position = some (.inl result)) ∨
        ∃ entry, round position = some (.inr ⟨later, entry, parsed⟩)

variable {parse memory node} {disk : Ramdisk}

theorem nextHeader_eq_some {address later : Nat} {buffer parsed : Header}
    (goesOn : nextHeader parse memory node address buffer = some (later, parsed)) :
    ∃ header isChild, readNodeTarfs memory node (align address) buffer = some header ∧
      header.isUstar = true ∧ parse header node.name = some (isChild, parsed) ∧
      later = (align address + hdrSize + getFileSizeTarfs header) % wordSize := by
  rcases Option.bind_eq_some_iff.mp goesOn with ⟨header, isRead, rest⟩
  split at rest
  case isFalse => cases rest
  case isTrue isUstar =>
    rcases Option.map_eq_some_iff.mp rest with ⟨⟨isChild, name⟩, isParsed, equal⟩
    cases equal
    exact ⟨header, isChild, isRead, isUstar, isParsed, rfl⟩

theorem walks_findRound (chunk : Str) :
    Walks parse memory node (findRound parse memory node chunk) := by
  refine ⟨?_, ?_⟩
  · intro position header isRead foreign
    simp [findRound, isRead, foreign]
  · intro position later parsed goesOn
    rcases nextHeader_eq_some goesOn with ⟨header, isChild, isRead, isUstar, isParsed, rfl⟩
    by_cases taken : isChild = 0 ∧ parsed.name = chunk
    · left
      simp [findRound, isRead, isUstar, isParsed, taken]
    · right
      simp [findRound, isRead, isUstar, isParsed, taken]

theorem walks_readDirectoryRound (entryNo : Nat) :
    Walks parse memory node (readDirectoryRound parse memory node entryNo) := by
  refine ⟨?_, ?_⟩
  · intro position header isRead foreign
    simp [readDirectoryRound, isRead, foreign]
  · intro position later parsed goesOn
    rcases nextHeader_eq_some goesOn with ⟨header, isChild, isRead, isUstar, isParsed, rfl⟩
    simp only [readDirectoryRound, isRead, Option.bind_some, isUstar, if_true, isParsed,
      Option.map_some]
    split
    · exact .inl ⟨_, rfl⟩
    · split
      · exact .inl ⟨_, rfl⟩
      · exact .inr ⟨_, rfl⟩

def Position.Inside (disk : Ramdisk) (node : Node) (position : Position) : Prop :=
  ReadsInside disk node (align position.address)

theorem HeadersEnd.safe {round : Position → Option (Option Node ⊕ Position)}
    (walks : Walks parse memory node round) {address : Nat} {buffer : Header}
    (headersEnd : HeadersEnd parse memory node disk address buffer) (entry : Nat) :
    Safe (Position.Inside disk node) round ⟨address, entry, buffer⟩ := by
  induction headersEnd generalizing entry with
  | stop inside isRead foreign => exact .done inside (walks.1 _ _ isRead foreign)
  | next inside goesOn rest induction =>
      rcases walks.2 ⟨_, entry, _⟩ _ _ goesOn with ⟨result, leaves⟩ | ⟨later, continues⟩
      · exact .done inside leaves
      · exact .again inside continues (induction later)

theorem HeadersEnd.inside {address : Nat} {buffer : Header}
    (headersEnd : HeadersEnd parse memory node disk address buffer) :
    ReadsInside disk node (align address) := by
  cases headersEnd with
  | stop inside _ _ => exact inside
  | next inside _ _ => exact inside

theorem HeadersEnd.next_of {address later : Nat} {buffer parsed : Header}
    (headersEnd : HeadersEnd parse memory node disk address buffer)
    (goesOn : nextHeader parse memory node address buffer = some (later, parsed)) :
    HeadersEnd parse memory node disk later parsed := by
  cases headersEnd with
  | stop _ isRead foreign =>
      rcases nextHeader_eq_some goesOn with ⟨header, isChild, isSame, isUstar, -, -⟩
      cases isRead.symm.trans isSame
      rw [foreign] at isUstar
      cases isUstar
  | next _ continues rest =>
      cases continues.symm.trans goesOn
      exact rest

/-- The names that headers can hold are shorter than this. -/
def longName : Str := List.replicate (hdrSize + 1) 0x61

theorem name_ne_longName (header : Header) : header.name ≠ longName := by
  intro equal
  have short : header.name.length ≤ hdrSize := by
    unfold Header.name Header.string
    apply Nat.le_trans (List.takeWhile_sublist _).length_le
    simp
  rw [equal, longName, List.length_replicate] at short
  omega

theorem headersEnd_of_safe {position : Position}
    (safe : Safe (Position.Inside disk node) (findRound parse memory node longName) position) :
    HeadersEnd parse memory node disk position.address position.header := by
  refine Safe.induct (motive := fun position =>
    HeadersEnd parse memory node disk position.address position.header) ?_ ?_ safe
  · intro position result inside leaves
    rcases Option.bind_eq_some_iff.mp leaves with ⟨header, isRead, rest⟩
    split at rest
    case isTrue isUstar =>
      rcases Option.map_eq_some_iff.mp rest with ⟨⟨isChild, parsed⟩, -, found⟩
      simp only [name_ne_longName, and_false, if_false] at found
      cases found
    case isFalse foreign => exact .stop inside isRead (by simpa using foreign)
  · intro position next inside continues rest
    rcases Option.bind_eq_some_iff.mp continues with ⟨header, isRead, parses⟩
    split at parses
    case isFalse => cases parses
    case isTrue isUstar =>
      rcases Option.map_eq_some_iff.mp parses with ⟨⟨isChild, parsed⟩, isParsed, found⟩
      simp only [name_ne_longName, and_false, if_false] at found
      cases found
      refine .next inside ?_ rest
      simp [nextHeader, isRead, isUstar, isParsed]

/-- The scans of a node are safe: whichever entry or name is looked for, the loop
is left and copies headers from the ramdisk only. -/
def ScansSafely (parse : Header → Str → Option (Int × Header)) (memory : Memory)
    (disk : Ramdisk) (node : Node) : Prop :=
  (∀ entryNo, Safe (Position.Inside disk node)
      (readDirectoryRound parse memory node entryNo) .initial) ∧
    ∀ chunk, Safe (Position.Inside disk node) (findRound parse memory node chunk) .initial

/-- The scans of a node are safe if and only if the headers, followed from the
first one, end in the ramdisk. -/
theorem scansSafely_iff (parse : Header → Str → Option (Int × Header)) (memory : Memory)
    (disk : Ramdisk) (node : Node) :
    ScansSafely parse memory disk node ↔
      HeadersEnd parse memory node disk 0 (fun _ => 0) := by
  constructor
  · intro safe
    exact headersEnd_of_safe (safe.2 longName)
  · intro headersEnd
    refine ⟨fun entryNo => ?_, fun chunk => ?_⟩
    · exact headersEnd.safe (walks_readDirectoryRound entryNo) 0
    · exact headersEnd.safe (walks_findRound chunk) 0

end Loops

/-! ## Archives with and without an end -/

/-- `check_parse_filename` on the header itself. -/
def parseHeader (header : Header) (parent : Str) : Option (Int × Header) :=
  (checkParseFilename header.name parent).map fun (isChild, name) =>
    (isChild, header.setName name)

theorem readsInside_of_reads {disk : Ramdisk} {root node : Node} (reads : Reads root node)
    (start : disk.start = root.basePointer) (size : disk.size = root.size) {offset : Nat}
    (within : offset + hdrSize ≤ root.size) : ReadsInside disk node offset := by
  intro index bound
  have fits := disk.fits
  have short : index < hdrSize := by
    have sizes := reads.size
    unfold copyLength at bound
    split at bound
    · omega
    · split at bound
      · omega
      · split at bound
        · simp only [wordSize, hdrSize] at *
          omega
        · exact bound
  have address : (node.basePointer + offset + index) % wordSize =
      node.basePointer + offset + index := by
    rw [reads.base, Nat.mod_eq_of_lt (by omega)]
  rw [address, reads.base, ← start]
  exact ⟨by omega, by omega⟩

/-- The headers of an archive as `tar` writes it, closed by a block of zeros, end in
the ramdisk, and they are read in the same way through all its directories. -/
theorem headersEnd_of_laid {memory : Memory} {disk : Ramdisk} {root directory : Node}
    (start : disk.start = root.basePointer) (size : disk.size = root.size)
    (basePos : 0 < root.basePointer) (reads : Reads root directory)
    (nonempty : directory.name ≠ []) {entries : List Entry}
    (wellFormed : ∀ entry ∈ entries, entry.WellFormed) {offset : Nat}
    (laid : Laid memory root.basePointer root.size offset entries)
    (aligned : offset % hdrSize = 0) {address : Nat} (atOffset : align address = offset)
    (buffer : Header) : HeadersEnd parseHeader memory directory disk address buffer := by
  have fits : root.basePointer + root.size ≤ wordSize := by
    rw [← start, ← size]
    exact disk.fits
  induction entries generalizing offset address buffer with
  | nil =>
      have within : offset + hdrSize ≤ root.size := laid.within
      rcases readNodeTarfs_end reads basePos fits laid buffer with ⟨read, isRead, notUstar⟩
      rw [← atOffset] at isRead within
      exact .stop (readsInside_of_reads reads start size within) isRead notUstar
  | cons entry entries induction =>
      have within : offset + hdrSize ≤ root.size := laid.within
      rcases readNodeTarfs_entry reads basePos fits laid aligned buffer with
        ⟨⟨read, isRead, -, readAs⟩, laterAligned, atNext⟩
      rcases checkParseFilename_spec (wellFormed entry (by simp)) nonempty with
        ⟨isChild, name, decided, -⟩
      have parses : parseHeader read directory.name = some (isChild, read.setName name) := by
        rw [parseHeader, readAs.name, decided]
        rfl
      have goesOn : nextHeader parseHeader memory directory address buffer =
          some ((offset + hdrSize + entry.contents.length) % wordSize, read.setName name) := by
        simp [nextHeader, atOffset, isRead, readAs.isUstar, parses, readAs.size]
      rw [← atOffset] at within
      refine .next (readsInside_of_reads reads start size within) goesOn ?_
      exact induction (fun other member => wellFormed other (by simp [member])) laid.2
        laterAligned atNext _

/-- 512 bytes: the header of `./` and nothing behind it. -/
def truncated : Ramdisk := ⟨0x100000, 512, by decide⟩

def truncatedMemory : Memory := imageAt 0x100000 [⟨[], 0x35, []⟩]

/-- The second read copies nothing, so the header is found once more, and the third
one begins behind the end of the ramdisk. -/
theorem not_scansSafely :
    ¬∀ (disk : Ramdisk) (memory : Memory) (mountpoint : Str),
      ScansSafely parseHeader memory disk (mountTarfs disk mountpoint) := by
  intro always
  have safe := always truncated truncatedMemory [slash]
  have first := headersEnd_of_safe (safe.2 longName)
  have twice : ((nextHeader parseHeader truncatedMemory (mountTarfs truncated [slash]) 0
      (fun _ => 0)).bind fun second => (nextHeader parseHeader truncatedMemory
        (mountTarfs truncated [slash]) second.1 second.2).map Prod.fst) = some 1024 := by
    decide +kernel
  rcases Option.bind_eq_some_iff.mp twice with ⟨⟨second, buffer⟩, isSecond, rest⟩
  rcases Option.map_eq_some_iff.mp rest with ⟨⟨third, parsed⟩, isThird, isAddress⟩
  have outside := ((first.next_of isSecond).next_of isThird).inside 0
  rw [show third = 1024 from isAddress] at outside
  exact absurd (outside (by decide)) (by decide)

end Dbos.Tarfs
