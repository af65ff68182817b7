import Mathlib.Data.List.TakeDrop
import Dbos.Kernel.Process.Image
import Dbos.Kernel.Memory.CopyOnWrite

/-! # Executables

When the image in memory is the one that the program headers describe. The loader
copies every segment from the start of a page on, so it is if all segments are
aligned to pages; otherwise it depends on the bytes. -/

namespace Dbos.Loader

open Dbos.Execution Dbos.Paging

/-! ## What the headers describe -/

namespace Phdr

/-- The byte that belongs at `p_vaddr + k`. -/
def expected (file : File) (segment : Phdr) (k : Nat) : UInt8 :=
  if k < segment.pFilesz then file.data.getD (segment.pOffset + k) 0 else 0

def Contains (segment : Phdr) (address : Nat) : Prop :=
  segment.pVaddr ≤ address ∧ address < segment.pVaddr + segment.pMemsz

/-- A segment to be loaded that lies inside the file and below `0xC0000000`. -/
structure Proper (file : File) (segment : Phdr) : Prop where
  pVaddr : segment.pVaddr ≠ 0
  sizes : segment.pFilesz ≤ segment.pMemsz
  inside : segment.pOffset + segment.pFilesz ≤ file.data.length
  below : segment.pVaddr + segment.pMemsz ≤ userEnd

end Phdr

/-- The `PT_LOAD` segments are proper, and no byte belongs to two of them. -/
structure Proper (file : File) (segments : List Phdr) : Prop where
  proper : ∀ segment ∈ segments, segment.pType = 1 → segment.Proper file
  apart : segments.Pairwise fun segment other => segment.pType = 1 → other.pType = 1 →
    ∀ address, segment.Contains address → ¬other.Contains address

def Right (file : File) (segments : List Phdr) (bytes : Nat → Option UInt8) : Prop :=
  ∀ segment ∈ segments, segment.pType = 1 → ∀ k < segment.pMemsz,
    bytes (segment.pVaddr + k) = some (segment.expected file k)

/-! ## What the loader copies -/

theorem readNodeTarfs_eq (file : File) (startAt : Nat) {size : Nat} (small : size ≤ 4096) :
    readNodeTarfs file startAt size = (file.data.drop startAt).take size := by
  have fits := file.small
  unfold readNodeTarfs space
  by_cases outside : file.data.length ≤ startAt
  · rw [if_pos (.inl outside), List.drop_eq_nil_of_le outside, List.take_nil]
  · rw [if_neg (by omega), Nat.mod_eq_of_lt (by omega)]
    simp only
    split
    · rw [List.take_of_length_le (by rw [List.length_drop]), List.take_of_length_le]
      rw [List.length_drop]
      omega
    · rfl

theorem getD_readNodeTarfs (file : File) (startAt : Nat) {size position : Nat}
    (small : size ≤ 4096) :
    (readNodeTarfs file startAt size).getD position 0 =
      if position < size then file.data.getD (startAt + position) 0 else 0 := by
  rw [readNodeTarfs_eq file startAt small, List.getD_eq_getElem?_getD, List.getElem?_take]
  split
  · rw [List.getElem?_drop, List.getD_eq_getElem?_getD]
  · rfl

namespace Phdr.Proper

variable {file : File} {segment : Phdr}

theorem length_eq (proper : segment.Proper file) : segment.length = segment.pMemsz := by
  have below := proper.below
  unfold userEnd at below
  unfold Phdr.length space
  omega

theorem inUserHalf (proper : segment.Proper file) : segment.InUserHalf := by
  have below := proper.below
  unfold userEnd at below
  unfold Phdr.InUserHalf Phdr.sizeInPages Phdr.firstPage userPages
  rw [proper.length_eq]
  split <;> omega

theorem sizeInPages_le (proper : segment.Proper file) :
    segment.pMemsz ≤ 4096 * segment.sizeInPages ∧
      4096 * segment.sizeInPages < segment.pMemsz + 4096 := by
  unfold Phdr.sizeInPages
  rw [proper.length_eq]
  split <;> omega

theorem fileEnd_eq (proper : segment.Proper file) :
    segment.fileEnd = segment.pOffset + segment.pFilesz := by
  have inside := proper.inside
  have fits := file.small
  unfold Phdr.fileEnd space
  exact Nat.mod_eq_of_lt (by omega)

theorem fileAddCur_eq (proper : segment.Proper file) {index : Nat}
    (bound : 4096 * index < segment.pMemsz + 4096) :
    fileAddCur segment.pOffset index = segment.pOffset + 0x1000 * index := by
  have inside := proper.inside
  have below := proper.below
  have fits := file.small
  unfold userEnd at below
  unfold fileAddCur space
  exact Nat.mod_eq_of_lt (by omega)

theorem enough (proper : segment.Proper file) : segment.Enough := by
  refine ⟨segment.sizeInPages, Nat.le_refl _, ?_⟩
  have sizes := proper.sizes
  have pages := proper.sizeInPages_le
  rw [proper.fileEnd_eq, proper.fileAddCur_eq pages.2]
  omega

/-- The byte in the pages of a segment is the one that belongs as far behind
`p_vaddr` as it is behind the start of the first page. -/
theorem byteAt_eq (proper : segment.Proper file) {address : Nat}
    (covers : segment.Covers (address / 4096)) :
    segment.byteAt file address =
      segment.expected file (address - 4096 * segment.firstPage) := by
  rcases covers with ⟨above, below⟩
  have pages := proper.sizeInPages_le
  generalize isIndex : address / 4096 - segment.firstPage = index
  have current : ∀ earlier ≤ index,
      fileAddCur segment.pOffset earlier = segment.pOffset + 0x1000 * earlier := fun earlier less =>
    proper.fileAddCur_eq (by omega)
  unfold Phdr.byteAt Phdr.pageBytes chunk Phdr.expected
  rw [isIndex, proper.fileEnd_eq, current index (Nat.le_refl _)]
  by_cases copied : 4096 * index < segment.pFilesz
  · rw [if_pos, getD_readNodeTarfs]
    · rw [show segment.pOffset + 0x1000 * index + address % 4096 =
        segment.pOffset + (address - 4096 * segment.firstPage) by omega]
      refine if_congr ?_ rfl rfl
      split <;> omega
    · split <;> omega
    · intro earlier less
      rw [current earlier less]
      omega
  · rw [if_neg, if_neg (by omega)]
    · rfl
    · intro all
      have last := all index (Nat.le_refl _)
      rw [current index (Nat.le_refl _)] at last
      omega

end Phdr.Proper

/-! ## Aligned segments -/

/-- All segments that take up memory begin on a page boundary. -/
def Aligned (segments : List Phdr) : Prop :=
  ∀ segment ∈ segments, segment.pType = 1 → segment.pMemsz = 0 ∨ segment.pVaddr % 4096 = 0

theorem place_of_covers {file : File} {segment : Phdr} {bytes : Nat → Option UInt8} {address : Nat}
    (loadable : segment.Loadable) (covers : segment.Covers (address / 4096)) :
    place file segment bytes address = some (segment.byteAt file address) := by
  unfold place
  rw [if_pos ⟨loadable, covers⟩]

theorem image_of_not_covers {file : File} {segments : List Phdr} {bytes : Nat → Option UInt8}
    {address : Nat}
    (free : ∀ segment ∈ segments, segment.Loadable → ¬segment.Covers (address / 4096)) :
    image file segments bytes address = bytes address := by
  induction segments generalizing bytes with
  | nil => rfl
  | cons segment rest induction =>
      have passes : place file segment bytes address = bytes address := by
        unfold place
        rw [if_neg fun both => free segment List.mem_cons_self both.1 both.2]
      rw [← passes]
      exact induction fun other member => free other (List.mem_cons_of_mem _ member)

section Aligned

variable {file : File} {segment : Phdr}

theorem contains_of_covers (proper : segment.Proper file) (aligned : segment.pVaddr % 4096 = 0)
    {page : Nat} (covers : segment.Covers page) : segment.Contains (4096 * page) := by
  have pages := proper.sizeInPages_le
  unfold Phdr.Covers Phdr.firstPage at covers
  unfold Phdr.Contains
  omega

theorem covers_of_contains (proper : segment.Proper file) (aligned : segment.pVaddr % 4096 = 0)
    {address : Nat} (contains : segment.Contains address) : segment.Covers (address / 4096) := by
  have pages := proper.sizeInPages_le
  unfold Phdr.Contains at contains
  unfold Phdr.Covers Phdr.firstPage
  omega

theorem memsz_pos_of_covers (proper : segment.Proper file) {page : Nat}
    (covers : segment.Covers page) : segment.pMemsz ≠ 0 := by
  have pages := proper.sizeInPages_le
  unfold Phdr.Covers at covers
  omega

theorem right_of_aligned {segments : List Phdr} (proper : Proper file segments)
    (aligned : Aligned segments) (bytes : Nat → Option UInt8) :
    Right file segments (image file segments bytes) := by
  induction segments generalizing bytes with
  | nil =>
      intro segment member
      cases member
  | cons segment rest induction =>
      rcases List.pairwise_cons.mp proper.apart with ⟨apart, restApart⟩
      have restProper : Proper file rest :=
        ⟨fun other member => proper.proper other (List.mem_cons_of_mem _ member), restApart⟩
      have restRight := induction restProper
        (fun other member => aligned other (List.mem_cons_of_mem _ member))
        (place file segment bytes)
      intro other member isLoad k below
      rcases List.mem_cons.mp member with isSegment | inRest
      · subst isSegment
        have own := proper.proper other List.mem_cons_self isLoad
        have ownAligned := (aligned other List.mem_cons_self isLoad).resolve_left (by omega)
        have contains : other.Contains (other.pVaddr + k) := ⟨by omega, by omega⟩
        have covers := covers_of_contains own ownAligned contains
        -- A later segment on the same page would have its first byte in common.
        have notCovered : ∀ later ∈ rest, later.Loadable →
            ¬later.Covers ((other.pVaddr + k) / 4096) := by
          intro later isLater loadable laterCovers
          have laterProper := restProper.proper later isLater loadable.2
          have laterAligned := (aligned later (List.mem_cons_of_mem _ isLater)
            loadable.2).resolve_left (memsz_pos_of_covers laterProper laterCovers)
          exact apart later isLater isLoad loadable.2 _
            (contains_of_covers own ownAligned covers)
            (contains_of_covers laterProper laterAligned laterCovers)
        have isImage : image file (other :: rest) bytes (other.pVaddr + k) =
            image file rest (place file other bytes) (other.pVaddr + k) := rfl
        rw [isImage, image_of_not_covers notCovered,
          place_of_covers ⟨own.pVaddr, isLoad⟩ covers, own.byteAt_eq covers]
        unfold Phdr.firstPage
        rw [show other.pVaddr + k - 4096 * (other.pVaddr / 4096) = k by omega]
      · exact restRight other inRest isLoad k below

end Aligned

/-! ## When the image is right -/

/-- The segment whose page is in place at the end. -/
def lastCovering (segments : List Phdr) (page : Nat) : Option Phdr :=
  segments.reverse.find? fun segment => segment.Loadable ∧ segment.Covers page

/-- Every byte of a segment happens to be the one that the last segment with a page
there has at the same distance from its first page; where no segment has a page, it
happens to be there already. -/
def Coincides (file : File) (segments : List Phdr) (bytes : Nat → Option UInt8) : Prop :=
  ∀ segment ∈ segments, segment.pType = 1 → ∀ k < segment.pMemsz,
    match lastCovering segments ((segment.pVaddr + k) / 4096) with
    | some last =>
        last.expected file (segment.pVaddr + k - 4096 * last.firstPage) = segment.expected file k
    | none => bytes (segment.pVaddr + k) = some (segment.expected file k)

theorem image_eq (file : File) (segments : List Phdr) (bytes : Nat → Option UInt8)
    (address : Nat) :
    image file segments bytes address =
      match lastCovering segments (address / 4096) with
      | some last => some (last.byteAt file address)
      | none => bytes address := by
  induction segments using List.reverseRecOn with
  | nil => rfl
  | append_singleton segments segment induction =>
      unfold image lastCovering at *
      rw [List.foldl_append, List.reverse_append, List.foldl_cons, List.foldl_nil]
      rw [List.reverse_singleton, List.singleton_append, List.find?_cons]
      unfold place
      by_cases covers : segment.Loadable ∧ segment.Covers (address / 4096)
      · rw [if_pos covers, decide_eq_true covers]
      · rw [if_neg covers, decide_eq_false covers]
        exact induction

theorem right_image_iff {file : File} {segments : List Phdr} (proper : Proper file segments)
    (bytes : Nat → Option UInt8) :
    Right file segments (image file segments bytes) ↔ Coincides file segments bytes := by
  have same : ∀ segment : Phdr, ∀ k,
      image file segments bytes (segment.pVaddr + k) = some (segment.expected file k) ↔
        match lastCovering segments ((segment.pVaddr + k) / 4096) with
        | some last => last.expected file (segment.pVaddr + k - 4096 * last.firstPage) =
            segment.expected file k
        | none => bytes (segment.pVaddr + k) = some (segment.expected file k) := by
    intro segment k
    rw [image_eq]
    cases isLast : lastCovering segments ((segment.pVaddr + k) / 4096) with
    | none => rfl
    | some last =>
        have found := List.find?_some isLast
        rw [decide_eq_true_iff] at found
        have member := List.mem_reverse.mp (List.mem_of_find?_eq_some isLast)
        simp only [Option.some.injEq]
        rw [(proper.proper last member found.1.2).byteAt_eq found.2]
  constructor
  · intro right segment member isLoad k below
    exact (same segment k).mp (right segment member isLoad k below)
  · intro coincides segment member isLoad k below
    exact (same segment k).mpr (coincides segment member isLoad k below)

/-- Segments that are aligned to pages never get in each other's way. -/
theorem coincides_of_aligned {file : File} {segments : List Phdr} (proper : Proper file segments)
    (aligned : Aligned segments) (bytes : Nat → Option UInt8) :
    Coincides file segments bytes :=
  (right_image_iff proper bytes).mp (right_of_aligned proper aligned bytes)

/-- In every state that is reached, an executable with proper segments is loaded, and
as long as there are frames it is loaded right exactly if its bytes coincide. -/
theorem elfLoadExecutable_right_iff {machine : Machine} {kernelDir heapEnd : Nat}
    (booted : Booted machine kernelDir) {events : List Event} {system : System}
    (reached : run System.step (System.boot machine kernelDir heapEnd) events = some system)
    {process : Process} (member : process ∈ system.processes) {file : File} {leftover : Leftover}
    (accepted : validateElf (readHeader file leftover) = true)
    (proper : Proper file (programHeaders file leftover)) :
    ∃ next, elfLoadExecutable file leftover process.pdir system.machine = some next ∧
      (next.phys.Ok →
        (Right file (programHeaders file leftover) (userLoad next.memory process.pdir) ↔
          Coincides file (programHeaders file leftover)
            (userLoad system.machine.memory process.pdir))) := by
  have isSegments : segmentsOf file leftover = programHeaders file leftover := by
    unfold segmentsOf
    rw [if_pos accepted]
  have returns : (elfLoadExecutable file leftover process.pdir system.machine).isSome = true := by
    rw [elfLoadExecutable_eq]
    refine loadSegments_isSome (fun _ => bounded_of_mem_segmentsOf) fun segment isSegment loadable => ?_
    rw [isSegments] at isSegment
    exact (proper.proper segment isSegment loadable.2).enough
  rcases Option.isSome_iff_exists.mp returns with ⟨next, loaded⟩
  refine ⟨next, loaded, fun ok => ?_⟩
  have simulates := simulates_run booted reached (ok_of_elfLoadExecutable loaded ok)
  rcases simulates.coherent.mapped with ⟨tables, mapped⟩
  have alters := elfLoadExecutable_spec mapped (System.pdir_mem member)
    (fun segment isSegment loadable =>
      (proper.proper segment (isSegments ▸ isSegment) loadable.2).inUserHalf) loaded ok
  rw [isSegments] at alters
  rw [← right_image_iff proper]
  have same : ∀ segment ∈ programHeaders file leftover, segment.pType = 1 →
      ∀ k < segment.pMemsz, userLoad next.memory process.pdir (segment.pVaddr + k) =
        image file (programHeaders file leftover) (userLoad system.machine.memory process.pdir)
          (segment.pVaddr + k) := by
    intro segment isSegment isLoad k below
    have inside := (proper.proper segment isSegment isLoad).below
    exact alters.own _ (by omega)
  constructor
  · intro right segment isSegment isLoad k below
    rw [← same segment isSegment isLoad k below]
    exact right segment isSegment isLoad k below
  · intro right segment isSegment isLoad k below
    rw [same segment isSegment isLoad k below]
    exact right segment isSegment isLoad k below

/-! ### Two executables -/

def littleEndian (size value : Nat) : List UInt8 :=
  (List.range size).map fun place => UInt8.ofNat (value / 256 ^ place)

/-- The bytes of an executable: its header, its program headers, and data. -/
def executable (segments : List Phdr) (data : List UInt8) : List UInt8 :=
  [0x7F, 0x45, 0x4C, 0x46, 1, 1, 1, 0, 0, 0, 0, 0, 0, 0, 0, 0] ++ littleEndian 2 2 ++
    littleEndian 2 3 ++ littleEndian 4 1 ++ littleEndian 4 0x10000000 ++ littleEndian 4 52 ++
    littleEndian 8 0 ++ littleEndian 2 52 ++ littleEndian 2 32 ++
    littleEndian 2 segments.length ++ littleEndian 6 0 ++
    segments.flatMap (fun segment => littleEndian 4 segment.pType ++
      littleEndian 4 segment.pOffset ++ littleEndian 8 segment.pVaddr ++
      littleEndian 4 segment.pFilesz ++ littleEndian 4 segment.pMemsz ++ littleEndian 8 0) ++ data

/-- One byte of data behind the headers, with this address. -/
def oneByteAt (address : Nat) : File where
  name := [0x61]
  data := executable [⟨1, 84, address, 1, 1⟩] [0xAA]
  small := by simp [executable, littleEndian]

def noLeftover : Leftover := ⟨fun _ => 0, fun _ _ => 0⟩

theorem proper_oneByteAt {address : Nat} (notZero : address ≠ 0) (below : address < userEnd) :
    Proper (oneByteAt address) [⟨1, 84, address, 1, 1⟩] := by
  refine ⟨fun segment member _ => ?_, List.pairwise_singleton _ _⟩
  rw [List.mem_singleton.mp member]
  exact ⟨notZero, Nat.le_refl _, by simp [oneByteAt, executable, littleEndian], below⟩

/-- The state in which the executables are loaded: process 2 has been created. -/
theorem elfLoadExecutable_right_pageAligned : ∃ system process next,
    run System.step (System.boot smallMachine 1 0) [.create 1 ⟨0, 0, 0⟩] = some system ∧
      process ∈ system.processes ∧
      elfLoadExecutable (oneByteAt 0x10000000) noLeftover process.pdir system.machine =
        some next ∧
      Right (oneByteAt 0x10000000) [⟨1, 84, 0x10000000, 1, 1⟩]
        (userLoad next.memory process.pdir) := by
  have isHeaders : programHeaders (oneByteAt 0x10000000) noLeftover =
      [⟨1, 84, 0x10000000, 1, 1⟩] := by decide +kernel
  have accepted : validateElf (readHeader (oneByteAt 0x10000000) noLeftover) = true := by
    decide +kernel
  have evaluated : ((run System.step (System.boot smallMachine 1 0)
      [.create 1 ⟨0, 0, 0⟩]).bind fun system => (system.find 2).bind fun process =>
        (elfLoadExecutable (oneByteAt 0x10000000) noLeftover process.pdir system.machine).map
          fun next => (next.phys.failed, next.phys.wrapped)) = some (false, false) := by
    decide +kernel
  rcases Option.bind_eq_some_iff.mp evaluated with ⟨system, reached, inSystem⟩
  rcases Option.bind_eq_some_iff.mp inSystem with ⟨process, found, isLoaded⟩
  rcases Option.map_eq_some_iff.mp isLoaded with ⟨next, loaded, good⟩
  rw [Prod.mk.injEq] at good
  have member := (System.of_find found).1
  have proper : Proper (oneByteAt 0x10000000)
      (programHeaders (oneByteAt 0x10000000) noLeftover) := by
    rw [isHeaders]
    exact proper_oneByteAt (by decide) (by decide)
  rcases elfLoadExecutable_right_iff booted_smallMachine reached member accepted proper with
    ⟨other, isOther, iff⟩
  rw [loaded, Option.some.injEq] at isOther
  subst isOther
  have right := (iff good).mpr (coincides_of_aligned proper ?_ _)
  · rw [isHeaders] at right
    exact ⟨system, process, next, reached, member, loaded, right⟩
  · rw [isHeaders]
    intro segment isSegment _
    rw [List.mem_singleton.mp isSegment]
    exact .inr (by decide)

/-- At `0x10000010` the process finds a 0: the byte of the file is at `0x10000000`. -/
theorem elfLoadExecutable_not_right : ∃ system process next,
    run System.step (System.boot smallMachine 1 0) [.create 1 ⟨0, 0, 0⟩] = some system ∧
      process ∈ system.processes ∧
      validateElf (readHeader (oneByteAt 0x10000010) noLeftover) = true ∧
      Proper (oneByteAt 0x10000010) (programHeaders (oneByteAt 0x10000010) noLeftover) ∧
      elfLoadExecutable (oneByteAt 0x10000010) noLeftover process.pdir system.machine =
        some next ∧ next.phys.Ok ∧
      ¬Right (oneByteAt 0x10000010) (programHeaders (oneByteAt 0x10000010) noLeftover)
        (userLoad next.memory process.pdir) := by
  have isHeaders : programHeaders (oneByteAt 0x10000010) noLeftover =
      [⟨1, 84, 0x10000010, 1, 1⟩] := by decide +kernel
  have evaluated : ((run System.step (System.boot smallMachine 1 0)
      [.create 1 ⟨0, 0, 0⟩]).bind fun system => (system.find 2).bind fun process =>
        (elfLoadExecutable (oneByteAt 0x10000010) noLeftover process.pdir system.machine).map
          fun next => (userLoad next.memory process.pdir 0x10000010, next.phys.failed,
            next.phys.wrapped)) = some (some 0, false, false) := by
    decide +kernel
  rcases Option.bind_eq_some_iff.mp evaluated with ⟨system, reached, inSystem⟩
  rcases Option.bind_eq_some_iff.mp inSystem with ⟨process, found, isLoaded⟩
  rcases Option.map_eq_some_iff.mp isLoaded with ⟨next, loaded, good⟩
  rw [Prod.mk.injEq, Prod.mk.injEq] at good
  refine ⟨system, process, next, reached, (System.of_find found).1, by decide +kernel, ?_, loaded,
    good.2, ?_⟩
  · rw [isHeaders]
    exact proper_oneByteAt (by decide) (by decide)
  · intro right
    rw [isHeaders] at right
    have first := right _ List.mem_cons_self rfl 0 Nat.one_pos
    rw [Nat.add_zero, good.1] at first
    exact absurd first (by decide)

end Dbos.Loader
