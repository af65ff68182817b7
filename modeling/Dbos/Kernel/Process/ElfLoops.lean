import Dbos.Foundation.Rounds
import Dbos.Kernel.Process.Executable

/-! # The loops of the ELF loader

The loops of `elf_load_executable` with their 32-bit counters, and when they end without
reading the array `physicals` behind its end. The array has a place for every page of
`p_memsz`, but it is `p_filesz` that drives the loop over it. -/

namespace Dbos.Loader

open Dbos.Rounds Dbos.Paging

/-! ## The loop that copies a segment -/

/-- `page_index` and `file_add_cur`. -/
structure CopyState where
  pageIndex : Nat
  fileAddCur : Nat

/-- One round of `while (file_add_cur < file_end)`. -/
def copyRound (fileEnd : Nat) (state : CopyState) : Option (Unit ⊕ CopyState) :=
  if state.fileAddCur < fileEnd then
    some (.inr ⟨state.pageIndex + 1, (state.fileAddCur + 0x1000) % space⟩)
  else some (.inl ())

/-- A round that reads `physicals` finds a place of the array there. -/
def Phdr.IndexBelow (segment : Phdr) (state : CopyState) : Prop :=
  state.fileAddCur < segment.fileEnd → state.pageIndex < segment.sizeInPages

/-- The loop ends, and reads no more of `physicals` than there is. -/
def Phdr.Copies (segment : Phdr) : Prop :=
  Safe segment.IndexBelow (copyRound segment.fileEnd) ⟨0, segment.pOffset⟩

section Copies

variable {segment : Phdr}

theorem copies_of_enough {state : CopyState} (small : state.fileAddCur < space) (count : Nat)
    (below : state.pageIndex + count ≤ segment.sizeInPages)
    (done : segment.fileEnd ≤ fileAddCur state.fileAddCur count) :
    Safe segment.IndexBelow (copyRound segment.fileEnd) state := by
  induction count generalizing state with
  | zero =>
      rw [fileAddCur_zero small] at done
      have ends : ¬state.fileAddCur < segment.fileEnd := by omega
      exact .done (fun more => absurd more ends) (if_neg ends)
  | succ count induction =>
      by_cases more : state.fileAddCur < segment.fileEnd
      · refine .again (fun _ => by omega) (if_pos more) ?_
        apply induction (Nat.mod_lt _ (by decide))
        · simp only
          omega
        · rw [fileAddCur_next]
          exact done
      · exact .done (fun isMore => absurd isMore more) (if_neg more)

theorem enough_of_copies {state : CopyState} (small : state.fileAddCur < space)
    (safe : Safe segment.IndexBelow (copyRound segment.fileEnd) state) :
    ∃ count, segment.fileEnd ≤ fileAddCur state.fileAddCur count ∧
      (count = 0 ∨ state.pageIndex + count ≤ segment.sizeInPages) := by
  revert small
  -- After a round there is one page less to go and one more behind.
  refine safe.induct (motive := fun state => state.fileAddCur < space →
    ∃ count, segment.fileEnd ≤ fileAddCur state.fileAddCur count ∧
      (count = 0 ∨ state.pageIndex + count ≤ segment.sizeInPages)) ?_ ?_
  · intro state _ _ leaves small
    refine ⟨0, ?_, .inl rfl⟩
    rw [fileAddCur_zero small]
    unfold copyRound at leaves
    split at leaves
    · cases leaves
    · omega
  · intro state next below continues induction _
    unfold copyRound at continues
    split at continues
    case isTrue more =>
      cases continues
      have inArray := below more
      rcases induction (Nat.mod_lt _ (by decide)) with ⟨count, done, atMost⟩
      refine ⟨count + 1, ?_, .inr ?_⟩
      · rw [← fileAddCur_next]
        exact done
      · rcases atMost with rfl | atMost
        · omega
        · simp only at atMost
          omega
    case isFalse => cases continues

theorem copies_iff_enough (bounded : segment.Bounded) : segment.Copies ↔ segment.Enough := by
  constructor
  · intro copies
    rcases enough_of_copies bounded.pOffset copies with ⟨count, done, atMost⟩
    refine ⟨count, ?_, done⟩
    simp only at atMost
    omega
  · rintro ⟨count, below, done⟩
    exact copies_of_enough bounded.pOffset count (by simpa using below) done

end Copies

/-! ## The loop over the program headers -/

/-- The program header at this distance from `e_phoff`. -/
def headerAt (file : File) (leftover : Leftover) (addr : Nat) : Phdr :=
  let header := readHeader file leftover
  phdr (fillBuffer (leftover.program (addr / header.ePhentsize))
    (readNodeTarfs file ((header.ePhoff + addr) % space) 32))

/-- `e_phentsize * e_phnum`. -/
def headersEnd (header : Ehdr) : Nat := header.ePhentsize * header.ePhnum % space

/-- One round of the loop over the program headers. -/
def headerRound (header : Ehdr) (addr : Nat) : Option (Unit ⊕ Nat) :=
  if addr < headersEnd header then some (.inr ((addr + header.ePhentsize) % space))
  else some (.inl ())

/-- In a round for a segment to be loaded, the segment is copied. -/
def CopiesAt (file : File) (leftover : Leftover) (addr : Nat) : Prop :=
  addr < headersEnd (readHeader file leftover) →
    (headerAt file leftover addr).Loadable → (headerAt file leftover addr).Copies

/-- `elf_load_executable` ends, and never reads `physicals` behind its end. -/
def LoadsWithin (file : File) (leftover : Leftover) : Prop :=
  validateElf (readHeader file leftover) = true →
    Safe (CopiesAt file leftover) (headerRound (readHeader file leftover)) 0

theorem half_lt (buffer : Nat → UInt8) (offset : Nat) : half buffer offset < 2 ^ 16 := by
  have low := (buffer offset).toNat_lt
  have high := (buffer (offset + 1)).toNat_lt
  unfold half
  omega

section Headers

variable {file : File} {leftover : Leftover}

theorem headersEnd_eq (file : File) (leftover : Leftover) :
    headersEnd (readHeader file leftover) =
        (readHeader file leftover).ePhentsize * (readHeader file leftover).ePhnum ∧
      headersEnd (readHeader file leftover) + (readHeader file leftover).ePhentsize < space := by
  generalize isHeader : readHeader file leftover = header
  have entsize : header.ePhentsize < 2 ^ 16 := by
    rw [← isHeader]
    exact half_lt _ _
  have number : header.ePhnum < 2 ^ 16 := by
    rw [← isHeader]
    exact half_lt _ _
  have product : header.ePhentsize * header.ePhnum ≤ 65535 * 65535 :=
    Nat.mul_le_mul (by omega) (by omega)
  unfold headersEnd space
  rw [Nat.mod_eq_of_lt (by omega)]
  omega

theorem mem_programHeaders {segment : Phdr} :
    segment ∈ programHeaders file leftover ↔
      ∃ index, index * (readHeader file leftover).ePhentsize <
          headersEnd (readHeader file leftover) ∧
        headerAt file leftover (index * (readHeader file leftover).ePhentsize) = segment := by
  have isEnd := (headersEnd_eq file leftover).1
  unfold programHeaders headerAt
  rw [isEnd]
  generalize readHeader file leftover = header
  simp only [List.mem_map, List.mem_range]
  by_cases zero : header.ePhentsize = 0
  · simp [zero]
  · have positive : 0 < header.ePhentsize := Nat.pos_of_ne_zero zero
    simp only [if_neg zero]
    apply exists_congr
    intro index
    rw [Nat.mul_comm header.ePhentsize, Nat.mul_lt_mul_right positive,
      Nat.mul_div_cancel _ positive]

/-- The loop ends for all headers, since 16-bit factors have a 32-bit product. -/
theorem safe_headers
    (copies : ∀ segment ∈ programHeaders file leftover, segment.Loadable → segment.Copies)
    (left : Nat) {index : Nat}
    (rest : index + left = (readHeader file leftover).ePhnum) :
    Safe (CopiesAt file leftover) (headerRound (readHeader file leftover))
      (index * (readHeader file leftover).ePhentsize) := by
  have isEnd := headersEnd_eq file leftover
  have holds : CopiesAt file leftover (index * (readHeader file leftover).ePhentsize) :=
    fun less => copies _ (mem_programHeaders.mpr ⟨index, less, rfl⟩)
  induction left generalizing index with
  | zero =>
      refine .done holds (if_neg ?_)
      rw [isEnd.1, ← rest, Nat.add_zero, Nat.mul_comm]
      exact Nat.lt_irrefl _
  | succ left induction =>
      by_cases more : index * (readHeader file leftover).ePhentsize <
          headersEnd (readHeader file leftover)
      · refine .again holds (if_pos more) ?_
        rw [← Nat.succ_mul, Nat.mod_eq_of_lt (by rw [Nat.succ_mul]; omega)]
        exact induction (by omega) fun less => copies _ (mem_programHeaders.mpr ⟨_, less, rfl⟩)
      · exact .done holds (if_neg more)

theorem copies_of_safe {addr : Nat}
    (safe : Safe (CopiesAt file leftover) (headerRound (readHeader file leftover)) addr)
    (count : Nat)
    (less : addr + count * (readHeader file leftover).ePhentsize <
      headersEnd (readHeader file leftover)) :
    CopiesAt file leftover (addr + count * (readHeader file leftover).ePhentsize) := by
  have isEnd := (headersEnd_eq file leftover).2
  revert count
  refine safe.induct (motive := fun addr => ∀ count,
    addr + count * (readHeader file leftover).ePhentsize <
      headersEnd (readHeader file leftover) →
    CopiesAt file leftover (addr + count * (readHeader file leftover).ePhentsize)) ?_ ?_
  · intro addr _ _ leaves count less
    unfold headerRound at leaves
    split at leaves
    · cases leaves
    · omega
  · intro addr next holds continues induction count less
    unfold headerRound at continues
    split at continues
    case isTrue more =>
      cases continues
      cases count with
      | zero => simpa using holds
      | succ count =>
          rw [Nat.mod_eq_of_lt (by omega)] at induction
          rw [Nat.succ_mul, Nat.add_comm (count * _), ← Nat.add_assoc] at less ⊢
          exact induction count less
    case isFalse => cases continues

theorem loadsWithin_iff_copies : LoadsWithin file leftover ↔
    ∀ segment ∈ segmentsOf file leftover, segment.Loadable → segment.Copies := by
  unfold LoadsWithin segmentsOf
  split
  case isTrue accepted =>
    simp only [accepted, true_imp_iff]
    constructor
    · intro safe segment member
      rcases mem_programHeaders.mp member with ⟨index, less, rfl⟩
      have copies := copies_of_safe safe index (by simpa using less)
      rw [Nat.zero_add] at copies
      exact copies less
    · intro copies
      have safe := safe_headers copies _ (Nat.zero_add _)
      rwa [Nat.zero_mul] at safe
  case isFalse rejected => simp [rejected]

theorem loadsWithin_iff_enough : LoadsWithin file leftover ↔
    ∀ segment ∈ segmentsOf file leftover, segment.Loadable → segment.Enough := by
  rw [loadsWithin_iff_copies]
  apply forall₂_congr
  intro segment member
  rw [copies_iff_enough (bounded_of_mem_segmentsOf member)]

end Headers

theorem isSome_elfLoadExecutable_iff (file : File) (leftover : Leftover) (pdir : Nat)
    (machine : Machine) :
    (elfLoadExecutable file leftover pdir machine).isSome = true ↔ LoadsWithin file leftover := by
  rw [loadsWithin_iff_enough, elfLoadExecutable_eq]
  have bounded : ∀ segment ∈ segmentsOf file leftover, segment.Bounded :=
    fun _ => bounded_of_mem_segmentsOf
  generalize segmentsOf file leftover = segments at bounded
  constructor
  · intro returns
    induction segments generalizing machine with
    | nil => simp
    | cons segment rest induction =>
        rw [List.foldlM_cons] at returns
        rcases Option.isSome_iff_exists.mp returns with ⟨next, isNext⟩
        rcases Option.bind_eq_some_iff.mp isNext with ⟨middle, isMiddle, isRest⟩
        have later := induction middle
          (fun other member => bounded other (List.mem_cons_of_mem _ member))
          (by rw [isRest]; rfl)
        intro other member loadable
        rcases List.mem_cons.mp member with rfl | isLater
        · apply (loadSegment_isSome_iff file pdir machine (bounded _ member) loadable).mp
          rw [isMiddle]
          rfl
        · exact later other isLater loadable
  · exact loadSegments_isSome bounded

/-! ## Which segments are loaded -/

/-- The number of pages that so many bytes take. -/
def pagesOf (bytes : Nat) : Nat := (bytes + 4095) / 4096

/-- Either the end of the segment in the file wraps around, and nothing is copied, or the
file has no more pages of it than the memory and the cursor can pass its end. -/
def Phdr.FitsArray (segment : Phdr) : Prop :=
  space ≤ segment.pOffset + segment.pFilesz ∨
    pagesOf segment.pFilesz ≤ pagesOf segment.pMemsz ∧
      segment.pOffset + pagesOf segment.pFilesz * 4096 < space

theorem sizeInPages_eq {segment : Phdr} (bounded : segment.Bounded) :
    segment.sizeInPages = pagesOf segment.pMemsz := by
  have vaddr := bounded.pVaddr
  have memsz := bounded.pMemsz
  have length : segment.length = segment.pMemsz := by
    unfold Phdr.length space at *
    omega
  unfold Phdr.sizeInPages pagesOf
  rw [length]
  split <;> omega

theorem enough_iff_fitsArray {segment : Phdr} (bounded : segment.Bounded) :
    segment.Enough ↔ segment.FitsArray := by
  have offset := bounded.pOffset
  have filesz := bounded.pFilesz
  have memsz := bounded.pMemsz
  unfold Phdr.Enough Phdr.FitsArray
  rw [sizeInPages_eq bounded]
  unfold fileAddCur Phdr.fileEnd pagesOf space at *
  constructor
  · rintro ⟨count, atMost, done⟩
    omega
  · rintro (wraps | ⟨atMost, passes⟩)
    · exact ⟨0, Nat.zero_le _, by omega⟩
    · exact ⟨_, atMost, by omega⟩

/-- The loader ends within its array exactly for files all of whose segments fit. -/
theorem loadsWithin_iff (file : File) (leftover : Leftover) :
    LoadsWithin file leftover ↔
      (validateElf (readHeader file leftover) = true →
        ∀ segment ∈ programHeaders file leftover, segment.Loadable → segment.FitsArray) := by
  have fits : LoadsWithin file leftover ↔
      ∀ segment ∈ segmentsOf file leftover, segment.Loadable → segment.FitsArray := by
    rw [loadsWithin_iff_enough]
    apply forall₂_congr
    intro segment member
    rw [enough_iff_fitsArray (bounded_of_mem_segmentsOf member)]
  rw [fits]
  unfold segmentsOf
  split
  case isTrue accepted => simp [accepted]
  case isFalse rejected => simp [rejected]

/-- An executable with one segment and no data. -/
def oneSegment (segment : Phdr) : File where
  name := [0x61]
  data := executable [segment] []
  small := by simp [executable, littleEndian]

/-- More bytes in the file than pages in memory, and a cursor that never passes the end. -/
theorem not_loadsWithin :
    validateElf (readHeader (oneSegment ⟨1, 0, 0x10000000, 4097, 1⟩) noLeftover) = true ∧
      ¬LoadsWithin (oneSegment ⟨1, 0, 0x10000000, 4097, 1⟩) noLeftover ∧
      validateElf (readHeader (oneSegment ⟨1, 0xFFFFF800, 0x10000000, 0x7FF, 1⟩)
        noLeftover) = true ∧
      ¬LoadsWithin (oneSegment ⟨1, 0xFFFFF800, 0x10000000, 0x7FF, 1⟩) noLeftover := by
  rw [loadsWithin_iff_enough, loadsWithin_iff_enough]
  decide +kernel

end Dbos.Loader
