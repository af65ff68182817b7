import Mathlib.Data.List.GetD
import Dbos.Kernel.Process.Elf

/-! # The image of an executable

What `elf_load_executable` leaves in the address space, as a function of the file.
Every segment is put in whole pages, from the first byte of the first one on, and
a later segment replaces the pages it shares with an earlier one. -/

namespace Dbos.Loader

open Dbos.Loop Dbos.Paging Phys

/-! ## Bytes of frames -/

def frameByte (words : Nat → Nat) (position : Nat) : UInt8 :=
  byteOf (words (position / 4)) (position % 4)

theorem byteOf_wordOf (bytes : Nat → UInt8) {place : Nat} (bound : place < 4) :
    byteOf (wordOf bytes) place = bytes place := by
  have byte0 := (bytes 0).toNat_lt
  have byte1 := (bytes 1).toNat_lt
  have byte2 := (bytes 2).toNat_lt
  have byte3 := (bytes 3).toNat_lt
  rw [← UInt8.toNat_inj]
  unfold byteOf wordOf
  rw [UInt8.toNat_ofNat']
  interval_cases place <;> omega

theorem frameByte_copyBytes (words : Nat → Nat) (offset : Nat) (bytes : List UInt8)
    (position : Nat) :
    frameByte (copyBytes words offset bytes) position =
      if offset ≤ position ∧ position < offset + bytes.length then bytes.getD (position - offset) 0
      else frameByte words position := by
  unfold frameByte copyBytes
  rw [byteOf_wordOf _ (Nat.mod_lt _ (by decide)), Nat.div_add_mod]

theorem userLoad_eq (memory : Memory) (dir address : Nat) :
    userLoad memory dir address =
      (pageWords memory dir (address / 4096)).map fun words => frameByte words (address % 4096) := by
  unfold userLoad frameByte
  rw [Nat.mod_mod_of_dvd _ (by decide)]

/-! ## The pages of a segment -/

/-- `file_add_cur` after some rounds of the loop that copies the file. -/
def fileAddCur (start index : Nat) : Nat := (start + 0x1000 * index) % space

/-- What the loop copies to the frame with this index, when it begins at `start`. -/
def chunk (file : File) (fileEnd start index : Nat) : List UInt8 :=
  if ∀ earlier ≤ index, fileAddCur start earlier < fileEnd then
    readNodeTarfs file (fileAddCur start index)
      (if fileEnd - fileAddCur start index > 0x1000 then 4096
      else fileEnd - fileAddCur start index)
  else []

namespace Phdr

/-- The number of the first page. -/
def firstPage (segment : Phdr) : Nat := segment.pVaddr / 4096

def Covers (segment : Phdr) (page : Nat) : Prop :=
  segment.firstPage ≤ page ∧ page < segment.firstPage + segment.sizeInPages

instance (segment : Phdr) (page : Nat) : Decidable (segment.Covers page) :=
  inferInstanceAs (Decidable (_ ∧ _))

/-- The loop that copies the file comes to an end before it has used up the frames. -/
def Enough (segment : Phdr) : Prop :=
  ∃ index ≤ segment.sizeInPages, segment.fileEnd ≤ fileAddCur segment.pOffset index

instance (segment : Phdr) : Decidable segment.Enough :=
  inferInstanceAs (Decidable (∃ index ≤ segment.sizeInPages, _))

/-- What is copied to the page with this index. -/
def pageBytes (file : File) (segment : Phdr) (index : Nat) : List UInt8 :=
  chunk file segment.fileEnd segment.pOffset index

/-- The byte that is put at an address of the segment's pages. -/
def byteAt (file : File) (segment : Phdr) (address : Nat) : UInt8 :=
  (segment.pageBytes file (address / 4096 - segment.firstPage)).getD (address % 4096) 0

end Phdr

/-- The address space after a segment has been put in. -/
def place (file : File) (segment : Phdr) (bytes : Nat → Option UInt8) : Nat → Option UInt8 :=
  fun address =>
    if segment.Loadable ∧ segment.Covers (address / 4096) then some (segment.byteAt file address)
    else bytes address

/-- The address space after all segments have been put in. -/
def image (file : File) (segments : List Phdr) (bytes : Nat → Option UInt8) :
    Nat → Option UInt8 :=
  segments.foldl (fun bytes segment => place file segment bytes) bytes

/-! ## Copying the file -/

theorem fileAddCur_zero {start : Nat} (small : start < space) : fileAddCur start 0 = start := by
  unfold fileAddCur
  rw [Nat.mul_zero, Nat.add_zero, Nat.mod_eq_of_lt small]

theorem fileAddCur_next (start index : Nat) :
    fileAddCur ((start + 0x1000) % space) index = fileAddCur start (index + 1) := by
  unfold fileAddCur
  rw [Nat.mod_add_mod]
  congr 1
  omega

theorem chunk_of_le {file : File} {fileEnd start : Nat} (small : start < space)
    (done : fileEnd ≤ start) (index : Nat) : chunk file fileEnd start index = [] := by
  unfold chunk
  rw [if_neg]
  intro copied
  have first := copied 0 (Nat.zero_le _)
  rw [fileAddCur_zero small] at first
  omega

theorem chunk_succ {file : File} {fileEnd start : Nat} (small : start < space)
    (more : start < fileEnd) (index : Nat) :
    chunk file fileEnd start (index + 1) =
      chunk file fileEnd ((start + 0x1000) % space) index := by
  unfold chunk
  simp only [fileAddCur_next]
  refine if_congr ⟨fun copied earlier below => copied (earlier + 1) (by omega),
    fun copied earlier below => ?_⟩ rfl rfl
  cases earlier with
  | zero => rwa [fileAddCur_zero small]
  | succ earlier => exact copied earlier (by omega)

/-- Some pages have been overwritten from their beginning on. -/
structure Copied (machine next : Machine) (held dirs tables : Finset Nat) (pdir first count : Nat)
    (bytesOf : Nat → List UInt8) : Prop where
  mapped : Mapped next held dirs tables
  phys : next.phys = machine.phys
  kernel : KeepsKernel machine.memory next.memory held pdir
  loads : ∀ other ∈ dirs, ∀ address < userEnd, userLoad next.memory other address =
    if other = pdir ∧ first ≤ address / 4096 ∧ address / 4096 < first + count then
      (userLoad machine.memory other address).map fun byte =>
        (bytesOf (address / 4096 - first)).getD (address % 4096) byte
    else userLoad machine.memory other address

section CopyFile

variable {machine : Machine} {held dirs tables : Finset Nat} {pdir first : Nat}

theorem copied_nothing (mapped : Mapped machine held dirs tables) (pdir first count : Nat)
    {bytesOf : Nat → List UInt8} (nothing : ∀ index < count, bytesOf index = []) :
    Copied machine machine held dirs tables pdir first count bytesOf := by
  refine ⟨mapped, rfl, .refl _ _ _, fun other isOther address bound => ?_⟩
  split
  case isTrue inside =>
    rw [nothing _ (by omega)]
    simp
  case isFalse => rfl

theorem writePage_spec (mapped : Mapped machine held dirs tables) (isDir : pdir ∈ dirs)
    (bound : first < userPages) {frame : Nat} (small : frame < frameCount)
    (found : userEntry machine.memory pdir first = some (makeEntry 1 1 frame))
    (bytes : List UInt8) :
    Mapped ⟨Function.update machine.memory frame (copyBytes (machine.memory frame) 0 bytes),
        machine.phys⟩ held dirs tables ∧
      KeepsKernel machine.memory
        (Function.update machine.memory frame (copyBytes (machine.memory frame) 0 bytes)) held
        pdir ∧
      (∀ other ∈ dirs, ∀ page < userPages,
        userEntry (Function.update machine.memory frame
          (copyBytes (machine.memory frame) 0 bytes)) other page =
            userEntry machine.memory other page) ∧
      ∀ other ∈ dirs, ∀ address < userEnd,
        userLoad (Function.update machine.memory frame (copyBytes (machine.memory frame) 0 bytes))
          other address =
            if other = pdir ∧ address / 4096 = first then
              (userLoad machine.memory other address).map fun byte =>
                bytes.getD (address % 4096) byte
            else userLoad machine.memory other address := by
  rcases machine with ⟨memory, phys⟩
  have isFrame := pageAddr_makeEntry 1 1 small
  have unused := mapped.frame_unused isDir bound found
  rw [isFrame] at unused
  have written := mapped.write unused.1 unused.2 (copyBytes (memory frame) 0 bytes)
  refine ⟨written.1, .write unused.1 _ _, written.2, fun other isOther address less => ?_⟩
  have words := writeFrame_spec mapped isDir bound found (readWrite_makeEntry 1 1 frame)
    (copyBytes (memory frame) 0 bytes) isOther (page_lt less)
  rw [isFrame] at words
  rw [userLoad_eq, userLoad_eq, words]
  split
  case isTrue same =>
    rw [same.1, same.2, pageWords_of_userEntry found, isFrame]
    simp only [Option.map_some, frameByte_copyBytes, Nat.zero_le, true_and, Nat.zero_add,
      Nat.sub_zero]
    split
    case isTrue inside => rw [List.getD_eq_getElem _ _ inside, List.getD_eq_getElem _ _ inside]
    case isFalse outside => rw [List.getD_eq_default _ _ (by omega)]
  case isFalse => rfl

/-- The first page has been overwritten, and then the others. -/
theorem Copied.cons {written next : Machine} {count : Nat} {bytesOf restOf : Nat → List UInt8}
    (copied : Copied written next held dirs tables pdir (first + 1) count restOf)
    (isRest : ∀ index, bytesOf (index + 1) = restOf index)
    (phys : written.phys = machine.phys)
    (kernel : KeepsKernel machine.memory written.memory held pdir)
    (loads : ∀ other ∈ dirs, ∀ address < userEnd, userLoad written.memory other address =
      if other = pdir ∧ address / 4096 = first then
        (userLoad machine.memory other address).map fun byte =>
          (bytesOf 0).getD (address % 4096) byte
      else userLoad machine.memory other address) :
    Copied machine next held dirs tables pdir first (count + 1) bytesOf := by
  refine ⟨copied.mapped, copied.phys.trans phys, copied.kernel.trans kernel,
    fun other isOther address less => ?_⟩
  rw [copied.loads other isOther address less, loads other isOther address less]
  by_cases isFirst : other = pdir ∧ address / 4096 = first
  · have notRest : ¬(other = pdir ∧ first + 1 ≤ address / 4096 ∧
        address / 4096 < first + 1 + count) := by omega
    have inAll : other = pdir ∧ first ≤ address / 4096 ∧ address / 4096 < first + (count + 1) := by
      omega
    simp only [if_neg notRest, if_pos isFirst, if_pos inAll]
    rw [isFirst.2, Nat.sub_self]
  · simp only [if_neg isFirst]
    by_cases inRest : other = pdir ∧ first + 1 ≤ address / 4096 ∧ address / 4096 < first + 1 + count
    · have inAll : other = pdir ∧ first ≤ address / 4096 ∧
          address / 4096 < first + (count + 1) := by omega
      simp only [if_pos inRest, if_pos inAll]
      rw [show address / 4096 - first = address / 4096 - (first + 1) + 1 by omega, isRest]
    · have notAll : ¬(other = pdir ∧ first ≤ address / 4096 ∧
          address / 4096 < first + (count + 1)) := by
        intro inAll
        have notFirst : address / 4096 ≠ first := fun same => isFirst ⟨inAll.1, same⟩
        exact inRest ⟨inAll.1, by omega, by omega⟩
      rw [if_neg inRest, if_neg notAll]

theorem copyFile_spec (file : File) (fileEnd : Nat) {physicals : List Nat}
    (mapped : Mapped machine held dirs tables) (isDir : pdir ∈ dirs)
    (frames : ∀ index frame, physicals[index]? = some frame → frame < frameCount ∧
      userEntry machine.memory pdir (first + index) = some (makeEntry 1 1 frame))
    (bound : ∀ index < physicals.length, first + index < userPages) {start : Nat}
    (small : start < space)
    (enough : ∃ index ≤ physicals.length, fileEnd ≤ fileAddCur start index) :
    ∃ next, copyFile file fileEnd physicals start machine = some next ∧
      Copied machine next held dirs tables pdir first physicals.length
        (chunk file fileEnd start) := by
  induction physicals generalizing machine start first with
  | nil =>
      rcases enough with ⟨index, isZero, done⟩
      rw [Nat.le_zero.mp isZero, fileAddCur_zero small] at done
      unfold copyFile
      rw [if_neg (by omega)]
      exact ⟨machine, rfl, copied_nothing mapped _ _ _ fun _ _ => chunk_of_le small done _⟩
  | cons frame rest induction =>
      unfold copyFile
      by_cases more : start < fileEnd
      · rw [if_pos more]
        simp only
        have isFrame := frames 0 frame rfl
        rw [Nat.add_zero] at isFrame
        have isChunk : chunk file fileEnd start 0 = readNodeTarfs file start
            (if fileEnd - start > 0x1000 then 4096 else fileEnd - start) := by
          unfold chunk
          rw [fileAddCur_zero small, if_pos]
          intro earlier isZero
          rw [Nat.le_zero.mp isZero, fileAddCur_zero small]
          exact more
        rw [← isChunk]
        rw [List.length_cons] at bound enough ⊢
        have firstBound : first < userPages := bound 0 (Nat.succ_pos _)
        rcases writePage_spec mapped isDir firstBound isFrame.1 isFrame.2
          (chunk file fileEnd start 0) with ⟨nextMapped, nextKernel, nextEntries, nextLoads⟩
        have restEnough : ∃ index ≤ rest.length,
            fileEnd ≤ fileAddCur ((start + 0x1000) % space) index := by
          rcases enough with ⟨index, below, done⟩
          cases index with
          | zero =>
              rw [fileAddCur_zero small] at done
              omega
          | succ index => exact ⟨index, by omega, by rwa [fileAddCur_next]⟩
        have restBound : ∀ index < rest.length, first + 1 + index < userPages := by
          intro index less
          have below := bound (index + 1) (by omega)
          omega
        have restFrames : ∀ index other, rest[index]? = some other → other < frameCount ∧
            userEntry (Function.update machine.memory frame
              (copyBytes (machine.memory frame) 0 (chunk file fileEnd start 0))) pdir
                (first + 1 + index) = some (makeEntry 1 1 other) := by
          intro index other isOther
          have entry := frames (index + 1) other isOther
          rw [show first + (index + 1) = first + 1 + index by omega] at entry
          rw [nextEntries pdir isDir _ (restBound index (List.getElem?_eq_some_iff.mp isOther).1)]
          exact entry
        rcases induction nextMapped restFrames restBound (Nat.mod_lt _ (by decide)) restEnough with
          ⟨next, isNext, copied⟩
        exact ⟨next, isNext, copied.cons (chunk_succ small more) rfl nextKernel nextLoads⟩
      · rw [if_neg more]
        exact ⟨machine, rfl, copied_nothing mapped _ _ _ fun _ _ =>
          chunk_of_le small (by omega) _⟩

end CopyFile

theorem copyFile_isSome_iff (file : File) (fileEnd : Nat) (physicals : List Nat) {start : Nat}
    (small : start < space) (machine : Machine) :
    (copyFile file fileEnd physicals start machine).isSome = true ↔
      ∃ index ≤ physicals.length, fileEnd ≤ fileAddCur start index := by
  induction physicals generalizing machine start with
  | nil =>
      unfold copyFile
      constructor
      · intro returns
        split at returns
        · cases returns
        · exact ⟨0, Nat.le_refl _, by rw [fileAddCur_zero small]; omega⟩
      · rintro ⟨index, isZero, done⟩
        rw [Nat.le_zero.mp isZero, fileAddCur_zero small] at done
        rw [if_neg (by omega)]
        rfl
  | cons frame rest induction =>
      unfold copyFile
      by_cases more : start < fileEnd
      · rw [if_pos more]
        simp only
        rw [induction (Nat.mod_lt _ (by decide)), List.length_cons]
        constructor
        · rintro ⟨index, below, done⟩
          rw [fileAddCur_next] at done
          exact ⟨index + 1, by omega, done⟩
        · rintro ⟨index, below, done⟩
          cases index with
          | zero =>
              rw [fileAddCur_zero small] at done
              omega
          | succ index => exact ⟨index, by omega, by rwa [fileAddCur_next]⟩
      · rw [if_neg more]
        refine ⟨fun _ => ⟨0, Nat.zero_le _, ?_⟩, fun _ => rfl⟩
        rw [fileAddCur_zero small]
        omega

/-! ## Loading a segment -/

namespace Phdr

/-- The fields are 32 bits wide. -/
structure Bounded (segment : Phdr) : Prop where
  pOffset : segment.pOffset < space
  pVaddr : segment.pVaddr < space
  pFilesz : segment.pFilesz < space
  pMemsz : segment.pMemsz < space

/-- All pages are below `0xC0000000`. -/
def InUserHalf (segment : Phdr) : Prop :=
  segment.sizeInPages = 0 ∨ segment.firstPage + segment.sizeInPages ≤ userPages

instance (segment : Phdr) : Decidable segment.InUserHalf := inferInstanceAs (Decidable (_ ∨ _))

theorem InUserHalf.lt {segment : Phdr} (inUserHalf : segment.InUserHalf) {index : Nat}
    (bound : index < segment.sizeInPages) : segment.firstPage + index < userPages := by
  have below : segment.firstPage + segment.sizeInPages ≤ userPages :=
    inUserHalf.resolve_left (by omega)
  omega

theorem page_eq {segment : Phdr} (inUserHalf : segment.InUserHalf) {index : Nat}
    (bound : index < segment.sizeInPages) : segment.page index = segment.firstPage + index := by
  have below := inUserHalf.lt bound
  unfold page firstPage at *
  unfold userPages at below
  rw [Nat.mod_eq_of_lt]
  · omega
  · unfold space
    omega

end Phdr

theorem wordOf_lt (bytes : Nat → UInt8) : wordOf bytes < space := by
  have byte0 := (bytes 0).toNat_lt
  have byte1 := (bytes 1).toNat_lt
  have byte2 := (bytes 2).toNat_lt
  have byte3 := (bytes 3).toNat_lt
  unfold wordOf space
  omega

theorem phdr_bounded (buffer : Nat → UInt8) : (phdr buffer).Bounded := by
  unfold phdr word
  constructor
  · exact wordOf_lt fun place => buffer (4 + place)
  · exact wordOf_lt fun place => buffer (8 + place)
  · exact wordOf_lt fun place => buffer (16 + place)
  · exact wordOf_lt fun place => buffer (20 + place)

theorem bounded_of_mem {file : File} {leftover : Leftover} {segment : Phdr}
    (member : segment ∈ programHeaders file leftover) : segment.Bounded := by
  rcases List.mem_map.mp member with ⟨index, -, isPhdr⟩
  rw [← isPhdr]
  exact phdr_bounded _

section LoadSegment

variable {machine next : Machine} {held dirs tables : Finset Nat} {pdir : Nat} {file : File}
  {segment : Phdr}

/-- The loop over the pages is named, since it must not be computed. -/
theorem loadSegment_eq (file : File) (pdir : Nat) (machine : Machine)
    (loadable : segment.Loadable) :
    ∃ state, state = loop segment.sizeInPages (mapNextPage pdir segment.page zeroFill)
        (machine, []) ∧
      loadSegment file pdir machine segment =
        copyFile file segment.fileEnd state.2 segment.pOffset state.1 := by
  unfold loadSegment
  rw [if_pos loadable]
  exact ⟨_, rfl, rfl⟩

theorem length_mapNextPage {pageOf : Nat → Nat} {fill : (Nat → Nat) → Nat → Nat} (count : Nat) :
    (loop count (mapNextPage pdir pageOf fill) (machine, [])).2.length = count := by
  refine loop_invariant (motive := fun index (state : Machine × List Nat) =>
    state.2.length = index) rfl ?_
  intro index _ state length
  rw [mapNextPage_eq, List.length_append, length]
  rfl

theorem loadSegment_isSome_iff (file : File) (pdir : Nat) (machine : Machine)
    (bounded : segment.Bounded) (loadable : segment.Loadable) :
    (loadSegment file pdir machine segment).isSome = true ↔ segment.Enough := by
  rcases loadSegment_eq file pdir machine loadable with ⟨state, isState, isLoad⟩
  rw [isLoad, copyFile_isSome_iff _ _ _ bounded.pOffset]
  rw [show state.2.length = segment.sizeInPages by rw [isState, length_mapNextPage]]
  rfl

theorem phys_of_copyFile {fileEnd : Nat} {physicals : List Nat} {start : Nat}
    (copied : copyFile file fileEnd physicals start machine = some next) :
    next.phys = machine.phys := by
  induction physicals generalizing machine start with
  | nil =>
      unfold copyFile at copied
      split at copied
      · cases copied
      · rw [Option.some.injEq] at copied
        rw [copied]
  | cons frame rest induction =>
      unfold copyFile at copied
      split at copied
      · have kept := induction copied
        exact kept
      · rw [Option.some.injEq] at copied
        rw [copied]

theorem frameByte_zeroFill (old : Nat → Nat) (position : Nat) :
    frameByte (zeroFill old) position = 0 := by
  unfold frameByte zeroFill byteOf
  rw [Nat.zero_div]
  rfl

/-- The pages of a segment are mapped, and then the file is copied to their frames. -/
theorem loadSegment_copied (mapped : Mapped machine held dirs tables) (isDir : pdir ∈ dirs)
    (bounded : segment.Bounded) (loadable : segment.Loadable) (user : segment.InUserHalf)
    (loaded : loadSegment file pdir machine segment = some next) (ok : next.phys.Ok) :
    ∃ state, state = loop segment.sizeInPages (mapNextPage pdir segment.page zeroFill)
        (machine, []) ∧
      state.1.phys.Ok ∧ copyFile file segment.fileEnd state.2 segment.pOffset state.1 = some next ∧
      MapsPages machine state held dirs tables pdir segment.firstPage segment.sizeInPages
        zeroFill ∧
      ∀ more, Mapped state.1 held dirs more →
        Copied state.1 next held dirs more pdir segment.firstPage segment.sizeInPages
          (segment.pageBytes file) := by
  have enough := (loadSegment_isSome_iff file pdir machine bounded loadable).mp
    (Option.isSome_iff_exists.mpr ⟨next, loaded⟩)
  rcases loadSegment_eq file pdir machine loadable with ⟨state, isState, isLoad⟩
  rw [isLoad] at loaded
  have length : state.2.length = segment.sizeInPages := by
    rw [isState, length_mapNextPage]
  have stateOk : state.1.phys.Ok := by
    rw [← phys_of_copyFile loaded]
    exact ok
  have maps : MapsPages machine state held dirs tables pdir segment.firstPage
      segment.sizeInPages zeroFill := by
    rw [isState] at stateOk ⊢
    exact mapsPages_loop mapped isDir (fun index less => Phdr.page_eq user less)
      (fun index less => user.lt less) stateOk
  have frames : ∀ index frame, state.2[index]? = some frame → frame < frameCount ∧
      userEntry state.1.memory pdir (segment.firstPage + index) =
        some (makeEntry 1 1 frame) := by
    intro index frame isFrame
    have less := (List.getElem?_eq_some_iff.mp isFrame).1
    rcases maps.frames index (length ▸ less) with ⟨other, isOther, small, entry⟩
    rw [isFrame, Option.some.injEq] at isOther
    rw [isOther]
    exact ⟨small, entry⟩
  have bound : ∀ index < state.2.length, segment.firstPage + index < userPages :=
    fun index less => user.lt (length ▸ less)
  refine ⟨state, isState, stateOk, loaded, maps, fun more moreMapped => ?_⟩
  rcases copyFile_spec file segment.fileEnd moreMapped isDir frames bound bounded.pOffset
    (length ▸ enough) with ⟨last, isLast, copied⟩
  rw [isLast, Option.some.injEq] at loaded
  subst loaded
  rw [length] at copied
  exact copied

theorem loadSegment_spec (mapped : Mapped machine held dirs tables) (isDir : pdir ∈ dirs)
    (bounded : segment.Bounded) (inUserHalf : segment.Loadable → segment.InUserHalf)
    (loaded : loadSegment file pdir machine segment = some next) (ok : next.phys.Ok) :
    Alters machine next held dirs tables pdir
      (place file segment (userLoad machine.memory pdir)) := by
  by_cases loadable : segment.Loadable
  · have user := inUserHalf loadable
    rcases loadSegment_copied mapped isDir bounded loadable user loaded ok with
      ⟨state, -, -, -, maps, isCopied⟩
    rcases maps.mapped with ⟨more, moreMapped, fresh⟩
    have copied := isCopied more moreMapped
    refine ⟨⟨more, copied.mapped, fresh⟩, ?_, copied.kernel.trans maps.kernel, ?_, ?_⟩
    · rw [copied.phys]
      exact maps.grows
    · intro address below
      rw [copied.loads pdir isDir address below]
      unfold place
      by_cases covers : segment.Covers (address / 4096)
      · rw [if_pos ⟨rfl, covers⟩, if_pos ⟨loadable, covers⟩]
        rcases covers with ⟨above, less⟩
        rcases maps.inside (address / 4096 - segment.firstPage) (by omega) with ⟨old, -, words⟩
        rw [Nat.add_sub_cancel' above] at words
        rw [userLoad_eq, words]
        simp only [Option.map_some]
        unfold Phdr.byteAt Phdr.pageBytes
        rw [frameByte_zeroFill]
      · rw [if_neg fun both => covers both.2, if_neg fun both => covers both.2, userLoad_eq,
          userLoad_eq, (maps.outside pdir isDir _ (page_lt below) fun both => covers both.2).2]
    · intro other isOther different address below
      rw [copied.loads other isOther address below, if_neg fun both => different both.1,
        userLoad_eq, userLoad_eq,
        (maps.outside other isOther _ (page_lt below) fun both => different both.1).2]
  · unfold loadSegment at loaded
    rw [if_neg loadable, Option.some.injEq] at loaded
    subst loaded
    refine (Alters.refl mapped pdir).congr fun address _ => ?_
    unfold place
    rw [if_neg fun both => loadable both.1]

theorem ok_of_loadSegment (loaded : loadSegment file pdir machine segment = some next)
    (ok : next.phys.Ok) : machine.phys.Ok := by
  by_cases loadable : segment.Loadable
  · rcases loadSegment_eq file pdir machine loadable with ⟨state, isState, isLoad⟩
    rw [isLoad] at loaded
    have stateOk : state.1.phys.Ok := by
      rw [← phys_of_copyFile loaded]
      exact ok
    rw [isState] at stateOk
    exact guard_of_loop (fun state : Machine × List Nat => state.1.phys.Ok)
      (fun _ _ => ok_of_mapNextPage) stateOk
  · unfold loadSegment at loaded
    rw [if_neg loadable, Option.some.injEq] at loaded
    rw [loaded]
    exact ok

end LoadSegment

/-! ## Loading all segments -/

theorem place_congr {file : File} {segment : Phdr} {bytes other : Nat → Option UInt8}
    {address : Nat} (same : bytes address = other address) :
    place file segment bytes address = place file segment other address := by
  unfold place
  rw [same]

theorem image_congr {file : File} {segments : List Phdr} {bytes other : Nat → Option UInt8}
    {address : Nat} (same : bytes address = other address) :
    image file segments bytes address = image file segments other address := by
  induction segments generalizing bytes other with
  | nil => exact same
  | cons segment rest induction => exact induction (place_congr same)

section LoadSegments

variable {machine next : Machine} {held dirs tables : Finset Nat} {pdir : Nat} {file : File}
  {segments : List Phdr}

theorem ok_of_loadSegments (loaded : segments.foldlM (loadSegment file pdir) machine = some next)
    (ok : next.phys.Ok) : machine.phys.Ok := by
  induction segments generalizing machine with
  | nil =>
      rw [List.foldlM_nil] at loaded
      rw [Option.some.inj loaded]
      exact ok
  | cons segment rest induction =>
      rw [List.foldlM_cons] at loaded
      rcases Option.bind_eq_some_iff.mp loaded with ⟨middle, isMiddle, isRest⟩
      exact ok_of_loadSegment isMiddle (induction isRest)

theorem loadSegments_spec (mapped : Mapped machine held dirs tables) (isDir : pdir ∈ dirs)
    (bounded : ∀ segment ∈ segments, segment.Bounded)
    (inUserHalf : ∀ segment ∈ segments, segment.Loadable → segment.InUserHalf)
    (loaded : segments.foldlM (loadSegment file pdir) machine = some next) (ok : next.phys.Ok) :
    Alters machine next held dirs tables pdir
      (image file segments (userLoad machine.memory pdir)) := by
  induction segments generalizing machine tables with
  | nil =>
      rw [List.foldlM_nil] at loaded
      rw [← Option.some.inj loaded]
      exact .refl mapped pdir
  | cons segment rest induction =>
      rw [List.foldlM_cons] at loaded
      rcases Option.bind_eq_some_iff.mp loaded with ⟨middle, isMiddle, isRest⟩
      have first := loadSegment_spec mapped isDir (bounded _ List.mem_cons_self)
        (inUserHalf _ List.mem_cons_self) isMiddle (ok_of_loadSegments isRest ok)
      refine first.trans fun some middleMapped => ?_
      refine (induction middleMapped (fun other member => bounded _ (List.mem_cons_of_mem _ member))
        (fun other member => inUserHalf _ (List.mem_cons_of_mem _ member)) isRest).congr ?_
      intro address bound
      exact image_congr (first.own address bound).symm

theorem loadSegments_isSome (bounded : ∀ segment ∈ segments, segment.Bounded)
    (enough : ∀ segment ∈ segments, segment.Loadable → segment.Enough) :
    (segments.foldlM (loadSegment file pdir) machine).isSome = true := by
  induction segments generalizing machine with
  | nil => rfl
  | cons segment rest induction =>
      have first : (loadSegment file pdir machine segment).isSome = true := by
        by_cases loadable : segment.Loadable
        · exact (loadSegment_isSome_iff file pdir machine (bounded _ List.mem_cons_self)
            loadable).mpr (enough _ List.mem_cons_self loadable)
        · unfold loadSegment
          rw [if_neg loadable]
          rfl
      rcases Option.isSome_iff_exists.mp first with ⟨middle, isMiddle⟩
      rw [List.foldlM_cons, isMiddle]
      exact induction (fun other member => bounded _ (List.mem_cons_of_mem _ member))
        fun other member => enough _ (List.mem_cons_of_mem _ member)

end LoadSegments

/-- The program headers that `elf_load_executable` comes to. -/
def segmentsOf (file : File) (leftover : Leftover) : List Phdr :=
  if validateElf (readHeader file leftover) then programHeaders file leftover else []

theorem elfLoadExecutable_eq (file : File) (leftover : Leftover) (pdir : Nat) (machine : Machine) :
    elfLoadExecutable file leftover pdir machine =
      (segmentsOf file leftover).foldlM (loadSegment file pdir) machine := by
  unfold elfLoadExecutable segmentsOf
  split <;> rfl

theorem bounded_of_mem_segmentsOf {file : File} {leftover : Leftover} {segment : Phdr}
    (member : segment ∈ segmentsOf file leftover) : segment.Bounded := by
  unfold segmentsOf at member
  split at member
  · exact bounded_of_mem member
  · cases member

theorem ok_of_elfLoadExecutable {file : File} {leftover : Leftover} {pdir : Nat}
    {machine next : Machine} (loaded : elfLoadExecutable file leftover pdir machine = some next)
    (ok : next.phys.Ok) : machine.phys.Ok := by
  rw [elfLoadExecutable_eq] at loaded
  exact ok_of_loadSegments loaded ok

theorem elfLoadExecutable_spec {file : File} {leftover : Leftover} {pdir : Nat}
    {machine next : Machine} {held dirs tables : Finset Nat}
    (mapped : Mapped machine held dirs tables) (isDir : pdir ∈ dirs)
    (inUserHalf : ∀ segment ∈ segmentsOf file leftover, segment.Loadable → segment.InUserHalf)
    (loaded : elfLoadExecutable file leftover pdir machine = some next) (ok : next.phys.Ok) :
    Alters machine next held dirs tables pdir
      (image file (segmentsOf file leftover) (userLoad machine.memory pdir)) := by
  rw [elfLoadExecutable_eq] at loaded
  exact loadSegments_spec mapped isDir (fun _ => bounded_of_mem_segmentsOf) inUserHalf loaded ok

end Dbos.Loader
