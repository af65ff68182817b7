import Mathlib.Data.List.Count
import Dbos.Kernel.Util.Strings
import Dbos.Kernel.Vfs.Path
import Dbos.Libraries.Bootstrap

/-! # Cutting a path in memory

`parse_path` copies a path into a buffer with a `NUL` for every slash. Its callers read the
strings behind the first byte of the buffer. What is left of the path begins where the pointer
has got to, less one, which is the slash in front of the segment. -/

namespace Dbos.Path

open Dbos.ByteMemory Dbos.Bootstrap Dbos.Strings Dbos.Pieces

/-! ## The functions -/

/-- The loop of `parse_path` up to the address `last`. -/
def parseLoop (last : Nat) :
    (fuel path pathIterator segments : Nat) → Memory → Option (Nat × Memory)
  | 0, _, _, _, _ => none
  | fuel + 1, path, pathIterator, segments, memory =>
      if path < last then
        if load memory path = slash then
          parseLoop last fuel (path + 1) (pathIterator + 1) (segments + 1)
            (store memory pathIterator 0)
        else
          parseLoop last fuel (path + 1) (pathIterator + 1) segments
            (store memory pathIterator (load memory path))
      else some (segments, memory)

def parsePath (memory : Memory) (path pathLen pathIterator : Nat) : Option (Nat × Memory) :=
  parseLoop ((path + pathLen) % space) space path pathIterator 0 memory

def bytesFrom (memory : Memory) (address length : Nat) : Str :=
  (List.range length).map fun index => load memory (address + index)

/-- The strings that `vfs_find_node` and `mount_in_vfs` come to, with their addresses:
`path_iterator += (strlen(path_iterator) + 1)`. -/
def readSegments (memory : Memory) : (segments pathIterator : Nat) → Option (List (Nat × Str))
  | 0, _ => some []
  | segments + 1, pathIterator =>
      (strlen memory pathIterator).bind fun length =>
        (readSegments memory segments (pathIterator + (length + 1))).map fun later =>
          (pathIterator, bytesFrom memory pathIterator length) :: later

/-! ## What is cut -/

/-- The segments of an absolute path: what is split off in front of the first slash is left
out. -/
def segmentsOf (path : Str) : List Str := (path.splitOn slash).tail

/-- The strings are the segments of the path. -/
structure ReadsSegments (buffer : Nat) (path : Str) (strings : List (Nat × Str)) : Prop where
  segments : strings.map Prod.snd = segmentsOf path
  /-- Every string lies in the buffer, with its terminator. -/
  inside : ∀ string ∈ strings,
    buffer < string.1 ∧ string.1 + string.2.length < buffer + (path.length + 1)
  /-- Every segment has the same place in the path as its string has in the buffer. -/
  offsets : ∀ index (below : index < strings.length),
    path.drop (strings[index].1 - buffer) =
      strings[index].2 ++ joined slash ((segmentsOf path).drop (index + 1))
  /-- What `vfs_find_node` leaves to the file system begins with the slash of the segment. -/
  suffixes : ∀ index (below : index < strings.length),
    path.drop (strings[index].1 - (buffer + 1)) = joined slash ((segmentsOf path).drop index)

def cut (byte : UInt8) : UInt8 := if byte = slash then 0 else byte

variable {memory : Memory} {path buffer : Nat} {text : Str}

/-! ### The loop -/

/-- The bytes are in memory, from the address on. -/
def BytesAt (memory : Memory) (address : Nat) (bytes : Str) : Prop :=
  ∀ index (below : index < bytes.length), load memory (address + index) = bytes[index]

theorem BytesAt.drop {bytes : Str} {address : Nat} (isBytes : BytesAt memory address bytes)
    (count : Nat) : BytesAt memory (address + count) (bytes.drop count) := by
  intro index below
  rw [List.length_drop] at below
  rw [List.getElem_drop, Nat.add_assoc]
  exact isBytes (count + index) (by omega)

theorem parseLoop_eq {pathIterator segments fuel : Nat} (isPath : BytesAt memory path text)
    (pathFits : path + text.length < space) (bufferFits : pathIterator + text.length ≤ space)
    (apart : pathIterator + text.length ≤ path ∨ path + text.length ≤ pathIterator)
    (enough : text.length < fuel) :
    parseLoop (path + text.length) fuel path pathIterator segments memory =
      some (segments + text.count slash, storeBytes memory pathIterator (text.map cut)) := by
  induction text generalizing path pathIterator segments fuel memory with
  | nil =>
      cases fuel with
      | zero => cases enough
      | succ fuel =>
          rw [parseLoop, if_neg (by simp)]
          rfl
  | cons byte text induction =>
      rw [List.length_cons] at pathFits bufferFits apart enough
      have isByte : load memory path = byte := isPath 0 (Nat.zero_lt_succ _)
      have rest (value : UInt8) : BytesAt (store memory pathIterator value) (path + 1) text := by
        intro index below
        have isNext := isPath (index + 1) (Nat.succ_lt_succ below)
        rw [load_store_of_ne (by omega) (by omega) (by omega), Nat.add_assoc, Nat.add_comm 1,
          isNext, List.getElem_cons_succ]
      have last : path + (byte :: text).length = path + 1 + text.length := by
        rw [List.length_cons]
        omega
      cases fuel with
      | zero => cases enough
      | succ fuel =>
          rw [parseLoop, if_pos (by rw [List.length_cons]; omega), isByte, last]
          by_cases isSlash : byte = slash
          · rw [if_pos isSlash, induction (rest 0) (by omega) (by omega) (by omega) (by omega),
              isSlash, List.count_cons_self, List.map_cons, cut, if_pos rfl, storeBytes,
              Nat.add_assoc, Nat.add_comm 1]
          · rw [if_neg isSlash, induction (rest byte) (by omega) (by omega) (by omega) (by omega),
              List.count_cons_of_ne isSlash, List.map_cons, cut, if_neg isSlash, storeBytes]

theorem parsePath_eq (isPath : BytesAt memory path text) (pathFits : path + text.length < space)
    (bufferFits : buffer + text.length ≤ space)
    (apart : buffer + text.length ≤ path ∨ path + text.length ≤ buffer) :
    parsePath memory path text.length buffer =
      some (text.count slash, storeBytes memory buffer (text.map cut)) := by
  unfold parsePath
  rw [Nat.mod_eq_of_lt pathFits, parseLoop_eq isPath pathFits bufferFits apart (by omega),
    Nat.zero_add]

/-! ### The walk -/

theorem BytesAt.bytesFrom {address : Nat} {bytes : Str} (isBytes : BytesAt memory address bytes) :
    bytesFrom memory address bytes.length = bytes := by
  unfold Path.bytesFrom
  apply List.ext_getElem
  · rw [List.length_map, List.length_range]
  · intro index _ below
    rw [List.getElem_map, List.getElem_range]
    exact isBytes index below

theorem readSegments_eq {address : Nat} {pieces : List Str}
    (isMarked : BytesAt memory address (marked 0 pieces)) (clean : ∀ piece ∈ pieces, 0 ∉ piece)
    (short : (marked 0 pieces).length ≤ space) :
    readSegments memory pieces.length address = some (placed address pieces) := by
  induction pieces generalizing address with
  | nil => rfl
  | cons piece pieces induction =>
      have split : marked 0 (piece :: pieces) = piece ++ 0 :: marked 0 pieces := by
        simp [marked]
      have length := congrArg List.length split
      rw [List.length_append, List.length_cons] at length
      have isPiece : StringAt memory address piece := by
        refine ⟨fun index below => ?_, ?_⟩
        · rw [isMarked index (by omega)]
          simp only [split]
          exact List.getElem_append_left below
        · rw [isMarked piece.length (by omega)]
          simp only [split]
          rw [List.getElem_append_right (Nat.le_refl _)]
          simp
      have isLength : strlen memory address = some piece.length :=
        strlenFrom_eq (clean piece List.mem_cons_self) isPiece (by omega)
      have isRead : bytesFrom memory address piece.length = piece :=
        BytesAt.bytesFrom isPiece.bytes
      have later := isMarked.drop (piece.length + 1)
      rw [split, List.drop_length_add_append, List.drop_succ_cons, List.drop_zero] at later
      rw [List.length_cons, readSegments, isLength, Option.bind_some, isRead,
        induction later (fun other member => clean other (List.mem_cons_of_mem _ member)) (by omega)]
      rfl

/-! ## A path and its buffer -/

/-- The buffer of a path: `kern_malloc` has cleared it. -/
structure Buffered (memory : Memory) (path buffer : Nat) (text : Str) : Prop where
  absolute : text.head? = some slash
  clean : 0 ∉ text
  isPath : StringAt memory path text
  pathFits : path + text.length < space
  bufferFits : buffer + (text.length + 1) ≤ space
  cleared : ∀ index < text.length + 1, load memory (buffer + index) = 0

theorem Buffered.apart (buffered : Buffered memory path buffer text) :
    buffer + (text.length + 1) ≤ path ∨ path + text.length ≤ buffer := by
  by_contra meets
  rw [not_or, Nat.not_le, Nat.not_le] at meets
  rcases Nat.le_total path buffer with before | behind
  · have nonzero := buffered.isPath.load_ne_zero buffered.clean
      (show buffer - path < text.length by omega)
    rw [Nat.add_sub_cancel' before] at nonzero
    exact nonzero (buffered.cleared 0 (Nat.zero_lt_succ _))
  · have isZero := buffered.cleared (path - buffer) (by omega)
    rw [Nat.add_sub_cancel' behind] at isZero
    have positive : 0 < text.length := by
      have absolute := buffered.absolute
      cases text with
      | nil => cases absolute
      | cons byte text => exact Nat.zero_lt_succ _
    exact buffered.isPath.load_ne_zero buffered.clean positive isZero

theorem Buffered.length_lt (buffered : Buffered memory path buffer text) :
    text.length < 2 ^ 31 := by
  have pathFits := buffered.pathFits
  have bufferFits := buffered.bufferFits
  have apart := buffered.apart
  unfold space at pathFits bufferFits
  omega

theorem Buffered.parsed (buffered : Buffered memory path buffer text) :
    parsePath memory path text.length buffer =
      some (text.count slash, storeBytes memory buffer (text.map cut)) := by
  have bufferFits := buffered.bufferFits
  have apart := buffered.apart
  exact parsePath_eq buffered.isPath.bytes buffered.pathFits (by omega) (by omega)

theorem Buffered.bytesAt (buffered : Buffered memory path buffer text) :
    BytesAt (storeBytes memory buffer (text.map cut)) buffer (text.map cut ++ [0]) := by
  have bufferFits := buffered.bufferFits
  intro index below
  rw [List.length_append, List.length_map, List.length_singleton] at below
  by_cases inside : index < text.length
  · rw [load_storeBytes (by rw [List.length_map]; omega) (by rw [List.length_map]; exact inside),
      List.getElem_append_left (by rw [List.length_map]; exact inside)]
  · obtain rfl : index = text.length := by omega
    have kept : SameOn (buffer + text.length) (buffer + text.length + 1)
        (storeBytes memory buffer (text.map cut)) memory :=
      sameOn_storeBytes (by rw [List.length_map]; omega) (by omega)
        (.inr (by rw [List.length_map]))
    rw [kept _ (Nat.le_refl _) (Nat.lt_succ_self _), buffered.cleared _ below,
      List.getElem_append_right (by rw [List.length_map])]
    simp

/-- The strings behind the first byte of the buffer are the segments of the path, each at the
place that it has in the path. -/
theorem parsePath_cuts (buffered : Buffered memory path buffer text) :
    ∃ after strings, parsePath memory path text.length buffer = some (text.count slash, after) ∧
      readSegments after (text.count slash) (buffer + 1) = some strings ∧
      ReadsSegments buffer text strings := by
  have parsed := buffered.parsed
  have isBuffer := buffered.bytesAt.drop 1
  have length := buffered.length_lt
  have clean := buffered.clean
  obtain ⟨rest, rfl⟩ := List.head?_eq_some_iff.mp buffered.absolute
  have isText : slash :: rest = joined slash (piecesOf slash rest) := separator_cons_eq slash rest
  have isSegments : segmentsOf (slash :: rest) = piecesOf slash rest := by
    rw [segmentsOf, ← piecesOf_eq_splitOn, piecesOf, if_pos rfl, List.tail_cons]
  have isMarked : ((slash :: rest).map cut ++ [0]).drop 1 = marked 0 (piecesOf slash rest) :=
    map_append_mark slash 0 rest
  have isCount : (slash :: rest).count slash = (piecesOf slash rest).length := by
    rw [List.count_cons_self, length_piecesOf]
  rw [isMarked] at isBuffer
  have short : (marked 0 (piecesOf slash rest)).length ≤ space := by
    rw [← isMarked, List.length_drop, List.length_append, List.length_map]
    unfold space
    simp only [List.length_singleton]
    omega
  have walked := readSegments_eq isBuffer
    (notMem_of_mem_piecesOf slash fun member => clean (List.mem_cons_of_mem slash member)) short
  rw [← isCount] at walked
  refine ⟨_, _, parsed, walked, ?_⟩
  constructor
  · rw [map_snd_placed, isSegments]
  · intro string member
    have bounds := bounds_of_mem_placed slash member
    rw [← isText] at bounds
    omega
  · intro index below
    have above := (bounds_of_mem_placed slash (List.getElem_mem below)).1
    conv_lhs => rw [isText]
    rw [isSegments, ← drop_joined_succ slash below]
    congr 1
    omega
  · intro index below
    conv_lhs => rw [isText]
    rw [isSegments]
    exact drop_joined_placed slash below

/-- A path with an empty segment in the middle and one at the end. -/
def adjacent : Str := [slash, 0x61, slash, slash]

theorem buffered_adjacent :
    Buffered (storeBytes (fun _ => 0) 0x1000 adjacent) 0x1000 0x2000 adjacent where
  absolute := rfl
  clean := by decide
  isPath := ⟨by decide, by decide⟩
  pathFits := by decide
  bufferFits := by decide
  cleared := by decide

theorem parsePath_cuts_adjacent : ∃ after strings,
    parsePath (storeBytes (fun _ => 0) 0x1000 adjacent) 0x1000 4 0x2000 = some (3, after) ∧
      readSegments after 3 0x2001 = some strings ∧ ReadsSegments 0x2000 adjacent strings :=
  parsePath_cuts buffered_adjacent

/-! ## The same on lists of characters -/

def characters (string : Str) : List Char := string.map Char.ofUInt8

theorem ofUInt8_injective : Function.Injective Char.ofUInt8 := by
  intro byte other same
  have values : byte.toUInt32 = other.toUInt32 := congrArg Char.val same
  exact UInt8.toUInt32_inj.mp values

theorem ofUInt8_cut (byte : UInt8) :
    Char.ofUInt8 (cut byte) = if Char.ofUInt8 byte = '/' then Vfs.nul else Char.ofUInt8 byte := by
  have isSlash : Char.ofUInt8 slash = '/' := rfl
  unfold cut
  rw [← isSlash]
  simp only [ofUInt8_injective.eq_iff]
  split
  · rfl
  · rfl

theorem parsePath_characters (buffered : Buffered memory path buffer text) :
    ∃ after, parsePath memory path text.length buffer =
        some ((Vfs.parsePath (characters text)).1, after) ∧
      characters (bytesFrom after buffer (text.length + 1)) =
        (Vfs.parsePath (characters text)).2 := by
  have isSlash : Char.ofUInt8 slash = '/' := rfl
  have isCount : (Vfs.parsePath (characters text)).1 = text.count slash := by
    rw [Vfs.parsePath, characters, ← isSlash, List.count_map_of_injective _ _ ofUInt8_injective]
  have length : (text.map cut ++ [0]).length = text.length + 1 := by
    rw [List.length_append, List.length_map, List.length_singleton]
  rw [isCount]
  refine ⟨_, buffered.parsed, ?_⟩
  rw [← length, buffered.bytesAt.bytesFrom]
  unfold characters Vfs.parsePath
  rw [List.map_append, List.map_map, List.map_map, List.map_singleton]
  congr 1
  exact List.map_congr_left fun byte _ => ofUInt8_cut byte

end Dbos.Path
