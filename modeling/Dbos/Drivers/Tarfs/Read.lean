import Dbos.Drivers.Tarfs.Scan

/-! # Reading files

`read_node_tarfs` for any part of a node. The end of the part is computed in 32 bits
before it is compared with the size of the node. -/

namespace Dbos.Tarfs

def minusOne : Nat := wordSize - 1

/-- Whether `read_node_tarfs` gives up at once. -/
def Refused (node : Node) (startAt : Nat) : Prop :=
  node.basePointer = 0 ∨
    node.typeFlags ≠ .directory ∧ (node.size ≤ startAt ∨ 2 ^ 31 ≤ startAt)

instance (node : Node) (startAt : Nat) : Decidable (Refused node startAt) :=
  inferInstanceAs (Decidable (_ ∨ _))

/-- `len` when the bytes are copied. -/
def clippedLength (node : Node) (startAt size : Nat) : Nat :=
  if (startAt + size) % wordSize > (node.size + wordSize - 1) % wordSize then
    (node.size + wordSize - startAt) % wordSize
  else size

/-- Some bytes of a node from the one at `start` on. -/
def bytesFrom (memory : Memory) (node : Node) (start count : Nat) : List UInt8 :=
  (List.range count).map fun index => memory ((node.basePointer + start + index) % wordSize)

/-- `read_node_tarfs`: what it returns and what it copies to the buffer. -/
def readNode (memory : Memory) (node : Node) (startAt size : Nat) : Nat × List UInt8 :=
  if Refused node startAt then (minusOne, [])
  else
    let len := clippedLength node startAt size
    (len, bytesFrom memory node startAt len)

/-- A node of a regular file. -/
structure RegularFile where
  node : Node
  regular : node.typeFlags = .file
  placed : node.basePointer ≠ 0
  small : node.size < wordSize

def RegularFile.contents (file : RegularFile) (memory : Memory) : List UInt8 :=
  bytesFrom memory file.node 0 file.node.size

theorem take_drop_contents (file : RegularFile) (memory : Memory) {start count : Nat}
    (inside : start + count ≤ file.node.size) :
    ((file.contents memory).drop start).take count = bytesFrom memory file.node start count := by
  apply List.ext_getElem
  · simp only [RegularFile.contents, bytesFrom, List.length_take, List.length_drop,
      List.length_map, List.length_range]
    omega
  · intro index left right
    simp only [RegularFile.contents, bytesFrom, List.getElem_take, List.getElem_drop,
      List.getElem_map, List.getElem_range]
    congr 2
    omega

def Clipped (memory : Memory) (file : RegularFile) (startAt size : Nat) : Prop :=
  if file.node.size ≤ startAt then readNode memory file.node startAt size = (minusOne, [])
  else
    readNode memory file.node startAt size =
      (min size (file.node.size - startAt),
        ((file.contents memory).drop startAt).take (min size (file.node.size - startAt)))

theorem refused_iff (file : RegularFile) (startAt : Nat) :
    Refused file.node startAt ↔ file.node.size ≤ startAt ∨ 2 ^ 31 ≤ startAt := by
  unfold Refused
  rw [file.regular]
  simp [file.placed]

theorem clippedLength_of_lt {node : Node} {startAt size : Nat} (inside : startAt < node.size)
    (small : node.size < wordSize) (noWrap : startAt + size < wordSize) :
    clippedLength node startAt size = min size (node.size - startAt) := by
  unfold clippedLength
  unfold wordSize at *
  split <;> omega

theorem clippedLength_of_wrap {node : Node} {startAt size : Nat} (inside : startAt < node.size)
    (small : node.size < wordSize) (sizeBound : size < wordSize)
    (wrap : wordSize ≤ startAt + size) : clippedLength node startAt size = size := by
  unfold clippedLength
  unfold wordSize at *
  rw [if_neg (by omega)]

/-- A read is clipped if it begins behind the file, or if its start is not negative as an
`int` and its end fits in 32 bits. -/
theorem clipped_iff (memory : Memory) (file : RegularFile) (startAt size : Nat)
    (startBound : startAt < wordSize) (sizeBound : size < wordSize) :
    Clipped memory file startAt size ↔
      file.node.size ≤ startAt ∨ startAt < 2 ^ 31 ∧ startAt + size < wordSize := by
  have small := file.small
  unfold Clipped
  by_cases behind : file.node.size ≤ startAt
  · rw [if_pos behind, readNode, if_pos ((refused_iff file startAt).mpr (.inl behind))]
    simp [behind]
  · rw [if_neg behind, or_iff_right behind]
    by_cases negative : 2 ^ 31 ≤ startAt
    · rw [readNode, if_pos ((refused_iff file startAt).mpr (.inr negative))]
      constructor
      · intro clipped
        have returned : minusOne = min size (file.node.size - startAt) := congrArg Prod.fst clipped
        unfold minusOne wordSize at *
        omega
      · intro ⟨positive, _⟩
        omega
    · have served : ¬Refused file.node startAt := by
        rw [refused_iff]
        omega
      rw [readNode, if_neg served]
      by_cases noWrap : startAt + size < wordSize
      · simp only [clippedLength_of_lt (by omega) small noWrap]
        rw [take_drop_contents file memory (by omega)]
        simp only [true_iff]
        exact ⟨by omega, noWrap⟩
      · constructor
        · intro clipped
          have returned : clippedLength file.node startAt size =
              min size (file.node.size - startAt) := congrArg Prod.fst clipped
          rw [clippedLength_of_wrap (Nat.not_le.mp behind) small sizeBound (Nat.not_lt.mp noWrap)]
            at returned
          omega
        · intro ⟨_, below⟩
          exact absurd below noWrap

def tenBytes : RegularFile := ⟨⟨[], 10, .file, 0x100200⟩, rfl, by decide, by decide⟩

theorem clipped_iff_tenBytes :
    Clipped (fun _ => 0) tenBytes 4 100 ↔ 10 ≤ 4 ∨ 4 < 2 ^ 31 ∧ 4 + 100 < wordSize :=
  clipped_iff (fun _ => 0) tenBytes 4 100 (by decide) (by decide)

/-- Reading as much as possible from the second byte on copies nearly all of the memory. -/
theorem not_clipped_tenBytes : ¬Clipped (fun _ => 0) tenBytes 1 (wordSize - 1) := by
  intro clipped
  have served : ¬Refused tenBytes.node 1 := by decide
  have copied : clippedLength tenBytes.node 1 (wordSize - 1) = wordSize - 1 := by decide
  have returned := congrArg Prod.fst clipped
  rw [readNode, if_neg served, copied] at returned
  exact absurd returned (by decide)

end Dbos.Tarfs
