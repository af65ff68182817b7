import Mathlib.Data.List.Basic
import Dbos.Kernel.Memory.Heap

/-! # The blocks of the heap

The heap as a list of blocks that tile the memory from its start on. -/

namespace Dbos.Heap

open Dbos.ByteMemory

structure Block where
  address : Nat
  size : Nat
  present : Bool
deriving DecidableEq, Repr

def Block.payload (block : Block) : Nat := block.address + headerSize

def Block.stop (block : Block) : Nat := block.address + headerSize + block.size

/-- The header of the block, with the pointer to the next one. -/
structure Block.At (memory : Memory) (next : Nat) (block : Block) : Prop where
  size : getSize memory block.address = block.size
  next : getNext memory block.address = next
  present : getPresent memory block.address = block.present

/-- The address of the first block, or what comes behind the list. -/
def firstOr (tail : Nat) : List Block → Nat
  | [] => tail
  | block :: _ => block.address

/-- The headers of the blocks are linked, the last one to `tail`. -/
def Linked (memory : Memory) (tail : Nat) : List Block → Prop
  | [] => True
  | block :: blocks => block.At memory (firstOr tail blocks) ∧ Linked memory tail blocks

/-- The blocks tile the addresses from `first` up to `last`. -/
def Tiles : Nat → List Block → Nat → Prop
  | first, [], last => first = last
  | first, block :: blocks, last => block.address = first ∧ Tiles block.stop blocks last

/-- The blocks reached from `heap.head` tile the memory from the start of the
heap, and end below its end. -/
def Tiled (state : State) (blocks : List Block) : Prop :=
  state.heap.head = firstOr 0 blocks ∧ Linked state.memory 0 blocks ∧
    ∃ last, Tiles state.heap.start blocks last ∧ last ≤ state.heap.heapEnd

/-! ## Lists of blocks -/

@[simp] theorem firstOr_append (tail : Nat) (before after : List Block) :
    firstOr tail (before ++ after) = firstOr (firstOr tail after) before := by
  cases before <;> rfl

theorem linked_append {memory : Memory} {tail : Nat} {before after : List Block} :
    Linked memory tail (before ++ after) ↔
      Linked memory (firstOr tail after) before ∧ Linked memory tail after := by
  induction before with
  | nil => simp [Linked]
  | cons block before induction => simp [Linked, induction, and_assoc]

theorem tiles_append {first last : Nat} {before after : List Block} :
    Tiles first (before ++ after) last ↔
      ∃ middle, Tiles first before middle ∧ Tiles middle after last := by
  induction before generalizing first with
  | nil => simp [Tiles]
  | cons block before induction => simp [Tiles, induction, and_assoc]

theorem Tiles.le {first last : Nat} {blocks : List Block} (tiles : Tiles first blocks last) :
    first ≤ last := by
  induction blocks generalizing first with
  | nil => exact Nat.le_of_eq tiles
  | cons block blocks induction =>
      have later := induction tiles.2
      have here := tiles.1
      unfold Block.stop at later
      omega

theorem Tiles.bounds {first last : Nat} {blocks : List Block} (tiles : Tiles first blocks last)
    {block : Block} (member : block ∈ blocks) : first ≤ block.address ∧ block.stop ≤ last := by
  rcases List.append_of_mem member with ⟨before, after, rfl⟩
  rcases tiles_append.mp tiles with ⟨middle, left, here, right⟩
  have leftLe := left.le
  have rightLe := right.le
  omega

theorem Tiles.apart {first last : Nat} {before after : List Block} {block other : Block}
    (tiles : Tiles first (before ++ block :: after) last) (member : other ∈ before ++ after) :
    other.stop ≤ block.address ∨ block.stop ≤ other.address := by
  rcases tiles_append.mp tiles with ⟨middle, left, here, right⟩
  rcases List.mem_append.mp member with isBefore | isAfter
  · have bounds := left.bounds isBefore
    omega
  · have bounds := right.bounds isAfter
    omega

theorem mem_of_mem_around {before after : List Block} {block other : Block}
    (member : other ∈ before ++ after) : other ∈ before ++ block :: after := by
  rcases List.mem_append.mp member with isBefore | isAfter
  · exact List.mem_append_left _ isBefore
  · exact List.mem_append_right _ (List.mem_cons_of_mem _ isAfter)

theorem Tiles.disjoint {first last : Nat} {blocks : List Block} {block other : Block}
    (tiles : Tiles first blocks last) (member : block ∈ blocks) (otherMember : other ∈ blocks)
    (different : other.address ≠ block.address) :
    other.stop ≤ block.address ∨ block.stop ≤ other.address := by
  rcases List.append_of_mem member with ⟨before, after, rfl⟩
  refine tiles.apart ?_
  rcases List.mem_append.mp otherMember with isBefore | isLater
  · exact List.mem_append_left _ isBefore
  · rcases List.mem_cons.mp isLater with rfl | isAfter
    · exact absurd rfl different
    · exact List.mem_append_right _ isAfter

theorem Tiles.length_le {first last : Nat} {blocks : List Block} (tiles : Tiles first blocks last) :
    first + blocks.length ≤ last := by
  induction blocks generalizing first with
  | nil => exact Nat.le_of_eq tiles
  | cons block blocks induction =>
      have later := induction tiles.2
      have here := tiles.1
      unfold Block.stop headerSize at later
      rw [List.length_cons]
      omega

/-! ## Headers and memory -/

theorem Block.At.congr {memory other : Memory} {next : Nat} {block : Block}
    (blockAt : block.At memory next)
    (same : SameOn block.address block.payload other memory) : block.At other next := by
  unfold Block.payload headerSize at same
  refine ⟨?_, ?_, ?_⟩
  · rw [← blockAt.size]
    exact same.loadWord (Nat.le_refl _) (by omega)
  · rw [← blockAt.next]
    exact same.loadWord (by omega) (by omega)
  · rw [← blockAt.present, getPresent, getPresent, same _ (by omega) (by omega)]

theorem Linked.congr {memory other : Memory} {tail : Nat} {blocks : List Block}
    (linked : Linked memory tail blocks)
    (same : ∀ block ∈ blocks, SameOn block.address block.payload other memory) :
    Linked other tail blocks := by
  induction blocks with
  | nil => trivial
  | cons block blocks induction =>
      exact ⟨linked.1.congr (same block (by simp)),
        induction linked.2 fun later member => same later (by simp [member])⟩

section Fields

variable {memory : Memory} {item : Nat}

theorem getPresent_setPresent (memory : Memory) (item : Nat) (present : Bool) :
    getPresent (setPresent memory item present) item = present := by
  unfold getPresent setPresent
  rw [load_store_self]
  cases present <;> simp

theorem sameOn_setSize (bound : item + headerSize ≤ space) {first last size : Nat}
    (lastBound : last ≤ space) (outside : last ≤ item ∨ item + 4 ≤ first) :
    SameOn first last (setSize memory item size) memory :=
  sameOn_storeWord (by unfold headerSize at bound; omega) lastBound outside

theorem sameOn_setNext (bound : item + headerSize ≤ space) {first last next : Nat}
    (lastBound : last ≤ space) (outside : last ≤ item + 4 ∨ item + 8 ≤ first) :
    SameOn first last (setNext memory item next) memory :=
  sameOn_storeWord (by unfold headerSize at bound; omega) lastBound outside

theorem sameOn_setPresent (bound : item + headerSize ≤ space) {first last : Nat} {present : Bool}
    (lastBound : last ≤ space) (outside : last ≤ item + 8 ∨ item + 8 < first) :
    SameOn first last (setPresent memory item present) memory :=
  sameOn_store (by unfold headerSize at bound; omega) lastBound outside

theorem getSize_setSize (bound : item + headerSize ≤ space) {size : Nat} (small : size < space) :
    getSize (setSize memory item size) item = size :=
  loadWord_storeWord (by unfold headerSize at bound; omega) small

theorem getNext_setNext (bound : item + headerSize ≤ space) {next : Nat} (small : next < space) :
    getNext (setNext memory item next) item = next :=
  loadWord_storeWord (by unfold headerSize at bound; omega) small

theorem getSize_setNext (bound : item + headerSize ≤ space) (next : Nat) :
    getSize (setNext memory item next) item = getSize memory item := by
  unfold headerSize at bound
  exact (sameOn_setNext bound (by omega) (.inl (Nat.le_refl _))).loadWord (Nat.le_refl item)
    (Nat.le_refl _)

theorem getSize_setPresent (bound : item + headerSize ≤ space) (present : Bool) :
    getSize (setPresent memory item present) item = getSize memory item := by
  unfold headerSize at bound
  exact (sameOn_setPresent bound (by omega) (.inl (Nat.le_refl _))).loadWord (Nat.le_refl item)
    (by omega)

theorem getNext_setPresent (bound : item + headerSize ≤ space) (present : Bool) :
    getNext (setPresent memory item present) item = getNext memory item := by
  unfold headerSize at bound
  exact (sameOn_setPresent bound (by omega) (.inl (Nat.le_refl _))).loadWord
    (Nat.le_add_right item 4) (by omega)

theorem getPresent_setNext (bound : item + headerSize ≤ space) (next : Nat) :
    getPresent (setNext memory item next) item = getPresent memory item := by
  unfold headerSize at bound
  unfold getPresent
  rw [sameOn_setNext bound bound (.inr (Nat.le_refl _)) (item + 8) (by omega) (by omega)]

theorem at_of_written (memory : Memory) (bound : item + headerSize ≤ space) {size next : Nat}
    (present : Bool) (sizeSmall : size < space) (nextSmall : next < space) :
    Block.At (setPresent (setNext (setSize memory item size) item next) item present) next
      ⟨item, size, present⟩ := by
  refine ⟨?_, ?_, getPresent_setPresent _ _ _⟩
  · rw [getSize_setPresent bound, getSize_setNext bound, getSize_setSize bound sizeSmall]
  · rw [getNext_setPresent bound, getNext_setNext bound nextSmall]

theorem at_of_rewritten (memory : Memory) (bound : item + headerSize ≤ space) {size next : Nat}
    (present : Bool) (sizeSmall : size < space) (nextSmall : next < space) :
    Block.At (setNext (setPresent (setSize memory item size) item present) item next) next
      ⟨item, size, present⟩ := by
  refine ⟨?_, getNext_setNext bound nextSmall, ?_⟩
  · rw [getSize_setNext bound, getSize_setPresent bound, getSize_setSize bound sizeSmall]
  · rw [getPresent_setNext bound, getPresent_setPresent]

theorem sameOn_written (bound : item + headerSize ≤ space) {first last size next : Nat}
    {present : Bool} (lastBound : last ≤ space)
    (outside : last ≤ item ∨ item + headerSize ≤ first) :
    SameOn first last (setPresent (setNext (setSize memory item size) item next) item present)
      memory := by
  unfold headerSize at outside
  exact ((sameOn_setPresent bound lastBound (by omega)).trans
    (sameOn_setNext bound lastBound (by omega))).trans
    (sameOn_setSize bound lastBound (by omega))

theorem sameOn_rewritten (bound : item + headerSize ≤ space) {first last size next : Nat}
    {present : Bool} (lastBound : last ≤ space)
    (outside : last ≤ item ∨ item + headerSize ≤ first) :
    SameOn first last (setNext (setPresent (setSize memory item size) item present) item next)
      memory := by
  unfold headerSize at outside
  exact ((sameOn_setNext bound lastBound (by omega)).trans
    (sameOn_setPresent bound lastBound (by omega))).trans
    (sameOn_setSize bound lastBound (by omega))

end Fields

/-! ## The search for a block -/

theorem toInt_of_lt {word : Nat} (small : word < 2 ^ 31) : toInt word = word := if_pos small

/-- The search takes a free block whose size, as an `int`, is not below the request. -/
def Block.Accepted (size : Nat) (block : Block) : Prop :=
  toInt size ≤ block.size ∧ block.present = false

instance (size : Nat) (block : Block) : Decidable (block.Accepted size) :=
  inferInstanceAs (Decidable (_ ∧ _))

theorem findItem_accepted {memory : Memory} {size first last : Nat} {blocks : List Block}
    (linked : Linked memory 0 blocks) (tiles : Tiles first blocks last) (positive : 0 < first)
    (nonempty : blocks ≠ []) (small : ∀ block ∈ blocks, block.size < 2 ^ 31) {fuel : Nat}
    (enough : blocks.length ≤ fuel) :
    ∃ before block after, blocks = before ++ block :: after ∧
      findItem memory size fuel (firstOr 0 blocks) = some block.address ∧
      (∀ other ∈ before, ¬other.Accepted size) ∧ (after ≠ [] → block.Accepted size) := by
  induction blocks generalizing first fuel with
  | nil => exact absurd rfl nonempty
  | cons block blocks induction =>
      cases fuel with
      | zero => simp at enough
      | succ fuel =>
          rcases linked with ⟨blockAt, linked⟩
          rcases tiles with ⟨isFirst, tiles⟩
          unfold findItem firstOr
          rw [blockAt.next, blockAt.size, blockAt.present, toInt_of_lt (small block (by simp))]
          cases blocks with
          | nil => exact ⟨[], block, [], rfl, if_pos rfl, by simp, fun more => absurd rfl more⟩
          | cons next blocks =>
              have notNull : firstOr 0 (next :: blocks) ≠ 0 := by
                have isNext := tiles.1
                unfold Block.stop at isNext
                simp only [firstOr]
                omega
              rw [if_neg notNull]
              split
              case isTrue accepted =>
                exact ⟨[], block, next :: blocks, rfl, rfl, by simp, fun _ => accepted⟩
              case isFalse refused =>
                have later : 0 < block.stop := by
                  unfold Block.stop headerSize
                  omega
                rcases induction linked tiles later (List.cons_ne_nil _ _)
                    (fun other member => small other (by simp [member]))
                    (Nat.le_of_succ_le_succ enough) with
                  ⟨before, found, after, split, isFound, skipped, accepted⟩
                refine ⟨block :: before, found, after, by rw [split, List.cons_append], isFound, ?_,
                  accepted⟩
                intro other member
                rcases List.mem_cons.mp member with rfl | isLater
                · exact refused
                · exact skipped other isLater

theorem findItem_spec {memory : Memory} {size first last : Nat} {blocks : List Block}
    (linked : Linked memory 0 blocks) (tiles : Tiles first blocks last) (positive : 0 < first)
    (nonempty : blocks ≠ []) (sizeSmall : size < 2 ^ 31)
    (small : ∀ block ∈ blocks, block.size < 2 ^ 31) {fuel : Nat} (enough : blocks.length ≤ fuel) :
    ∃ before block after, blocks = before ++ block :: after ∧
      findItem memory size fuel (firstOr 0 blocks) = some block.address ∧
      (after ≠ [] → size ≤ block.size ∧ block.present = false) := by
  rcases @findItem_accepted memory size first last blocks linked tiles positive nonempty small fuel
    enough with ⟨before, block, after, split, found, -, accepted⟩
  refine ⟨before, block, after, split, found, fun more => ?_⟩
  rcases accepted more with ⟨large, free⟩
  rw [toInt_of_lt sizeSmall] at large
  exact ⟨Int.ofNat_le.mp large, free⟩

end Dbos.Heap
