import Dbos.Libraries.AllocRequests

/-! # Duplicating a string

`strdup` asks for room for the string with its `NUL`, copies both, and then writes another 0
behind them. Blocks follow each other without a gap, so this may be the first byte of the
next header. -/

namespace Dbos.Strdup

open Dbos.ByteMemory Dbos.Heap Dbos.Bootstrap

/-! ## The functions -/

/-- `memcpy_8`, which goes from the first byte to the last. -/
def memcpy8 (memory : Memory) (destination source : Nat) : Nat → Memory
  | 0 => memory
  | count + 1 =>
      let memory := memcpy8 memory destination source count
      store memory (destination + count) (load memory (source + count))

def strdup (state : State) (string : Nat) : Option (Nat × State) :=
  (strlen state.memory string).bind fun length =>
    let stringLength := (length + 1) % space
    (kernMalloc state stringLength).map fun (tmp, state) =>
      let memory := memcpy8 state.memory tmp string stringLength
      (tmp, { state with memory := store memory (tmp + stringLength) 0 })

theorem memcpy8_spec {memory : Memory} {destination source length : Nat}
    (sourceBound : source + length ≤ space) (bound : destination + length ≤ space)
    (apart : source + length ≤ destination ∨ destination + length ≤ source) {count : Nat}
    (atMost : count ≤ length) :
    (∀ index < count, load (memcpy8 memory destination source count) (destination + index) =
        load memory (source + index)) ∧
      ∀ first last, last ≤ space → last ≤ destination ∨ destination + length ≤ first →
        SameOn first last (memcpy8 memory destination source count) memory := by
  induction count with
  | zero => exact ⟨fun index less => absurd less (Nat.not_lt_zero _), fun _ _ _ _ _ _ _ => rfl⟩
  | succ count induction =>
      rcases induction (by omega) with ⟨copied, kept⟩
      constructor
      · intro index less
        by_cases isLast : index = count
        · subst isLast
          rw [memcpy8, load_store_self]
          exact kept (source + index) (source + index + 1) (by omega) (by omega) _
            (Nat.le_refl _) (Nat.lt_succ_self _)
        · rw [memcpy8, load_store_of_ne (by omega) (by omega) (by omega)]
          exact copied index (by omega)
      · intro first last lastBound outside
        refine SameOn.trans ?_ (kept first last lastBound outside)
        exact sameOn_store (by omega) lastBound (by omega)

/-! ## What `strdup` promises -/

/-- Where strings are read from: below the heap, or in a block that is in use. -/
def Readable (state : State) (blocks : List Block) (source length : Nat) : Prop :=
  source + length ≤ state.heap.start ∨
    ∃ block ∈ blocks, block.present = true ∧ block.payload ≤ source ∧
      source + length ≤ block.stop

/-- A new block holds the string, the blocks tile the heap, and the other blocks are as
they were. -/
structure Duplicate (state next : State) (blocks after : List Block) (text : List UInt8)
    (pointer : Nat) (block : Block) : Prop where
  tiled : Tiled next after
  member : block ∈ after
  isPayload : pointer = block.payload
  enough : text.length + 1 ≤ block.size
  present : block.present = true
  string : StringAt next.memory pointer text
  free : ∀ other ∈ blocks, other.address = block.address → other.present = false
  kept : ∀ other ∈ blocks, other.address ≠ block.address →
    other ∈ after ∧ SameOn other.payload other.stop next.memory state.memory

def Duplicated (state : State) (blocks : List Block) (text : List UInt8)
    (result : Option (Nat × State)) : Prop :=
  ∃ pointer next after block, result = some (pointer, next) ∧
    Duplicate state next blocks after text pointer block

/-! ## After the copy -/

section Copy

variable {state middle : State} {blocks after : List Block} {block : Block} {source pointer : Nat}
  {text : List UInt8}

/-- The string can still be read after `kern_malloc`, and lies apart from the new block. -/
theorem Readable.of_granted {length size : Nat}
    (granted : Granted state middle blocks after size pointer block)
    (whole : Whole state blocks) (readable : Readable state blocks source length) :
    SameOn source (source + length) middle.memory state.memory ∧
      (source + length ≤ pointer ∨ block.stop ≤ source) ∧ source + length ≤ space := by
  have bounded := whole.bounded
  have bounds := granted.whole.bounds granted.member
  have start := granted.start
  rcases readable with isBelow | ⟨other, member, present, above, inside⟩
  · refine ⟨granted.below _ _ isBelow, .inl ?_, ?_⟩
    · rw [granted.pointer]
      unfold Block.payload
      omega
    · rcases whole.tiled with ⟨-, -, last, tiles, upTo⟩
      have inOrder := tiles.le
      omega
  · rcases granted.keptPresent member present with ⟨stays, different, same⟩
    refine ⟨same.mono above inside, ?_, ?_⟩
    · rcases granted.whole.tiled with ⟨-, -, last, tiles, -⟩
      have apart := tiles.disjoint granted.member stays different
      rw [granted.pointer]
      unfold Block.payload Block.stop at *
      omega
    · have otherBounds := (whole.bounds member).2
      omega

theorem duplicate_of_granted (whole : Whole state blocks)
    (granted : Granted state middle blocks after (text.length + 1) pointer block)
    (readable : Readable state blocks source (text.length + 1))
    (isString : StringAt state.memory source text) :
    Whole ⟨memcpy8 middle.memory pointer source (text.length + 1), middle.heap⟩ after ∧
      Duplicate state ⟨memcpy8 middle.memory pointer source (text.length + 1), middle.heap⟩ blocks
        after text pointer block := by
  rcases readable.of_granted granted whole with ⟨same, apart, sourceBound⟩
  have bounded := granted.whole.bounded
  have bounds := granted.whole.bounds granted.member
  have enough := granted.size
  have isPayload := granted.pointer
  have stop : block.stop = pointer + block.size := by
    rw [isPayload]
    rfl
  rcases @memcpy8_spec middle.memory pointer source (text.length + 1) sourceBound (by omega)
    (by omega) _ (Nat.le_refl _) with ⟨copied, frame⟩
  rcases granted.whole.tiled with ⟨head, linked, last, tiles, upTo⟩
  have others : ∀ other ∈ after, other.address ≠ block.address →
      SameOn other.address other.stop
        (memcpy8 middle.memory pointer source (text.length + 1)) middle.memory := by
    intro other member different
    have otherBounds := (granted.whole.bounds member).2
    have disjoint := tiles.disjoint granted.member member different
    apply frame _ _ (by omega)
    rw [isPayload]
    unfold Block.payload Block.stop at *
    omega
  have headers : ∀ other ∈ after, SameOn other.address other.payload
      (memcpy8 middle.memory pointer source (text.length + 1)) middle.memory := by
    intro other member
    by_cases isBlock : other.address = block.address
    · refine frame _ _ ?_ (.inl ?_)
      · unfold Block.payload at *
        omega
      · unfold Block.payload at *
        omega
    · exact (others other member isBlock).mono (Nat.le_refl _) (Nat.le_add_right _ _)
  have tiled : Tiled ⟨memcpy8 middle.memory pointer source (text.length + 1), middle.heap⟩ after :=
    ⟨head, linked.congr headers, last, tiles, upTo⟩
  refine ⟨⟨granted.whole.positive, tiled, bounded, granted.whole.small⟩, tiled, granted.member,
    isPayload, enough, granted.present, ⟨?_, ?_⟩, granted.free, ?_⟩
  · intro index less
    rw [copied index (by omega), same _ (by omega) (by omega)]
    exact isString.bytes index less
  · rw [copied text.length (by omega), same _ (by omega) (by omega)]
    exact isString.ends
  · intro other member different
    rcases granted.kept other member different with ⟨stays, sameBytes⟩
    refine ⟨stays, SameOn.trans ?_ sameBytes⟩
    exact (others other stays different).mono (Nat.le_add_right _ _) (Nat.le_refl _)

end Copy

/-! ## The byte behind the string -/

/-- The byte is 0 already. -/
theorem sameOn_store_same {memory : Memory} {address first last : Nat} {value : UInt8}
    (same : load memory address = value) : SameOn first last (store memory address value) memory := by
  intro other _ _
  unfold load store at *
  by_cases isHere : other % space = address % space
  · rw [isHere, Function.update_self, same]
  · rw [Function.update_of_ne isHere]

theorem getSize_mod (memory : Memory) (item : Nat) :
    getSize memory item % 256 = (load memory item).toNat := by
  have low := (load memory item).toNat_lt
  unfold getSize loadWord
  omega

theorem load_eq_zero_iff (memory : Memory) (item : Nat) :
    load memory item = 0 ↔ getSize memory item % 256 = 0 := by
  rw [getSize_mod, ← UInt8.toNat_inj]
  rfl

section Store

variable {state : State} {memory : Memory} {heap : KernHeap} {blocks after : List Block}
  {text : List UInt8} {pointer : Nat} {block : Block}
  (filled : Duplicate state ⟨memory, heap⟩ blocks after text pointer block)
include filled

theorem duplicate_store (whole : Whole ⟨memory, heap⟩ after)
    (spared : ∀ other ∈ after, other.address ≠ block.address →
      SameOn other.address other.stop (store memory (pointer + (text.length + 1)) 0) memory) :
    Duplicate state ⟨store memory (pointer + (text.length + 1)) 0, heap⟩ blocks after text pointer
      block := by
  have bounded := whole.bounded
  have bounds := whole.bounds filled.member
  have isPayload := filled.isPayload
  have enough := filled.enough
  have stop : block.stop = pointer + block.size := by
    rw [isPayload]
    rfl
  simp only at bounded bounds
  have before : SameOn block.address (pointer + (text.length + 1))
      (store memory (pointer + (text.length + 1)) 0) memory :=
    sameOn_store (by omega) (by omega) (.inl (Nat.le_refl _))
  rcases filled.tiled with ⟨head, linked, last, tiles, upTo⟩
  have headers : ∀ other ∈ after, SameOn other.address other.payload
      (store memory (pointer + (text.length + 1)) 0) memory := by
    intro other member
    by_cases isBlock : other.address = block.address
    · apply before.mono (Nat.le_of_eq isBlock.symm)
      rw [isPayload]
      unfold Block.payload
      omega
    · exact (spared other member isBlock).mono (Nat.le_refl _) (Nat.le_add_right _ _)
  refine ⟨⟨head, linked.congr headers, last, tiles, upTo⟩, filled.member, isPayload, enough,
    filled.present, ?_, filled.free, ?_⟩
  · apply filled.string.congr
    apply before.mono _ (Nat.le_refl _)
    rw [isPayload]
    exact Nat.le_add_right _ _
  · intro other member different
    rcases filled.kept other member different with ⟨stays, same⟩
    refine ⟨stays, SameOn.trans ?_ same⟩
    exact (spared other stays different).mono (Nat.le_add_right _ _) (Nat.le_refl _)

theorem spared_inside (whole : Whole ⟨memory, heap⟩ after)
    (larger : text.length + 1 < block.size) {other : Block} (member : other ∈ after)
    (different : other.address ≠ block.address) :
    SameOn other.address other.stop (store memory (pointer + (text.length + 1)) 0) memory := by
  have bounded := whole.bounded
  have bounds := whole.bounds filled.member
  have otherBounds := (whole.bounds member).2
  rcases filled.tiled with ⟨-, -, last, tiles, -⟩
  have disjoint := tiles.disjoint filled.member member different
  have isPayload := filled.isPayload
  simp only at bounded otherBounds bounds
  unfold Block.payload Block.stop at *
  exact sameOn_store (by omega) (by omega) (by omega)

theorem spared_last
    (isLast : ∀ other ∈ after, other.stop ≤ block.stop) (exact : text.length + 1 = block.size)
    (bound : block.stop < space) {other : Block} (member : other ∈ after) :
    SameOn other.address other.stop (store memory (pointer + (text.length + 1)) 0) memory := by
  have stop : block.stop = pointer + (text.length + 1) := by
    rw [exact, filled.isPayload]
    rfl
  have below := isLast other member
  exact sameOn_store (by omega) (by omega) (.inl (by omega))

theorem spared_zero
    (exact : text.length + 1 = block.size) {following : Block} (isNext : following ∈ after)
    (behind : following.address = block.stop) (zero : following.size % 256 = 0)
    (first last : Nat) :
    SameOn first last (store memory (pointer + (text.length + 1)) 0) memory := by
  apply sameOn_store_same
  rcases filled.tiled.2.1.at isNext with ⟨next, followingAt⟩
  have stop : block.stop = pointer + (text.length + 1) := by
    rw [exact, filled.isPayload]
    rfl
  rw [← stop, ← behind, load_eq_zero_iff, followingAt.size]
  exact zero

end Store

/-! ## A header that is overwritten -/

theorem next_of_tiled {state : State} {blocks : List Block} (tiled : Tiled state blocks)
    {block : Block} (member : block ∈ blocks)
    (notLast : getNext state.memory block.address ≠ 0) :
    ∃ following ∈ blocks, following.address = getNext state.memory block.address ∧
      following.address = block.stop := by
  rcases tiled with ⟨-, linked, last, tiles, -⟩
  rcases List.append_of_mem member with ⟨before, after, rfl⟩
  rcases linked_append.mp linked with ⟨-, blockAt, -⟩
  rcases tiles_append.mp tiles with ⟨middle, -, -, tilesAfter⟩
  rw [blockAt.next] at notLast ⊢
  cases after with
  | nil => exact absurd rfl notLast
  | cons following after => exact ⟨following, by simp, rfl, tilesAfter.1⟩

theorem not_duplicate_of_kept {state next : State} {blocks after : List Block} {text : List UInt8}
    {pointer : Nat} {block following : Block}
    (duplicate : Duplicate state next blocks after text pointer block)
    (member : following ∈ blocks) (different : following.address ≠ block.address)
    (overwritten : load next.memory following.address = 0) : following.size % 256 = 0 := by
  have stays := (duplicate.kept following member different).1
  rcases duplicate.tiled.2.1.at stays with ⟨following', followingAt⟩
  rw [← followingAt.size, ← load_eq_zero_iff]
  exact overwritten

theorem not_duplicate_of_split {state next : State} {blocks after : List Block} {text : List UInt8}
    {pointer : Nat} {block : Block}
    (duplicate : Duplicate state next blocks after text pointer block) {sibling size : Nat}
    (isNext : getNext next.memory block.address = sibling) (notNull : sibling ≠ 0)
    (behind : getNext next.memory sibling = sibling + headerSize + size)
    (overwritten : load next.memory sibling = 0) : size % 256 = 0 := by
  rcases next_of_tiled duplicate.tiled duplicate.member (by rw [isNext]; exact notNull) with
    ⟨other, member, isSibling, -⟩
  rw [isNext] at isSibling
  rcases duplicate.tiled.2.1.at member with ⟨following, otherAt⟩
  have stop : other.stop = sibling + headerSize + size := by
    rcases next_of_tiled duplicate.tiled member (by
      rw [isSibling, behind]
      unfold headerSize
      omega) with ⟨third, -, isThird, isStop⟩
    rw [← isStop, isThird, isSibling, behind]
  have isSize : other.size = size := by
    unfold Block.stop at stop
    omega
  rw [← isSize, ← otherAt.size, ← load_eq_zero_iff, isSibling]
  exact overwritten

/-! ## Which block is taken -/

/-- The block before the last one that the search takes, with the block behind it. -/
def chosen (size : Nat) : List Block → Option (Block × Block)
  | block :: following :: rest =>
      if block.Accepted size then some (block, following) else chosen size (following :: rest)
  | _ => none

theorem chosen_of_accepted {size : Nat} {before rest : List Block} {block following : Block}
    (skipped : ∀ other ∈ before, ¬other.Accepted size) (accepted : block.Accepted size) :
    chosen size (before ++ block :: following :: rest) = some (block, following) := by
  induction before with
  | nil => exact if_pos accepted
  | cons other before induction =>
      have later := induction fun skip member => skipped skip (by simp [member])
      have refused := skipped other (by simp)
      cases before with
      | nil => exact (if_neg refused).trans later
      | cons second before => exact (if_neg refused).trans later

theorem chosen_of_last {size : Nat} {before : List Block} {last : Block}
    (skipped : ∀ other ∈ before, ¬other.Accepted size) :
    chosen size (before ++ [last]) = none := by
  induction before with
  | nil => rfl
  | cons other before induction =>
      have later := induction fun skip member => skipped skip (by simp [member])
      have refused := skipped other (by simp)
      cases before with
      | nil => exact (if_neg refused).trans later
      | cons second before => exact (if_neg refused).trans later

/-- The byte behind the new block does no harm: if a block is used whole, the size of the one
behind it has 0 as its lowest byte, and if it is split, the size of what is left has. Behind
the last block there is room. -/
def Harmless (state : State) (blocks : List Block) (size : Nat) : Prop :=
  match chosen size blocks with
  | some (block, following) =>
      size ≤ block.size ∧ (block.size = size → following.size % 256 = 0) ∧
        (size + headerSize < block.size → (block.size - size - headerSize) % 256 = 0)
  | none =>
      if blocks = [] then state.heap.start + headerSize + size ≤ state.heap.heapEnd
      else
        lastStop blocks + roundedSize size < space ∧ HasRoom state (lastStop blocks) size

/-! ## One case after the other -/

section Cases

variable {state middle : State} {blocks after : List Block} {source pointer : Nat}
  {text : List UInt8}

/-- What `strdup` does with the block it gets. -/
def finish (middle : State) (pointer source length : Nat) : State :=
  { middle with
    memory := store (memcpy8 middle.memory pointer source length) (pointer + length) 0 }

theorem strdup_eq (clean : 0 ∉ text) (isString : StringAt state.memory source text)
    (small : text.length + 1 < space) :
    strdup state source = (kernMalloc state (text.length + 1)).map fun result =>
      (result.1, finish result.2 result.1 source (text.length + 1)) := by
  unfold strdup
  have length : strlen state.memory source = some text.length :=
    strlenFrom_eq clean isString (by omega)
  rw [length, Option.bind_some]
  simp only [Nat.mod_eq_of_lt small]
  rfl

theorem not_duplicated_of_tooLong
    (tooLong : TooLong (text.length + 1) (kernMalloc state (text.length + 1))) :
    ¬Duplicated state blocks text ((kernMalloc state (text.length + 1)).map fun result =>
      (result.1, finish result.2 result.1 source (text.length + 1))) := by
  rcases tooLong with ⟨pointer, middle, isResult, -, short⟩
  rw [isResult, Option.map_some]
  rintro ⟨other, next, after, block, isNext, duplicate⟩
  rw [Option.some.injEq, Prod.mk.injEq] at isNext
  rcases isNext with ⟨rfl, rfl⟩
  rcases duplicate.tiled with ⟨-, -, last, tiles, upTo⟩
  have bounds := (tiles.bounds duplicate.member).2
  have enough := duplicate.enough
  have isPayload := duplicate.isPayload
  unfold finish at upTo
  unfold Block.payload Block.stop at *
  simp only at upTo isPayload
  omega

theorem not_duplicated_of_null (isNull : ∃ middle, kernMalloc state (text.length + 1) =
    some (0, middle)) :
    ¬Duplicated state blocks text ((kernMalloc state (text.length + 1)).map fun result =>
      (result.1, finish result.2 result.1 source (text.length + 1))) := by
  rcases isNull with ⟨middle, isResult⟩
  rw [isResult, Option.map_some]
  rintro ⟨other, next, after, block, isNext, duplicate⟩
  rw [Option.some.injEq, Prod.mk.injEq] at isNext
  rcases isNext with ⟨rfl, rfl⟩
  have isPayload := duplicate.isPayload
  unfold Block.payload headerSize at isPayload
  simp only at isPayload
  omega

variable (whole : Whole state blocks) (isString : StringAt state.memory source text)
  (readable : Readable state blocks source (text.length + 1))
include whole isString readable

theorem duplicated_of_last {block : Block}
    (isResult : kernMalloc state (text.length + 1) = some (pointer, middle))
    (granted : Granted state middle blocks after (text.length + 1) pointer block)
    (isLast : ∀ other ∈ after, other.stop ≤ block.stop) (exact : text.length + 1 = block.size) :
    Duplicated state blocks text ((kernMalloc state (text.length + 1)).map fun result =>
      (result.1, finish result.2 result.1 source (text.length + 1))) := by
  rcases duplicate_of_granted whole granted readable isString with ⟨copiedWhole, copied⟩
  have bounds := copiedWhole.bounds granted.member
  have stop : block.stop < space := Nat.lt_of_le_of_lt bounds.2 copiedWhole.bounded
  rw [isResult, Option.map_some]
  exact ⟨_, _, _, _, rfl, duplicate_store copied copiedWhole fun other member _ =>
    spared_last copied isLast exact stop member⟩

/-- The new block is a free one, used whole but larger than needed. -/
theorem duplicated_of_larger {block : Block}
    (isResult : kernMalloc state (text.length + 1) = some (pointer, middle))
    (granted : Granted state middle blocks after (text.length + 1) pointer block)
    (larger : text.length + 1 < block.size) :
    Duplicated state blocks text ((kernMalloc state (text.length + 1)).map fun result =>
      (result.1, finish result.2 result.1 source (text.length + 1))) := by
  rcases duplicate_of_granted whole granted readable isString with ⟨copiedWhole, copied⟩
  rw [isResult, Option.map_some]
  exact ⟨_, _, _, _, rfl, duplicate_store copied copiedWhole fun other member different =>
    spared_inside copied copiedWhole larger member different⟩

theorem duplicated_iff_of_exact {block following : Block}
    (isResult : kernMalloc state (text.length + 1) = some (pointer, middle))
    (granted : Granted state middle blocks after (text.length + 1) pointer block)
    (exact : text.length + 1 = block.size) (isOld : following ∈ blocks)
    (behind : following.address = block.stop) :
    Duplicated state blocks text ((kernMalloc state (text.length + 1)).map fun result =>
      (result.1, finish result.2 result.1 source (text.length + 1))) ↔
        following.size % 256 = 0 := by
  rcases duplicate_of_granted whole granted readable isString with ⟨copiedWhole, copied⟩
  have different : following.address ≠ block.address := by
    rw [behind]
    unfold Block.stop headerSize
    omega
  have stop : block.stop = pointer + (text.length + 1) := by
    rw [exact, granted.pointer]
    rfl
  rw [isResult, Option.map_some]
  constructor
  · rintro ⟨other, next, others, new, isNext, duplicate⟩
    rw [Option.some.injEq, Prod.mk.injEq] at isNext
    rcases isNext with ⟨rfl, rfl⟩
    have isBlock : new.address = block.address := by
      have isPayload := duplicate.isPayload.symm.trans granted.pointer
      exact Nat.add_right_cancel isPayload
    apply not_duplicate_of_kept duplicate isOld (by rw [isBlock]; exact different)
    unfold finish
    rw [behind, stop]
    exact load_store_self _ _ _
  · intro zero
    exact ⟨_, _, _, _, rfl, duplicate_store copied copiedWhole fun other _ _ =>
      spared_zero copied exact (granted.kept following isOld different).1 behind zero _ _⟩

theorem duplicated_iff_of_split {before rest : List Block} {block sibling following : Block}
    (isResult : kernMalloc state (text.length + 1) = some (pointer, middle))
    (granted : Granted state middle blocks
      (before ++ (block :: sibling :: following :: rest)) (text.length + 1) pointer block)
    (exact : text.length + 1 = block.size) :
    Duplicated state blocks text ((kernMalloc state (text.length + 1)).map fun result =>
      (result.1, finish result.2 result.1 source (text.length + 1))) ↔
        sibling.size % 256 = 0 := by
  rcases duplicate_of_granted whole granted readable isString with ⟨copiedWhole, copied⟩
  rcases copiedWhole.tiled with ⟨-, linked, last, tiles, -⟩
  rcases linked_append.mp linked with ⟨-, blockAt, siblingAt, -⟩
  rcases tiles_append.mp tiles with ⟨start, -, -, isSibling, isFollowing, -⟩
  have bounded := copiedWhole.bounded
  have siblingBounds := copiedWhole.bounds
    (show sibling ∈ before ++ (block :: sibling :: following :: rest) by simp)
  have siblingStop : sibling.stop < space := Nat.lt_of_le_of_lt siblingBounds.2 bounded
  have stop : block.stop = pointer + (text.length + 1) := by
    rw [exact, granted.pointer]
    rfl
  have stopSmall : block.address + headerSize ≤ block.stop := Nat.le_add_right _ _
  have siblingSmall : sibling.address + headerSize ≤ sibling.stop := Nat.le_add_right _ _
  rw [isResult, Option.map_some]
  constructor
  · rintro ⟨other, next, others, new, isNext, duplicate⟩
    rw [Option.some.injEq, Prod.mk.injEq] at isNext
    rcases isNext with ⟨rfl, rfl⟩
    have isBlock : new.address = block.address := by
      have isPayload := duplicate.isPayload.symm.trans granted.pointer
      exact Nat.add_right_cancel isPayload
    have nextIsSibling : getNext (finish middle pointer source (text.length + 1)).memory
        new.address = sibling.address := by
      rw [isBlock]
      refine Eq.trans ?_ blockAt.next
      unfold finish headerSize at *
      exact (sameOn_store (by omega) (by omega) (.inl (Nat.le_refl _))).loadWord
        (Nat.le_add_right block.address 4) (by omega)
    have nextIsFollowing : getNext (finish middle pointer source (text.length + 1)).memory
        sibling.address = sibling.address + headerSize + sibling.size := by
      refine Eq.trans ?_ (siblingAt.next.trans isFollowing)
      unfold finish headerSize at *
      exact (sameOn_store (by omega) (show sibling.address + 8 ≤ space by omega)
        (.inr (by omega))).loadWord (Nat.le_refl (sibling.address + 4)) (Nat.le_refl _)
    apply not_duplicate_of_split duplicate nextIsSibling ?_ nextIsFollowing
    · unfold finish
      rw [isSibling, stop]
      exact load_store_self _ _ _
    · unfold headerSize at stopSmall
      omega
  · intro zero
    exact ⟨_, _, _, _, rfl, duplicate_store copied copiedWhole fun other _ _ =>
      spared_zero copied exact (show sibling ∈ _ by simp) isSibling zero _ _⟩

end Cases

/-! ## When `strdup` does no harm -/

section Harmless

variable {state : State} {blocks : List Block} {source : Nat} {text : List UInt8}

theorem kernMalloc_empty (wellFormed : WellFormed .kernel state []) (size : Nat) :
    ∃ result, kernMalloc state size = some result ∧
      (state.heap.start + headerSize + size ≤ state.heap.heapEnd →
        Granted state result.2 [] [⟨state.heap.start, size, true⟩] size result.1
          ⟨state.heap.start, size, true⟩) ∧
      (¬state.heap.start + headerSize + size ≤ state.heap.heapEnd →
        TooLong size (kernMalloc state size)) := by
  have whole := wellFormed.whole
  have low := wellFormed.low
  have high := wellFormed.high
  have bounded := whole.bounded
  have empty : state.heap.head = 0 := whole.head_eq_zero_iff.mpr rfl
  rcases whole.tiled with ⟨-, -, last, isLast, upTo⟩
  have startLe : state.heap.start ≤ state.heap.heapEnd := by
    have isStart : state.heap.start = last := isLast
    omega
  have isResult : kernMalloc state size = some (clear ⟨setPresent (setNext (setSize state.memory
      state.heap.start size) state.heap.start 0) state.heap.start true,
        { state.heap with head := state.heap.start }⟩ state.heap.start) := by
    unfold kernMalloc
    rw [if_pos empty]
  refine ⟨_, isResult, fun fits => ?_, fun tooLong => ?_⟩
  · refine first_granted whole ?_ fits
    unfold Allocator.low kernelHeapInitAddr at low
    unfold space at bounded
    simp only at low
    omega
  · rw [isResult]
    unfold clear
    refine ⟨_, _, rfl, ?_, ?_⟩
    · rw [Nat.mod_eq_of_lt]
      · unfold headerSize
        omega
      · unfold Allocator.high headerSize space at *
        simp only at high
        omega
    · rw [Nat.mod_eq_of_lt]
      · simp only
        omega
      · unfold Allocator.high headerSize space at *
        simp only at high
        omega

theorem duplicated_iff_of_append {before : List Block} {last : Block}
    (wellFormed : WellFormed .kernel state (before ++ [last]))
    (isString : StringAt state.memory source text)
    (readable : Readable state (before ++ [last]) source (text.length + 1))
    (small : text.length + 1 < space)
    (isResult : kernMalloc state (text.length + 1) =
      some (append state last.address (text.length + 1))) :
    Duplicated state (before ++ [last]) text ((kernMalloc state (text.length + 1)).map
        fun result => (result.1, finish result.2 result.1 source (text.length + 1))) ↔
      last.stop + roundedSize (text.length + 1) < space ∧
        HasRoom state last.stop (text.length + 1) := by
  by_cases fits : last.stop + roundedSize (text.length + 1) < space
  · by_cases room : HasRoom state last.stop (text.length + 1)
    · refine iff_of_true ?_ ⟨fits, room⟩
      rcases appendWith_served wellFormed fits room with ⟨next, isNext, granted⟩
      have isResult := isResult.trans (congrArg some isNext)
      refine duplicated_of_last wellFormed.whole isString readable isResult granted ?_ rfl
      rcases granted.whole.tiled with ⟨-, -, upTo, tiles, -⟩
      rw [show before ++ [last, ⟨last.stop, text.length + 1, true⟩] =
        (before ++ [last]) ++ [⟨last.stop, text.length + 1, true⟩] by simp] at tiles ⊢
      rcases tiles_append.mp tiles with ⟨middle, -, -, isEnd⟩
      intro other member
      have below := (tiles.bounds member).2
      exact Nat.le_trans below (Nat.le_of_eq isEnd.symm)
    · refine iff_of_false (not_duplicated_of_null ?_) fun both => room both.2
      rcases appendWith_null wellFormed fits room with ⟨heap, isNext⟩
      exact ⟨_, isResult.trans (congrArg some isNext)⟩
  · refine iff_of_false (not_duplicated_of_tooLong ?_) fun both => fits both.1
    rw [isResult]
    exact tooLong_appendWith wellFormed small (by omega)

theorem duplicated_iff_of_reuse {before rest : List Block} {block following : Block}
    (wellFormed : WellFormed .kernel state (before ++ block :: following :: rest))
    (isString : StringAt state.memory source text)
    (readable : Readable state (before ++ block :: following :: rest) source (text.length + 1))
    (isResult : kernMalloc state (text.length + 1) =
      some (reuse state block.address (text.length + 1)))
    (accepted : block.Accepted (text.length + 1)) :
    Duplicated state (before ++ block :: following :: rest) text
        ((kernMalloc state (text.length + 1)).map fun result =>
          (result.1, finish result.2 result.1 source (text.length + 1))) ↔
      text.length + 1 ≤ block.size ∧
        (block.size = text.length + 1 → following.size % 256 = 0) ∧
        (text.length + 1 + headerSize < block.size →
          (block.size - (text.length + 1) - headerSize) % 256 = 0) := by
  have whole := wellFormed.whole
  by_cases enough : text.length + 1 ≤ block.size
  · have granted := reuse_granted whole accepted.2 enough
    rcases (⟨_, rfl⟩ : ∃ result, result = reuse state block.address (text.length + 1)) with
      ⟨result, isReuse⟩
    rw [← isReuse] at granted isResult
    unfold cut cutFirst at granted
    by_cases large : headerSize + 1 ≤ block.size - (text.length + 1)
    · simp only [if_pos large] at granted
      rw [duplicated_iff_of_split whole isString readable isResult granted rfl]
      constructor
      · intro zero
        exact ⟨enough, fun same => by omega, fun _ => zero⟩
      · intro harmless
        exact harmless.2.2 (by omega)
    · simp only [if_neg large] at granted
      by_cases exact : block.size = text.length + 1
      · rcases tiles_append.mp whole.tiled.2.2.choose_spec.1 with ⟨middle, -, isMiddle, behind, -⟩
        rw [duplicated_iff_of_exact whole isString readable isResult granted exact.symm
          (show following ∈ before ++ block :: following :: rest by simp) behind]
        constructor
        · intro zero
          exact ⟨enough, fun _ => zero, fun _ => by omega⟩
        · intro harmless
          exact harmless.2.1 exact
      · refine iff_of_true (duplicated_of_larger whole isString readable isResult granted ?_)
          ⟨enough, fun same => absurd same exact, fun _ => by omega⟩
        show text.length + 1 < block.size
        omega
  · refine iff_of_false (not_duplicated_of_tooLong ?_) fun harmless => enough harmless.1
    rw [isResult]
    refine tooLong_reuse wellFormed (by simp) ?_
    by_contra notNegative
    have large := accepted.1
    rw [toInt_of_lt (by omega)] at large
    exact enough (Int.ofNat_le.mp large)

/-- `strdup` keeps the heap in order exactly if the byte behind the string does no harm. -/
theorem duplicated_iff (wellFormed : WellFormed .kernel state blocks) (clean : 0 ∉ text)
    (isString : StringAt state.memory source text)
    (readable : Readable state blocks source (text.length + 1)) :
    Duplicated state blocks text (strdup state source) ↔
      Harmless state blocks (text.length + 1) := by
  have whole := wellFormed.whole
  have bounded := whole.bounded
  have small : text.length + 1 < space := by
    rcases readable with isBelow | ⟨block, member, -, above, inside⟩
    · rcases whole.tiled with ⟨-, -, last, tiles, upTo⟩
      have inOrder := tiles.le
      omega
    · have bounds := (whole.bounds member).2
      omega
  rw [strdup_eq clean isString small]
  by_cases empty : blocks = []
  · subst empty
    unfold Harmless chosen
    simp only [if_true]
    rcases kernMalloc_empty wellFormed (text.length + 1) with ⟨result, isResult, served, refused⟩
    by_cases fits : state.heap.start + headerSize + (text.length + 1) ≤ state.heap.heapEnd
    · refine iff_of_true (duplicated_of_last whole isString readable isResult (served fits) ?_ rfl)
        fits
      intro other member
      exact Nat.le_of_eq (congrArg Block.stop (List.mem_singleton.mp member))
    · exact iff_of_false (not_duplicated_of_tooLong (refused fits)) fits
  · have notNull : state.heap.head ≠ 0 := fun isNull => empty (whole.head_eq_zero_iff.mp isNull)
    rcases whole.findItem empty (text.length + 1) with
      ⟨before, block, after, rfl, isFound, isLast, skipped, accepted⟩
    have isResult : kernMalloc state (text.length + 1) = some (if after = [] then
        append state block.address (text.length + 1)
        else reuse state block.address (text.length + 1)) := by
      unfold kernMalloc
      rw [if_neg notNull, isFound, Option.map_some]
      simp only [isLast]
    cases after with
    | nil =>
        rw [if_pos rfl] at isResult
        have stop : lastStop (before ++ [block]) = block.stop := by
          unfold lastStop
          rw [List.getLast?_concat]
          rfl
        unfold Harmless
        rw [chosen_of_last skipped]
        simp only [if_neg empty, stop]
        exact duplicated_iff_of_append wellFormed isString readable small isResult
    | cons following rest =>
        rw [if_neg (List.cons_ne_nil _ _)] at isResult
        unfold Harmless
        rw [chosen_of_accepted skipped (accepted (List.cons_ne_nil _ _))]
        exact duplicated_iff_of_reuse wellFormed isString readable isResult
          (accepted (List.cons_ne_nil _ _))

end Harmless

/-- A heap with a free block of 3 bytes and one in use behind it, and a string below. -/
def freeThenUsed (second : Nat) : State where
  memory :=
    let memory : Memory := fun address =>
      if address = 0x1000 then 0x61 else if address = 0x1001 then 0x62 else 0
    let memory := setSize memory kernelHeapInitAddr 3
    let memory := setNext memory kernelHeapInitAddr (kernelHeapInitAddr + headerSize + 3)
    let memory := setSize memory (kernelHeapInitAddr + headerSize + 3) second
    setPresent memory (kernelHeapInitAddr + headerSize + 3) true
  heap := ⟨pageByteLen, kernelHeapInitAddr, kernelHeapInitAddr + pageByteLen, kernelHeapInitAddr⟩

def freeThenUsedBlocks (second : Nat) : List Block :=
  [⟨kernelHeapInitAddr, 3, false⟩, ⟨kernelHeapInitAddr + headerSize + 3, second, true⟩]

theorem wellFormed_freeThenUsed {second : Nat}
    (isSecond : second = 16 ∨ second = 256) :
    WellFormed .kernel (freeThenUsed second) (freeThenUsedBlocks second) ∧
      StringAt (freeThenUsed second).memory 0x1000 [0x61, 0x62] ∧
      Readable (freeThenUsed second) (freeThenUsedBlocks second) 0x1000 3 := by
  rcases isSecond with rfl | rfl
  all_goals
    refine ⟨⟨⟨rfl, ⟨⟨?_, ?_, ?_⟩, ⟨?_, ?_, ?_⟩, trivial⟩, _, ⟨rfl, rfl, rfl⟩, ?_⟩, ?_, ?_, ?_⟩, ⟨?_, ?_⟩,
      .inl ?_⟩
    all_goals decide +kernel

theorem duplicated_iff_freeThenUsed :
    Duplicated (freeThenUsed 256) (freeThenUsedBlocks 256) [0x61, 0x62]
      (strdup (freeThenUsed 256) 0x1000) := by
  rcases wellFormed_freeThenUsed (.inr rfl) with ⟨wellFormed, isString, readable⟩
  refine (duplicated_iff wellFormed (by decide) isString readable).mpr ?_
  show 3 ≤ 3 ∧ (3 = 3 → 256 % 256 = 0) ∧ (3 + headerSize < 3 → (3 - 3 - headerSize) % 256 = 0)
  decide

/-- The block behind the string was 16 bytes long and now has length 0. -/
theorem not_duplicated_freeThenUsed :
    WellFormed .kernel (freeThenUsed 16) (freeThenUsedBlocks 16) ∧
      StringAt (freeThenUsed 16).memory 0x1000 [0x61, 0x62] ∧
      Readable (freeThenUsed 16) (freeThenUsedBlocks 16) 0x1000 3 ∧
      ¬Duplicated (freeThenUsed 16) (freeThenUsedBlocks 16) [0x61, 0x62]
        (strdup (freeThenUsed 16) 0x1000) := by
  rcases wellFormed_freeThenUsed (.inl rfl) with ⟨wellFormed, isString, readable⟩
  refine ⟨wellFormed, isString, readable, ?_⟩
  rintro ⟨pointer, next, after, block, isResult, duplicate⟩
  have evaluated : ∀ result ∈ strdup (freeThenUsed 16) 0x1000,
      result.1 = 0xD0000009 ∧ load result.2.memory 0xD000000C = 0 := by decide +kernel
  rcases evaluated _ isResult with ⟨isPointer, overwritten⟩
  have different : 0xD000000C ≠ block.address := by
    have isPayload := duplicate.isPayload
    unfold Block.payload headerSize at isPayload
    simp only at isPointer
    omega
  have zero := not_duplicate_of_kept duplicate
    (show (⟨0xD000000C, 16, true⟩ : Block) ∈ freeThenUsedBlocks 16 by decide) different overwritten
  exact absurd zero (by decide)

end Dbos.Strdup
