import Dbos.Userland.Calc.ReadBack

/-! # The buffers of the calculator

`process_request` frees the tokens of the request before, stores new ones and parses them.
The end marker is one of the tokens that are freed, and it is not the last pointer that the
parser reads if it accepts the line. -/

namespace Dbos.Calc

open Stdio

/-! ## Requests -/

/-- `free(token->txt); free(token)`. `eof_token` and its text are in no blocks of the heap. -/
def Heap.freeToken (heap : Heap) (slot : Slot) : Option Heap :=
  slot.blocks.bind fun (txt, token) => (heap.free txt).bind fun heap => heap.free token

/-- `clear_toks`, and `tokens_len = 0` behind it. -/
def clearToks (state : State) : Option State :=
  (state.tokens.foldlM Heap.freeToken state.heap).map fun heap => ⟨heap, []⟩

def trim (str : List UInt8) : List UInt8 :=
  ((str.dropWhile isspace).reverse.dropWhile isspace).reverse

/-- What a request ends with: the value, unless it fails, and `current_idx`, which counts the
pointers that `get_next` has read. -/
structure Outcome (Num : Type) where
  result : Option Num
  currentIdx : Nat

/-- There is no result where something is stored outside of the arrays, or freed without
being in use. -/
def processRequest {Num : Type} (arithmetic : Arithmetic Num) (state : State)
    (req : List UInt8) : Option (Outcome Num × State) :=
  (clearToks state).bind fun state =>
    (tokenize state (trim req)).bind fun (complete, state) =>
      if complete then
        (parse arithmetic (state.tokens.map Slot.token)).map fun (result, rest) =>
          (⟨result, state.tokens.length - rest.length + 1⟩, state)
      else some (⟨none, 0⟩, state)

/-! ## Requests that stay inside the buffers -/

section Requests

variable {Num : Type} (arithmetic : Arithmetic Num)

/-- All requests come to an end, and `get_next` reads stored pointers only. -/
def BuffersSafe : State → List (List UInt8) → Prop
  | _, [] => True
  | state, req :: requests =>
      ∃ outcome after, processRequest arithmetic state req = some (outcome, after) ∧
        outcome.currentIdx ≤ after.tokens.length ∧ BuffersSafe after requests

/-- A line that `tokenize` rejects: a character is no symbol, or letters are no name. -/
def Rejected (req : List UInt8) : Prop := (lexemes (trim req)).2 ≠ .complete

/-- The lexemes of the line are a sentence with a value. -/
def IsSentence (req : List UInt8) : Prop :=
  ∃ value, Derives arithmetic 1 (lexemes (trim req)).1 value

/-- Lexemes and their number are small. All lines are rejected, but the last one may also be
one that is no sentence. -/
def Harmless : List (List UInt8) → Prop
  | [] => True
  | [req] => FitsLine (trim req) ∧ (Rejected req ∨ ¬IsSentence arithmetic req)
  | req :: requests => FitsLine (trim req) ∧ Rejected req ∧ Harmless requests

end Requests

/-! ## Tokens are freed -/

theorem Owned.free {heap : Heap} {block : Nat} {blocks : List Nat}
    (owned : Owned heap (block :: blocks)) :
    ∃ after, heap.free block = some after ∧ Owned after blocks := by
  have parts := List.nodup_cons.mp owned.nodup
  refine ⟨{ heap with live := heap.live.erase block },
    if_pos (owned.live block List.mem_cons_self), parts.2, ?_, ?_⟩
  · intro other isMember
    have different : other ≠ block := fun same => parts.1 (same ▸ isMember)
    exact (List.mem_erase_of_ne different).mpr
      (owned.live other (List.mem_cons_of_mem _ isMember))
  · intro other isMember
    exact owned.old other (List.mem_cons_of_mem _ isMember)

/-- Tokens in blocks of their own can be freed, the end marker cannot. -/
def Clearable (state : State) : Prop :=
  (∀ slot ∈ state.tokens, slot.blocks.isSome = true) ∧ Owned state.heap (blocksOf state.tokens)

theorem foldlM_freeToken {slots : List Slot} {heap : Heap}
    (inBlocks : ∀ slot ∈ slots, slot.blocks.isSome = true)
    (owned : Owned heap (blocksOf slots)) :
    ∃ after, slots.foldlM Heap.freeToken heap = some after := by
  induction slots generalizing heap with
  | nil => exact ⟨heap, rfl⟩
  | cons slot slots induction =>
      obtain ⟨⟨txt, token⟩, isBlocks⟩ :=
        Option.isSome_iff_exists.mp (inBlocks slot List.mem_cons_self)
      have split : blocksOf (slot :: slots) = txt :: token :: blocksOf slots := by
        unfold blocksOf
        rw [List.flatMap_cons, isBlocks]
        rfl
      rw [split] at owned
      obtain ⟨middle, isMiddle, ownedMiddle⟩ := owned.free
      obtain ⟨last, isLast, ownedLast⟩ := ownedMiddle.free
      have freed : heap.freeToken slot = some last := by
        simp only [Heap.freeToken, isBlocks, Option.bind_some, isMiddle, isLast]
      rw [List.foldlM_cons, freed]
      exact induction (fun other isMember => inBlocks other (List.mem_cons_of_mem _ isMember))
        ownedLast

theorem clearToks_of_clearable {state : State} (clearable : Clearable state) :
    ∃ heap, clearToks state = some ⟨heap, []⟩ := by
  obtain ⟨heap, isHeap⟩ := foldlM_freeToken clearable.1 clearable.2
  exact ⟨heap, by rw [clearToks, isHeap, Option.map_some]⟩

theorem clearToks_of_endMarker {state : State} {slots : List Slot}
    (isTokens : state.tokens = slots ++ [⟨eofToken, none⟩]) : clearToks state = none := by
  rw [clearToks, isTokens, List.foldlM_append]
  cases slots.foldlM Heap.freeToken state.heap <;> rfl

theorem Stored.clearable {heap : Heap} {after : State} {tokens : List Token}
    (stored : Stored ⟨heap, []⟩ after tokens) : Clearable after := by
  obtain ⟨slots, same, -, inBlocks⟩ := stored.added
  refine ⟨?_, stored.owned⟩
  rw [same]
  exact inBlocks

/-! ## One request -/

theorem lexemesFrom_noEnd (fuel : Nat) (last : Option Symbol) (str : List UInt8) :
    ∀ token ∈ (lexemesFrom fuel last str).1, token.symbol ≠ .eof := by
  induction fuel generalizing last str with
  | zero => nofun
  | succ fuel induction =>
      cases str with
      | nil => nofun
      | cons ch str =>
          have kind : (tokenKind last ch).1 ≠ .eof := by
            have notEnd := symbol_ne_eof ch
            unfold tokenKind
            split
            · split <;> nofun
            · nofun
            · exact notEnd
          intro token isMember
          rw [lexemesFrom] at isMember
          split at isMember
          · exact induction last str token isMember
          split at isMember
          · cases isMember
          simp only at isMember
          split at isMember
          · cases isMember
          rcases List.mem_cons.mp isMember with rfl | later
          · exact kind
          · exact induction _ _ token later

section Request

variable {Num : Type} {arithmetic : Arithmetic Num} {state : State} {req : List UInt8}

theorem processRequest_of_not_fits (clearable : Clearable state) (tooMuch : ¬FitsLine (trim req)) :
    processRequest arithmetic state req = none := by
  obtain ⟨heap, cleared⟩ := clearToks_of_clearable clearable
  rw [processRequest, cleared, Option.bind_some, tokenize_of_not_fits heap tooMuch]
  rfl

theorem processRequest_of_rejected (clearable : Clearable state) (fits : FitsLine (trim req))
    (rejected : Rejected req) :
    ∃ after, processRequest arithmetic state req = some (⟨none, 0⟩, after) ∧ Clearable after := by
  obtain ⟨heap, cleared⟩ := clearToks_of_clearable clearable
  obtain ⟨after, isAfter, stored⟩ := tokenize_incomplete heap fits rejected
  refine ⟨after, ?_, stored.clearable⟩
  rw [processRequest, cleared, Option.bind_some, isAfter]
  rfl

/-- A line that `tokenize` accepts leaves tokens behind that cannot be freed. It reads a
pointer behind them if it is a sentence. -/
theorem processRequest_of_complete (clearable : Clearable state) (fits : FitsLine (trim req))
    (complete : ¬Rejected req) :
    ∃ outcome after, processRequest arithmetic state req = some (outcome, after) ∧
      clearToks after = none ∧
      (outcome.currentIdx ≤ after.tokens.length ↔ ¬IsSentence arithmetic req) := by
  obtain ⟨heap, cleared⟩ := clearToks_of_clearable clearable
  obtain ⟨after, slots, isAfter, isTokens, texts⟩ :=
    tokenize_complete heap fits (not_not.mp complete)
  have parsed : after.tokens.map Slot.token = (lexemes (trim req)).1 ++ [eofToken] := by
    rw [isTokens, List.map_append, texts]
    rfl
  have positive : 1 ≤ after.tokens.length := by
    rw [isTokens, List.length_append]
    exact Nat.le_add_left 1 _
  have noEnd : ∀ token ∈ (lexemes (trim req)).1, token.symbol ≠ .eof := lexemesFrom_noEnd _ _ _
  rcases @parse_cases _ arithmetic _ noEnd with
    ⟨value, derives, isParsed⟩ | ⟨noValue, rest, isParsed, nonempty⟩
  · refine ⟨⟨some value, after.tokens.length + 1⟩, after, ?_, clearToks_of_endMarker isTokens, ?_⟩
    · rw [processRequest, cleared, Option.bind_some, isAfter, Option.bind_some]
      simp only [if_true, parsed, isParsed, Option.map_some, List.length_nil, Nat.sub_zero]
    · exact ⟨fun inside => absurd inside (Nat.not_succ_le_self _),
        fun noSentence => absurd ⟨value, derives⟩ noSentence⟩
  · refine ⟨⟨none, after.tokens.length - rest.length + 1⟩, after, ?_,
      clearToks_of_endMarker isTokens, ?_⟩
    · rw [processRequest, cleared, Option.bind_some, isAfter, Option.bind_some]
      simp only [if_true, parsed, isParsed, Option.map_some]
    · have some := List.length_pos_iff.mpr nonempty
      refine ⟨fun _ sentence => sentence.elim noValue, fun _ => ?_⟩
      change after.tokens.length - rest.length + 1 ≤ after.tokens.length
      omega

end Request

/-! ## All requests -/

theorem harmless_cons {Num : Type} {arithmetic : Arithmetic Num} (req : List UInt8)
    (requests : List (List UInt8)) :
    Harmless arithmetic (req :: requests) ↔
      FitsLine (trim req) ∧ (Rejected req ∧ Harmless arithmetic requests ∨
        ¬Rejected req ∧ requests = [] ∧ ¬IsSentence arithmetic req) := by
  cases requests with
  | nil =>
      simp only [Harmless, true_and, and_true]
      tauto
  | cons other requests => simp [Harmless]

theorem buffersSafe_of_clearable {Num : Type} {arithmetic : Arithmetic Num} {state : State}
    (clearable : Clearable state) (requests : List (List UInt8)) :
    BuffersSafe arithmetic state requests ↔ Harmless arithmetic requests := by
  induction requests generalizing state with
  | nil => exact Iff.rfl
  | cons req requests induction =>
      rw [harmless_cons, BuffersSafe]
      by_cases fits : FitsLine (trim req)
      case neg => simp [processRequest_of_not_fits clearable fits, fits]
      by_cases rejected : Rejected req
      · obtain ⟨after, isAfter, stillClearable⟩ :=
          @processRequest_of_rejected _ arithmetic _ _ clearable fits rejected
        simp [isAfter, fits, rejected, induction stillClearable]
      · obtain ⟨outcome, after, isAfter, stuck, inside⟩ :=
          @processRequest_of_complete _ arithmetic _ _ clearable fits rejected
        have next : BuffersSafe arithmetic after requests ↔ requests = [] := by
          cases requests with
          | nil => simp [BuffersSafe]
          | cons other requests => simp [BuffersSafe, processRequest, stuck]
        simp [isAfter, fits, rejected, inside, next, and_comm]

theorem buffersSafe_iff {Num : Type} (arithmetic : Arithmetic Num) (heap : Heap)
    (requests : List (List UInt8)) :
    BuffersSafe arithmetic ⟨heap, []⟩ requests ↔ Harmless arithmetic requests :=
  buffersSafe_of_clearable
    ⟨fun _ isMember => absurd isMember List.not_mem_nil, Owned.nil heap⟩ requests

/-- For `1` there are two tokens, and three pointers are read. -/
theorem not_buffersSafe_one : ¬BuffersSafe (exact rationals) ⟨⟨0, []⟩, []⟩ [[0x31]] := by
  rintro ⟨outcome, after, isAfter, inside, -⟩
  have counts : (processRequest (exact rationals) ⟨⟨0, []⟩, []⟩ [0x31]).map
      (fun found => (found.1.currentIdx, found.2.tokens.length)) = some (3, 2) := by
    decide +kernel
  rw [isAfter, Option.map_some, Option.some.injEq, Prod.mk.injEq] at counts
  rw [counts.1, counts.2] at inside
  exact absurd inside (by decide)

end Dbos.Calc
