import Dbos.Foundation.Tokens
import Dbos.Libraries.Sscanf

/-! # The tokens of the calculator

`tokenize` stores the tokens of a line in an array of 64 pointers, each with its text in a
block of 32 bytes. A store outside of the array or of a block is no step of the model. -/

namespace Dbos.Calc

def maxTokLen : Nat := 32
def maxTokens : Nat := 64

/-! ## Symbols -/

/-- The symbols in front of `inval_f` that stand for functions. -/
inductive Func where
  | ceil | fmod | floor | fabs | atan | acos | asin | atan2 | cos | sin | tan | cosh | sinh | tanh
  | sqrt | log | log10 | log2 | cbrt | trunc
deriving DecidableEq

inductive Symbol where
  | add | sub | mul | exp | lpar | rpar | dig | div | dec | txt | comma | num | inval | eof
deriving DecidableEq

/-- `IS_ALPHA`. -/
def isAlpha (c : UInt8) : Bool := (0x61 ≤ c && c ≤ 0x7A) || (0x41 ≤ c && c ≤ 0x5A)

def symbol (c : UInt8) : Symbol :=
  if Stdio.isdigit c then .dig
  else if isAlpha c then .txt
  else if c = 0x2B then .add
  else if c = 0x2D then .sub
  else if c = 0x2A then .mul
  else if c = 0x2F then .div
  else if c = 0x5E then .exp
  else if c = 0x28 then .lpar
  else if c = 0x29 then .rpar
  else if c = 0x2E then .dec
  else if c = 0x2C then .comma
  else .inval

theorem symbol_ne_eof (c : UInt8) : symbol c ≠ .eof := by
  unfold symbol
  repeat first | apply iteInduction (motive := (· ≠ Symbol.eof)) <;> intro _ | nofun

/-- The names that `get_func` compares with, in its order. -/
def funcNames : List (List UInt8 × Func) := [
  ([0x63, 0x65, 0x69, 0x6C], .ceil), ([0x66, 0x6D, 0x6F, 0x64], .fmod),
  ([0x66, 0x6C, 0x6F, 0x6F, 0x72], .floor), ([0x66, 0x61, 0x62, 0x73], .fabs),
  ([0x61, 0x74, 0x61, 0x6E], .atan), ([0x61, 0x63, 0x6F, 0x73], .acos),
  ([0x61, 0x73, 0x69, 0x6E], .asin), ([0x61, 0x74, 0x61, 0x6E, 0x32], .atan2),
  ([0x63, 0x6F, 0x73], .cos), ([0x73, 0x69, 0x6E], .sin), ([0x74, 0x61, 0x6E], .tan),
  ([0x63, 0x6F, 0x73, 0x68], .cosh), ([0x73, 0x69, 0x6E, 0x68], .sinh),
  ([0x74, 0x61, 0x6E, 0x68], .tanh), ([0x73, 0x71, 0x72, 0x74], .sqrt),
  ([0x6C, 0x6F, 0x67], .log), ([0x6C, 0x6F, 0x67, 0x31, 0x30], .log10),
  ([0x6C, 0x6F, 0x67, 0x32], .log2), ([0x63, 0x62, 0x72, 0x74], .cbrt),
  ([0x74, 0x72, 0x75, 0x6E, 0x63], .trunc)]

/-- `get_func`; `none` is `inval_f`. -/
def getFunc (txt : List UInt8) : Option Func :=
  (funcNames.find? fun entry => entry.1 = txt).map Prod.snd

/-! ## The state -/

/-- Blocks are numbered in the order in which `malloc` hands them out. -/
structure Heap where
  next : Nat
  live : List Nat

def Heap.malloc (heap : Heap) : Nat × Heap :=
  (heap.next, ⟨heap.next + 1, heap.next :: heap.live⟩)

/-- A block is freed once, after `malloc` has handed it out. -/
def Heap.free (heap : Heap) (block : Nat) : Option Heap :=
  if block ∈ heap.live then some { heap with live := heap.live.erase block } else none

structure Token where
  symbol : Symbol
  txt : List UInt8
deriving DecidableEq

/-- What a pointer in `tokens` points to: a token in a block, with its text in another
one, or `eof_token`, which is in no block and neither is its text. -/
structure Slot where
  token : Token
  blocks : Option (Nat × Nat)

def eofToken : Token := ⟨.eof, [0x45, 0x4F, 0x46]⟩

/-- The heap and the first `tokens_len` pointers. -/
structure State where
  heap : Heap
  tokens : List Slot

/-- `tokens[tokens_len - 1]->symbol`, if there is a token. -/
def State.lastSymbol (state : State) : Option Symbol :=
  state.tokens.getLast?.map fun slot => slot.token.symbol

/-- `tokens[tokens_len] = slot; tokens_len++`. -/
def State.store (state : State) (slot : Slot) : Option State :=
  if state.tokens.length < maxTokens then some { state with tokens := state.tokens ++ [slot] }
  else none

/-! ## `tokenize` -/

def continuesNumber (c : UInt8) : Bool := symbol c = .dig || symbol c = .dec

def continuesName (c : UInt8) : Bool := symbol c = .txt || symbol c = .dig

/-- The `switch`: the symbol of the token that starts with the character, and the
characters that its loop goes on with. Digits behind a name are part of a name. -/
def tokenKind (last : Option Symbol) (ch : UInt8) : Symbol × (UInt8 → Bool) :=
  match symbol ch with
  | .dig => if last = some .txt then (.txt, continuesName) else (.num, continuesNumber)
  | .txt => (.txt, continuesName)
  | symb => (symb, fun _ => false)

/-- `for (; accepts(*_str) && len < MAX_TOK_LEN; len++)` with room for so many characters
more: those that it takes, and the string behind them. -/
def takeChars (accepts : UInt8 → Bool) : (room : Nat) → List UInt8 → List UInt8 × List UInt8
  | 0, str => ([], str)
  | _ + 1, [] => ([], [])
  | room + 1, ch :: str =>
      if accepts ch then
        let (taken, rest) := takeChars accepts room str
        (ch :: taken, rest)
      else ([], ch :: str)

/-- The loop of `tokenize`, where `tmp` is the block for the next token. It returns `false`
for `-1`. -/
def tokenizeLoop : (fuel : Nat) → (tmp : Nat) → State → List UInt8 → Option (Bool × State)
  | 0, _, _, _ => none
  | _ + 1, _, state, [] => some (true, state)
  | fuel + 1, tmp, state, ch :: str =>
      if ch = 0x20 then tokenizeLoop fuel tmp state str
      else if symbol ch = .inval then some (false, state)
      else
        let (txtBlock, heap) := state.heap.malloc
        let (symb, accepts) := tokenKind state.lastSymbol ch
        let (taken, rest) := takeChars accepts (maxTokLen - 1) str
        -- The `NUL` behind the text has to be in the block.
        if maxTokLen ≤ (ch :: taken).length then none
        else if symb = .txt ∧ getFunc (ch :: taken) = none then some (false, { state with heap })
        else
          let slot : Slot := ⟨⟨symb, ch :: taken⟩, some (txtBlock, tmp)⟩
          ({ state with heap } : State).store slot |>.bind fun stored =>
            let (next, heap) := stored.heap.malloc
            tokenizeLoop fuel next { stored with heap } rest

def tokenize (state : State) (str : List UInt8) : Option (Bool × State) :=
  let (tmp, heap) := state.heap.malloc
  (tokenizeLoop (str.length + 1) tmp { state with heap } str).bind fun (complete, state) =>
    if complete then (state.store ⟨eofToken, none⟩).map fun state => (true, state)
    else some (false, state)

/-! ## Lexemes -/

/-- How a string ends: it is made of lexemes, or there is a character that starts none, or
letters that are no name of a function. -/
inductive Ending where
  | complete
  | badCharacter
  | badName (txt : List UInt8)
deriving DecidableEq

/-- The text of a token that starts with the character, if nothing limits it. -/
def wordAt (last : Option Symbol) (ch : UInt8) (str : List UInt8) : List UInt8 :=
  ch :: str.takeWhile (tokenKind last ch).2

/-- The lexemes of a string, each as long as it can be. -/
def lexemesFrom : (fuel : Nat) → (last : Option Symbol) → List UInt8 → List Token × Ending
  | 0, _, _ => ([], .complete)
  | _ + 1, _, [] => ([], .complete)
  | fuel + 1, last, ch :: str =>
      if ch = 0x20 then lexemesFrom fuel last str
      else if symbol ch = .inval then ([], .badCharacter)
      else
        let (symb, accepts) := tokenKind last ch
        let txt := wordAt last ch str
        if symb = .txt ∧ getFunc txt = none then ([], .badName txt)
        else
          let (tokens, ending) := lexemesFrom fuel (some symb) (str.dropWhile accepts)
          (⟨symb, txt⟩ :: tokens, ending)

def lexemes (str : List UInt8) : List Token × Ending := lexemesFrom (str.length + 1) none str

/-- Every lexeme fits in the block for a text, and the array has room for the tokens. -/
structure Fits (room : Nat) (lexed : List Token × Ending) : Prop where
  tokens : ∀ token ∈ lexed.1, token.txt.length < maxTokLen
  name : ∀ txt, lexed.2 = .badName txt → txt.length < maxTokLen
  count : lexed.1.length ≤ room

theorem takeChars_eq (accepts : UInt8 → Bool) (room : Nat) (str : List UInt8) :
    takeChars accepts room str =
      ((str.takeWhile accepts).take room, str.drop ((str.takeWhile accepts).take room).length) := by
  induction room generalizing str with
  | zero => simp [takeChars]
  | succ room induction =>
      cases str with
      | nil => rfl
      | cons ch str =>
          rw [takeChars, induction]
          by_cases accepted : accepts ch = true
          · rw [if_pos accepted, List.takeWhile_cons_of_pos accepted]
            rfl
          · rw [if_neg accepted, List.takeWhile_cons_of_neg accepted]
            rfl

theorem takeChars_of_short {accepts : UInt8 → Bool} {room : Nat} {str : List UInt8}
    (short : (str.takeWhile accepts).length ≤ room) :
    takeChars accepts room str = (str.takeWhile accepts, str.dropWhile accepts) := by
  rw [takeChars_eq, List.take_of_length_le short, Tokens.drop_length_takeWhile]

/-! ## What `tokenize` stores -/

def blocksOf (tokens : List Slot) : List Nat :=
  tokens.flatMap fun slot => slot.blocks.elim [] fun (txt, token) => [txt, token]

/-- Different blocks that are in use. -/
structure Owned (heap : Heap) (blocks : List Nat) : Prop where
  nodup : blocks.Nodup
  live : ∀ block ∈ blocks, block ∈ heap.live
  old : ∀ block ∈ blocks, block < heap.next

theorem Owned.malloc {heap : Heap} {blocks : List Nat} (owned : Owned heap blocks) :
    Owned heap.malloc.2 (heap.malloc.1 :: blocks) where
  nodup := List.nodup_cons.mpr ⟨fun isMember => Nat.lt_irrefl _ (owned.old _ isMember), owned.nodup⟩
  live block isMember := by
    rcases List.mem_cons.mp isMember with rfl | later
    · exact List.mem_cons_self
    · exact List.mem_cons_of_mem _ (owned.live _ later)
  old block isMember := by
    rcases List.mem_cons.mp isMember with rfl | later
    · exact Nat.lt_succ_self _
    · exact Nat.lt_succ_of_lt (owned.old _ later)

theorem Owned.of_perm {heap : Heap} {blocks others : List Nat} (owned : Owned heap blocks)
    (perm : others.Perm blocks) : Owned heap others where
  nodup := perm.nodup_iff.mpr owned.nodup
  live block isMember := owned.live block (perm.mem_iff.mp isMember)
  old block isMember := owned.old block (perm.mem_iff.mp isMember)

theorem Owned.of_sublist {heap : Heap} {blocks others : List Nat} (owned : Owned heap blocks)
    (sublist : others.Sublist blocks) : Owned heap others where
  nodup := owned.nodup.sublist sublist
  live block isMember := owned.live block (sublist.subset isMember)
  old block isMember := owned.old block (sublist.subset isMember)

def State.push (state : State) (tmp : Nat) (token : Token) : State where
  heap := state.heap.malloc.2.malloc.2
  tokens := state.tokens ++ [⟨token, some (state.heap.malloc.1, tmp)⟩]

@[simp] theorem State.lastSymbol_push (state : State) (tmp : Nat) (token : Token) :
    (state.push tmp token).lastSymbol = some token.symbol := by
  simp [State.push, State.lastSymbol]

@[simp] theorem State.length_push (state : State) (tmp : Nat) (token : Token) :
    (state.push tmp token).tokens.length = state.tokens.length + 1 := by
  simp [State.push]

section Round

variable {fuel tmp : Nat} {state : State} {ch : UInt8} {str : List UInt8}

theorem tokenizeLoop_space :
    tokenizeLoop (fuel + 1) tmp state (0x20 :: str) = tokenizeLoop fuel tmp state str := by
  rw [tokenizeLoop, if_pos rfl]

theorem tokenizeLoop_inval (notSpace : ch ≠ 0x20) (invalid : symbol ch = .inval) :
    tokenizeLoop (fuel + 1) tmp state (ch :: str) = some (false, state) := by
  rw [tokenizeLoop, if_neg notSpace, if_pos invalid]

variable (notSpace : ch ≠ 0x20) (valid : symbol ch ≠ .inval)

include notSpace valid

theorem tokenizeLoop_long (long : maxTokLen ≤ (wordAt state.lastSymbol ch str).length) :
    tokenizeLoop (fuel + 1) tmp state (ch :: str) = none := by
  rw [wordAt, List.length_cons] at long
  have taken : maxTokLen ≤
      (ch :: (takeChars (tokenKind state.lastSymbol ch).2 (maxTokLen - 1) str).1).length := by
    rw [takeChars_eq, List.length_cons, List.length_take]
    omega
  rw [tokenizeLoop, if_neg notSpace, if_neg valid]
  exact if_pos taken

theorem tokenizeLoop_short (short : (wordAt state.lastSymbol ch str).length < maxTokLen) :
    tokenizeLoop (fuel + 1) tmp state (ch :: str) =
      if (tokenKind state.lastSymbol ch).1 = .txt ∧
          getFunc (wordAt state.lastSymbol ch str) = none then
        some (false, { state with heap := state.heap.malloc.2 })
      else if state.tokens.length < maxTokens then
        tokenizeLoop fuel state.heap.malloc.2.next
          (state.push tmp ⟨(tokenKind state.lastSymbol ch).1, wordAt state.lastSymbol ch str⟩)
          (str.dropWhile (tokenKind state.lastSymbol ch).2)
      else none := by
  rw [wordAt, List.length_cons] at short
  have taken := @takeChars_of_short (tokenKind state.lastSymbol ch).2 (maxTokLen - 1) str
    (by omega)
  rw [tokenizeLoop, if_neg notSpace, if_neg valid]
  simp only [taken, List.length_cons]
  rw [if_neg (by omega)]
  unfold wordAt State.store
  congr 1
  by_cases room : state.tokens.length < maxTokens
  · rw [if_pos room, if_pos room]
    rfl
  · rw [if_neg room, if_neg room]
    rfl

end Round

theorem fits_cons {room : Nat} {token : Token} {lexed : List Token × Ending} :
    Fits room (token :: lexed.1, lexed.2) ↔
      token.txt.length < maxTokLen ∧ 0 < room ∧ Fits (room - 1) lexed := by
  constructor
  · intro fits
    have count := fits.count
    rw [List.length_cons] at count
    refine ⟨fits.tokens token List.mem_cons_self, by omega, ⟨?_, fits.name, by omega⟩⟩
    intro other isMember
    exact fits.tokens other (List.mem_cons_of_mem _ isMember)
  · rintro ⟨short, positive, fits⟩
    refine ⟨?_, fits.name, ?_⟩
    · intro other isMember
      rcases List.mem_cons.mp isMember with rfl | later
      · exact short
      · exact fits.tokens other later
    · have count := fits.count
      rw [List.length_cons]
      omega

theorem fits_nil {room : Nat} {ending : Ending}
    (name : ∀ txt, ending = .badName txt → txt.length < maxTokLen) : Fits room ([], ending) where
  tokens _ isMember := nomatch isMember
  name := name
  count := Nat.zero_le _

/-- A store outside of the array or of a block happens unless all fits. -/
theorem tokenizeLoop_of_not_fits {fuel tmp : Nat} {state : State} {str : List UInt8}
    (enough : str.length < fuel)
    (tooMuch : ¬Fits (maxTokens - state.tokens.length) (lexemesFrom fuel state.lastSymbol str)) :
    tokenizeLoop fuel tmp state str = none := by
  induction fuel generalizing tmp state str with
  | zero => rfl
  | succ fuel induction =>
      cases str with
      | nil => exact absurd (fits_nil fun txt same => by cases same) tooMuch
      | cons ch str =>
          rw [List.length_cons] at enough
          by_cases isSpace : ch = 0x20
          · rw [isSpace, lexemesFrom, if_pos rfl] at tooMuch
            rw [isSpace, tokenizeLoop_space]
            exact induction (by omega) tooMuch
          rw [lexemesFrom, if_neg isSpace] at tooMuch
          by_cases invalid : symbol ch = .inval
          · rw [if_pos invalid] at tooMuch
            exact absurd (fits_nil fun txt same => by cases same) tooMuch
          rw [if_neg invalid] at tooMuch
          rcases Nat.lt_or_ge (wordAt state.lastSymbol ch str).length maxTokLen with short | long
          · rw [tokenizeLoop_short isSpace invalid short]
            by_cases unknown : (tokenKind state.lastSymbol ch).1 = .txt ∧
                getFunc (wordAt state.lastSymbol ch str) = none
            · simp only [if_pos unknown] at tooMuch
              refine absurd (fits_nil fun txt same => ?_) tooMuch
              cases same
              exact short
            · simp only [if_neg unknown] at tooMuch
              rw [if_neg unknown]
              split
              case isFalse => rfl
              case isTrue room =>
                have shorter := List.length_dropWhile_le (tokenKind state.lastSymbol ch).2 str
                refine induction (by omega) fun fits => tooMuch ?_
                rw [State.lastSymbol_push, State.length_push] at fits
                exact fits_cons.mpr ⟨short, by omega, by rwa [Nat.sub_sub]⟩
          · exact tokenizeLoop_long isSpace invalid long

/-- What the loop has stored: the tokens, in blocks of their own. -/
structure Stored (before after : State) (tokens : List Token) : Prop where
  added : ∃ slots, after.tokens = before.tokens ++ slots ∧ slots.map Slot.token = tokens ∧
    ∀ slot ∈ slots, slot.blocks.isSome = true
  owned : Owned after.heap (blocksOf after.tokens)

theorem blocksOf_append (tokens others : List Slot) :
    blocksOf (tokens ++ others) = blocksOf tokens ++ blocksOf others := by
  unfold blocksOf
  exact List.flatMap_append

theorem Owned.push {state : State} {tmp : Nat}
    (owned : Owned state.heap (tmp :: blocksOf state.tokens)) (token : Token) :
    Owned (state.push tmp token).heap
      (state.heap.malloc.2.next :: blocksOf (state.push tmp token).tokens) := by
  refine (owned.malloc.malloc).of_perm (List.Perm.cons _ ?_)
  unfold State.push
  rw [blocksOf_append]
  exact List.perm_append_comm

theorem Stored.of_push {state after : State} {tmp : Nat} {token : Token} {tokens : List Token}
    (stored : Stored (state.push tmp token) after tokens) :
    Stored state after (token :: tokens) := by
  obtain ⟨slots, same, texts, inBlocks⟩ := stored.added
  refine ⟨⟨⟨token, some (state.heap.malloc.1, tmp)⟩ :: slots, ?_, ?_, ?_⟩, stored.owned⟩
  · rw [same]
    unfold State.push
    rw [List.append_assoc]
    rfl
  · rw [List.map_cons, texts]
  · intro slot isMember
    rcases List.mem_cons.mp isMember with rfl | later
    · rfl
    · exact inBlocks slot later

theorem Stored.nothing {state : State} {heap : Heap}
    (owned : Owned heap (blocksOf state.tokens)) : Stored state { state with heap } [] :=
  ⟨⟨[], (List.append_nil _).symm, rfl, nofun⟩, owned⟩

theorem tokenizeLoop_of_fits {fuel tmp : Nat} {state : State} {str : List UInt8}
    (enough : str.length < fuel) (owned : Owned state.heap (tmp :: blocksOf state.tokens))
    (fits : Fits (maxTokens - state.tokens.length) (lexemesFrom fuel state.lastSymbol str)) :
    ∃ after, tokenizeLoop fuel tmp state str =
        some (decide ((lexemesFrom fuel state.lastSymbol str).2 = .complete), after) ∧
      Stored state after (lexemesFrom fuel state.lastSymbol str).1 := by
  induction fuel generalizing tmp state str with
  | zero => exact absurd enough (Nat.not_lt_zero _)
  | succ fuel induction =>
      have unchanged := Stored.nothing (owned.of_sublist (List.sublist_cons_self _ _))
      cases str with
      | nil => exact ⟨state, rfl, unchanged⟩
      | cons ch str =>
          rw [List.length_cons] at enough
          by_cases isSpace : ch = 0x20
          · rw [isSpace, lexemesFrom, if_pos rfl] at fits ⊢
            rw [tokenizeLoop_space]
            exact induction (by omega) owned fits
          rw [lexemesFrom, if_neg isSpace] at fits ⊢
          by_cases invalid : symbol ch = .inval
          · rw [if_pos invalid, tokenizeLoop_inval isSpace invalid]
            exact ⟨state, rfl, unchanged⟩
          rw [if_neg invalid] at fits ⊢
          by_cases unknown : (tokenKind state.lastSymbol ch).1 = .txt ∧
              getFunc (wordAt state.lastSymbol ch str) = none
          · simp only [if_pos unknown] at fits ⊢
            rw [tokenizeLoop_short isSpace invalid (fits.name _ rfl), if_pos unknown]
            exact ⟨_, rfl, .nothing (owned.malloc.of_sublist
              ((List.sublist_cons_self _ _).trans (List.sublist_cons_self _ _)))⟩
          · simp only [if_neg unknown] at fits ⊢
            obtain ⟨short, positive, rest⟩ := fits_cons.mp fits
            rw [tokenizeLoop_short isSpace invalid short, if_neg unknown, if_pos (by omega)]
            have shorter := List.length_dropWhile_le (tokenKind state.lastSymbol ch).2 str
            rw [Nat.sub_sub, ← State.length_push state tmp ⟨_, wordAt state.lastSymbol ch str⟩,
              ← State.lastSymbol_push state tmp ⟨_, wordAt state.lastSymbol ch str⟩] at rest
            obtain ⟨after, isAfter, stored⟩ := induction (by omega) (owned.push _) rest
            rw [State.lastSymbol_push] at isAfter stored
            exact ⟨after, isAfter, stored.of_push⟩

/-- All of the line fits, with the end marker behind it if it is complete. -/
def FitsLine (str : List UInt8) : Prop :=
  Fits maxTokens (lexemes str) ∧
    ((lexemes str).2 = .complete → (lexemes str).1.length < maxTokens)

theorem Owned.nil (heap : Heap) : Owned heap [] := ⟨List.nodup_nil, nofun, nofun⟩

section Line

variable (heap : Heap) {str : List UInt8}

theorem tokenizeLoop_line (fits : Fits maxTokens (lexemes str)) :
    ∃ after, tokenizeLoop (str.length + 1) heap.malloc.1 ⟨heap.malloc.2, []⟩ str =
        some (decide ((lexemes str).2 = .complete), after) ∧
      Stored ⟨heap.malloc.2, []⟩ after (lexemes str).1 :=
  @tokenizeLoop_of_fits _ _ ⟨heap.malloc.2, []⟩ _ (Nat.lt_succ_self _) (Owned.nil heap).malloc fits

theorem tokenize_incomplete (fits : FitsLine str) (incomplete : (lexemes str).2 ≠ .complete) :
    ∃ after, tokenize ⟨heap, []⟩ str = some (false, after) ∧
      Stored ⟨heap.malloc.2, []⟩ after (lexemes str).1 := by
  obtain ⟨after, isAfter, stored⟩ := tokenizeLoop_line heap fits.1
  refine ⟨after, ?_, stored⟩
  unfold tokenize
  simp only [isAfter, incomplete, decide_false, Option.bind_some, Bool.false_eq_true, if_false]

theorem tokenize_complete (fits : FitsLine str) (complete : (lexemes str).2 = .complete) :
    ∃ after slots, tokenize ⟨heap, []⟩ str = some (true, after) ∧
      after.tokens = slots ++ [⟨eofToken, none⟩] ∧ slots.map Slot.token = (lexemes str).1 := by
  obtain ⟨after, isAfter, stored⟩ := tokenizeLoop_line heap fits.1
  obtain ⟨slots, same, texts, -⟩ := stored.added
  rw [List.nil_append] at same
  have room : after.tokens.length < maxTokens := by
    have count := fits.2 complete
    rwa [← texts, List.length_map, ← same] at count
  refine ⟨{ after with tokens := after.tokens ++ [⟨eofToken, none⟩] }, slots, ?_, ?_, texts⟩
  · unfold tokenize State.store
    simp only [isAfter, complete, decide_true, Option.bind_some, if_true, if_pos room,
      Option.map_some]
  · rw [same]

theorem tokenize_of_not_fits (tooMuch : ¬FitsLine str) : tokenize ⟨heap, []⟩ str = none := by
  unfold tokenize
  by_cases fits : Fits maxTokens (lexemes str)
  · obtain ⟨after, isAfter, stored⟩ := tokenizeLoop_line heap fits
    obtain ⟨slots, same, texts, -⟩ := stored.added
    unfold FitsLine at tooMuch
    simp only [fits, true_and, Classical.not_imp, Nat.not_lt] at tooMuch
    obtain ⟨complete, full⟩ := tooMuch
    rw [← texts, List.length_map, ← List.nil_append slots, ← same] at full
    unfold State.store
    simp only [isAfter, complete, decide_true, Option.bind_some, if_true,
      if_neg (Nat.not_lt.mpr full), Option.map_none]
  · have stuck := @tokenizeLoop_of_not_fits (str.length + 1) heap.malloc.1 ⟨heap.malloc.2, []⟩ str
      (Nat.lt_succ_self _) fits
    simp only [stuck, Option.bind_none]

end Line

end Dbos.Calc
