import Mathlib.Data.List.Chain
import Mathlib.Data.List.TakeDrop
import Mathlib.Data.List.TakeWhile

/-! # Tokens of a list

A list is cut into tokens at a delimiter. Delimiters in a row, in front or at the end, make
no empty tokens. Each token has its place, counted from where the list starts. -/

namespace Dbos.Tokens

theorem drop_length_takeWhile {α : Type} (accept : α → Bool) (text : List α) :
    text.drop (text.takeWhile accept).length = text.dropWhile accept := by
  have dropped : (text.takeWhile accept ++ text.dropWhile accept).drop
      (text.takeWhile accept).length = text.dropWhile accept := List.drop_left
  rwa [List.takeWhile_append_dropWhile] at dropped

variable {α : Type} [DecidableEq α] (delimiter : α)

def leading (text : List α) : Nat := (text.takeWhile (· = delimiter)).length

/-- The first token. -/
def token (text : List α) : List α :=
  (text.dropWhile (· = delimiter)).takeWhile (· ≠ delimiter)

/-- What stands behind the first token, with the delimiter that ends it. -/
def behind (text : List α) : List α :=
  (text.dropWhile (· = delimiter)).dropWhile (· ≠ delimiter)

/-- What is left after the first token and the delimiter that ends it. -/
def rest (text : List α) : List α := (behind delimiter text).drop 1

variable {delimiter}

theorem length_split (text : List α) :
    leading delimiter text + (token delimiter text).length + (behind delimiter text).length =
      text.length := by
  unfold leading token behind
  have outer := congrArg List.length (List.takeWhile_append_dropWhile
    (p := (· = delimiter)) (l := text))
  have inner := congrArg List.length (List.takeWhile_append_dropWhile
    (p := (· ≠ delimiter)) (l := text.dropWhile (· = delimiter)))
  rw [List.length_append] at outer inner
  omega

theorem drop_leading (text : List α) :
    text.drop (leading delimiter text) = text.dropWhile (· = delimiter) :=
  drop_length_takeWhile _ text

theorem drop_token (text : List α) :
    text.drop (leading delimiter text + (token delimiter text).length) =
      behind delimiter text := by
  rw [← List.drop_drop, drop_leading]
  exact drop_length_takeWhile _ _

theorem drop_rest (text : List α) :
    text.drop (text.length - (rest delimiter text).length) = rest delimiter text := by
  have isSuffix : rest delimiter text <:+ text := by
    unfold rest
    rw [← drop_token, List.drop_drop]
    exact List.drop_suffix _ _
  exact (List.suffix_iff_eq_drop.mp isSuffix).symm

theorem notMem_token (text : List α) : delimiter ∉ token delimiter text := fun isMember => by
  have different := List.mem_takeWhile_imp isMember
  simp at different

theorem token_eq_nil_iff {text : List α} :
    token delimiter text = [] ↔ ∀ item ∈ text, item = delimiter := by
  unfold token
  rw [List.takeWhile_eq_nil_iff]
  constructor
  · intro stops item isMember
    by_contra different
    have nonempty : 0 < (text.dropWhile (· = delimiter)).length := by
      rw [List.length_pos_iff, Ne, List.dropWhile_eq_nil_iff]
      intro all
      exact different (by simpa using all item isMember)
    have head := List.head_dropWhile_not (· = delimiter) (List.length_pos_iff.mp nonempty)
    have isFirst := stops nonempty
    rw [List.head_eq_getElem] at head
    simp [head] at isFirst
  · intro all nonempty
    have isNil : text.dropWhile (· = delimiter) = [] := by
      rw [List.dropWhile_eq_nil_iff]
      simpa using all
    rw [isNil] at nonempty
    cases nonempty

theorem length_rest_lt {text : List α} (found : token delimiter text ≠ []) :
    (rest delimiter text).length < text.length := by
  have split := @length_split _ _ delimiter text
  have positive := List.length_pos_iff.mpr found
  unfold rest
  rw [List.length_drop]
  omega

theorem behind_eq (text : List α) :
    behind delimiter text = [] ∧ rest delimiter text = [] ∨
      behind delimiter text = delimiter :: rest delimiter text := by
  cases isBehind : behind delimiter text with
  | nil =>
      left
      unfold rest
      rw [isBehind]
      exact ⟨rfl, rfl⟩
  | cons item more =>
      right
      have nonempty : (text.dropWhile (· = delimiter)).dropWhile (· ≠ delimiter) ≠ [] := by
        unfold behind at isBehind
        rw [isBehind]
        exact List.cons_ne_nil _ _
      have stops := List.head_dropWhile_not (· ≠ delimiter) nonempty
      have isHead : item = delimiter := by
        unfold behind at isBehind
        simp only [isBehind, List.head_cons] at stops
        simpa using stops
      unfold rest
      rw [isBehind, isHead]
      rfl

variable (delimiter)

def tokensAt (start : Nat) (text : List α) : List (Nat × List α) :=
  if token delimiter text = [] then []
  else
    (start + leading delimiter text, token delimiter text) ::
      tokensAt (start + (text.length - (rest delimiter text).length)) (rest delimiter text)
termination_by text.length
decreasing_by exact length_rest_lt (by assumption)

def tokensOf (text : List α) : List (List α) := (tokensAt delimiter 0 text).map Prod.snd

variable {delimiter}

theorem tokensAt_of_token {start : Nat} {text : List α} (found : token delimiter text ≠ []) :
    tokensAt delimiter start text =
      (start + leading delimiter text, token delimiter text) ::
        tokensAt delimiter (start + (text.length - (rest delimiter text).length))
          (rest delimiter text) := by
  rw [tokensAt, if_neg found]

theorem tokensAt_of_nil {start : Nat} {text : List α} (isNil : token delimiter text = []) :
    tokensAt delimiter start text = [] := by
  rw [tokensAt, if_pos isNil]

theorem map_snd_tokensAt (start : Nat) (text : List α) :
    (tokensAt delimiter start text).map Prod.snd = tokensOf delimiter text := by
  unfold tokensOf
  generalize 0 = other
  fun_induction tokensAt delimiter start text generalizing other with
  | case1 start text isNil => rw [tokensAt_of_nil isNil]
  | case2 start text found induction =>
      rw [tokensAt_of_token found, List.map_cons, List.map_cons, induction]

theorem mem_of_mem_tokensAt {start : Nat} {text : List α} {found : Nat × List α}
    (isMember : found ∈ tokensAt delimiter start text) {item : α} (inside : item ∈ found.2) :
    item ∈ text ∧ item ≠ delimiter := by
  fun_induction tokensAt delimiter start text with
  | case1 => cases isMember
  | case2 start text nonempty induction =>
      rcases List.mem_cons.mp isMember with rfl | later
      · refine ⟨?_, fun same => notMem_token text (same ▸ inside)⟩
        exact (List.dropWhile_suffix _).subset ((List.takeWhile_prefix _).subset inside)
      · rcases induction later with ⟨isItem, different⟩
        rw [← drop_rest] at isItem
        exact ⟨List.mem_of_mem_drop isItem, different⟩

/-! ## Text that is made of tokens -/

theorem token_append_delimiter {piece more : List α} (nonempty : piece ≠ [])
    (apart : delimiter ∉ piece) :
    leading delimiter (piece ++ delimiter :: more) = 0 ∧
      token delimiter (piece ++ delimiter :: more) = piece ∧
      rest delimiter (piece ++ delimiter :: more) = more := by
  cases piece with
  | nil => exact absurd rfl nonempty
  | cons head tail =>
      rw [List.mem_cons, not_or] at apart
      have different : ¬head = delimiter := fun same => apart.1 same.symm
      have all : ∀ item ∈ tail, decide (item ≠ delimiter) = true := fun item isMember =>
        decide_eq_true fun same => apart.2 (same ▸ isMember)
      unfold rest behind leading token
      simp only [List.cons_append, different, decide_false, Bool.false_eq_true, not_false_eq_true,
        List.takeWhile_cons_of_neg, List.dropWhile_cons_of_neg, List.length_nil]
      refine ⟨trivial, ?_, ?_⟩
      · rw [List.takeWhile_cons_of_pos (by simpa using different),
          List.takeWhile_append_of_pos all, List.takeWhile_cons_of_neg (by simp), List.append_nil]
      · rw [List.dropWhile_cons_of_pos (by simpa using different),
          List.dropWhile_append_of_pos all, List.dropWhile_cons_of_neg (by simp)]
        rfl

theorem token_self {piece : List α} (nonempty : piece ≠ []) (apart : delimiter ∉ piece) :
    leading delimiter piece = 0 ∧ token delimiter piece = piece ∧ rest delimiter piece = [] := by
  cases piece with
  | nil => exact absurd rfl nonempty
  | cons head tail =>
      rw [List.mem_cons, not_or] at apart
      have different : ¬head = delimiter := fun same => apart.1 same.symm
      have all : ∀ item ∈ head :: tail, decide (item ≠ delimiter) = true := by
        intro item isMember
        rcases List.mem_cons.mp isMember with rfl | later
        · exact decide_eq_true different
        · exact decide_eq_true fun same => apart.2 (same ▸ later)
      unfold rest behind leading token
      simp only [different, decide_false, Bool.false_eq_true, not_false_eq_true,
        List.takeWhile_cons_of_neg, List.dropWhile_cons_of_neg, List.length_nil]
      refine ⟨trivial, List.takeWhile_eq_self_iff.mpr all, ?_⟩
      rw [List.dropWhile_eq_nil_iff.mpr all]
      rfl

/-! ## Fields

Each delimiter ends a field, which may be empty. -/

variable (delimiter) in
def fields (text : List α) : List (List α) :=
  if text = [] then []
  else
    text.takeWhile (· ≠ delimiter) ::
      fields (text.drop ((text.takeWhile (· ≠ delimiter)).length + 1))
termination_by text.length
decreasing_by
  have positive := List.length_pos_iff.mpr ‹text ≠ []›
  rw [List.length_drop]
  omega

theorem takeWhile_append_delimiter {piece more : List α} (apart : delimiter ∉ piece) :
    (piece ++ delimiter :: more).takeWhile (· ≠ delimiter) = piece := by
  have all : ∀ item ∈ piece, decide (item ≠ delimiter) = true := fun item isMember =>
    decide_eq_true fun same => apart (same ▸ isMember)
  rw [List.takeWhile_append_of_pos all, List.takeWhile_cons_of_neg (by simp), List.append_nil]

theorem takeWhile_self {piece : List α} (apart : delimiter ∉ piece) :
    piece.takeWhile (· ≠ delimiter) = piece := by
  rw [List.takeWhile_eq_self_iff]
  intro item isMember
  exact decide_eq_true fun same => apart (same ▸ isMember)

@[simp] theorem fields_nil : fields delimiter [] = [] := by
  rw [fields, if_pos rfl]

theorem fields_append {piece more : List α} (apart : delimiter ∉ piece) :
    fields delimiter (piece ++ delimiter :: more) = piece :: fields delimiter more := by
  have behind : (piece ++ delimiter :: more).drop (piece.length + 1) = more := by
    rw [← List.drop_drop, List.drop_left]
    rfl
  rw [fields, if_neg (by simp), takeWhile_append_delimiter apart, behind]

theorem fields_self {piece : List α} (nonempty : piece ≠ []) (apart : delimiter ∉ piece) :
    fields delimiter piece = [piece] := by
  rw [fields, if_neg nonempty, takeWhile_self apart, List.drop_of_length_le (Nat.le_succ _),
    fields_nil]

theorem fields_induction {motive : List α → Prop} (nil : motive [])
    (last : ∀ piece, piece ≠ [] → delimiter ∉ piece → motive piece)
    (field : ∀ piece more, delimiter ∉ piece → motive more → motive (piece ++ delimiter :: more))
    (text : List α) : motive text := by
  induction length : text.length using Nat.strong_induction_on generalizing text with
  | _ size induction =>
      by_cases isMember : delimiter ∈ text
      · obtain ⟨piece, more, rfl, apart⟩ := List.eq_append_cons_of_mem isMember
        rw [List.length_append, List.length_cons] at length
        exact field piece more apart (induction more.length (by omega) more rfl)
      · by_cases empty : text = []
        · exact empty ▸ nil
        · exact last text empty isMember

theorem tokensOf_of_nil {text : List α} (isNil : token delimiter text = []) :
    tokensOf delimiter text = [] := by
  rw [tokensOf, tokensAt_of_nil isNil, List.map_nil]

theorem tokensOf_of_token {text : List α} (found : token delimiter text ≠ []) :
    tokensOf delimiter text =
      token delimiter text :: tokensOf delimiter (rest delimiter text) := by
  rw [tokensOf, tokensAt_of_token found, List.map_cons, map_snd_tokensAt]

theorem tokensOf_cons_delimiter (text : List α) :
    tokensOf delimiter (delimiter :: text) = tokensOf delimiter text := by
  have skips : (delimiter :: text).dropWhile (· = delimiter) = text.dropWhile (· = delimiter) :=
    List.dropWhile_cons_of_pos (decide_eq_true rfl)
  have sameToken : token delimiter (delimiter :: text) = token delimiter text := by
    unfold token
    rw [skips]
  have sameRest : rest delimiter (delimiter :: text) = rest delimiter text := by
    unfold rest behind
    rw [skips]
  by_cases isNil : token delimiter text = []
  · rw [tokensOf_of_nil isNil, tokensOf_of_nil (sameToken.trans isNil)]
  · rw [tokensOf_of_token isNil, tokensOf_of_token (sameToken ▸ isNil), sameToken, sameRest]

theorem filter_fields (text : List α) :
    (fields delimiter text).filter (· ≠ []) = tokensOf delimiter text := by
  induction text using @fields_induction _ _ delimiter with
  | nil =>
      rw [fields_nil, tokensOf_of_nil rfl]
      rfl
  | last piece nonempty apart =>
      obtain ⟨-, isToken, isRest⟩ := token_self nonempty apart
      have found : token delimiter piece ≠ [] := by rwa [isToken]
      rw [fields_self nonempty apart, tokensOf_of_token found, isToken, isRest,
        tokensOf_of_nil rfl]
      simp [nonempty]
  | field piece more apart induction =>
      rw [fields_append apart]
      by_cases empty : piece = []
      · rw [empty, List.nil_append, tokensOf_cons_delimiter, ← induction]
        simp
      · obtain ⟨-, isToken, isRest⟩ := @token_append_delimiter _ _ _ _ more empty apart
        have found : token delimiter (piece ++ delimiter :: more) ≠ [] := by rwa [isToken]
        rw [tokensOf_of_token found, isToken, isRest, ← induction]
        simp [empty]

omit [DecidableEq α] in
theorem isChain_of_notMem {text : List α} (apart : delimiter ∉ text) :
    text.IsChain fun item next => item ≠ delimiter ∨ next ≠ delimiter := by
  induction text with
  | nil => exact List.isChain_nil
  | cons item text induction =>
      rw [List.mem_cons, not_or] at apart
      rw [List.isChain_cons]
      exact ⟨fun _ _ => .inl fun same => apart.1 same.symm, induction apart.2⟩

theorem forall_fields_ne_nil_iff (text : List α) :
    (∀ field ∈ fields delimiter text, field ≠ []) ↔
      text.head? ≠ some delimiter ∧
        text.IsChain fun item next => item ≠ delimiter ∨ next ≠ delimiter := by
  induction text using @fields_induction _ _ delimiter with
  | nil => simp
  | last piece nonempty apart =>
      have head : piece.head? ≠ some delimiter := fun same => apart (List.mem_of_mem_head? same)
      simp [fields_self nonempty apart, nonempty, head, isChain_of_notMem apart]
  | field piece more apart induction =>
      have single : (piece ++ [delimiter]).IsChain
          fun item next => item ≠ delimiter ∨ next ≠ delimiter := by
        rw [List.isChain_append]
        refine ⟨isChain_of_notMem apart, List.isChain_singleton _, ?_⟩
        intro item isLast _ _
        exact .inl fun same => apart (same ▸ List.mem_of_getLast? isLast)
      have next :
          (delimiter :: more).IsChain (fun item next => item ≠ delimiter ∨ next ≠ delimiter) ↔
          ∀ field ∈ fields delimiter more, field ≠ [] := by
        rw [induction, List.isChain_cons]
        refine and_congr_left fun _ => ⟨fun differs same => ?_, fun differs item isHead => ?_⟩
        · simpa using differs delimiter same
        · exact .inr fun same => differs (same ▸ isHead)
      rw [fields_append apart, List.forall_mem_cons, List.isChain_split, next]
      have head : (piece ++ delimiter :: more).head? ≠ some delimiter ↔ piece ≠ [] := by
        cases piece with
        | nil => simp
        | cons item piece =>
            have different : item ≠ delimiter := fun same => apart (same ▸ List.mem_cons_self)
            simp [different]
      rw [head, and_iff_right single]

end Dbos.Tokens
