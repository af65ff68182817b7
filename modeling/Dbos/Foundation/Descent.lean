import Mathlib.Data.List.Basic

/-! # Recursive descent

A parser looks at the next token of a list and goes on behind it when it accepts it. It never
goes back. Nothing here depends on what the tokens and the values are. -/

namespace Dbos.Descent

/-- The result is `none` where there is no next token to look at. Else it has a value unless
the parser rejects, and the tokens from the next one on. -/
def Parse (Token Value : Type) : Type := List Token → Option (Option Value × List Token)

namespace Parse

variable {Token Value Other : Type}

def accept (value : Value) : Parse Token Value := fun tokens => some (some value, tokens)

def reject : Parse Token Value := fun tokens => some (none, tokens)

def bind (first : Parse Token Value) (next : Value → Parse Token Other) : Parse Token Other :=
  fun tokens =>
    match first tokens with
    | none => none
    | some (none, rest) => some (none, rest)
    | some (some value, rest) => next value rest

instance : Monad (Parse Token) where
  pure := accept
  bind := bind

def ofOption : Option Value → Parse Token Value
  | none => reject
  | some value => accept value

def nextToken : Parse Token Token
  | [] => none
  | token :: rest => some (some token, token :: rest)

/-- Go on behind the next token if it is the right one. -/
def acceptIf (isRight : Token → Bool) : Parse Token Unit
  | [] => none
  | token :: rest => if isRight token then some (some (), rest) else some (none, token :: rest)

/-! ## Results -/

@[simp] theorem pure_apply (value : Value) (tokens : List Token) :
    (pure value : Parse Token Value) tokens = some (some value, tokens) := rfl

@[simp] theorem reject_apply (tokens : List Token) :
    (reject : Parse Token Value) tokens = some (none, tokens) := rfl

section Bind

variable {first : Parse Token Value} {next : Value → Parse Token Other} {tokens rest : List Token}

theorem bind_of_accepts {value : Value} (accepts : first tokens = some (some value, rest)) :
    (first >>= next) tokens = next value rest := by
  change bind first next tokens = _
  unfold bind
  rw [accepts]

theorem bind_of_rejects (rejects : first tokens = some (none, rest)) :
    (first >>= next) tokens = some (none, rest) := by
  change bind first next tokens = _
  unfold bind
  rw [rejects]

end Bind

@[simp] theorem nextToken_bind (next : Token → Parse Token Other) (token : Token)
    (rest : List Token) : (nextToken >>= next) (token :: rest) = next token (token :: rest) := rfl

theorem acceptIf_bind {isRight : Token → Bool} {token : Token} (right : isRight token = true)
    (next : Unit → Parse Token Other) (rest : List Token) :
    (acceptIf isRight >>= next) (token :: rest) = next () rest :=
  bind_of_accepts (if_pos right)

theorem acceptIf_bind_of_wrong {isRight : Token → Bool} {token : Token}
    (wrong : isRight token = false) (next : Unit → Parse Token Other) (rest : List Token) :
    (acceptIf isRight >>= next) (token :: rest) = some (none, token :: rest) :=
  bind_of_rejects (if_neg (Bool.eq_false_iff.mp wrong))

/-! ## Rules

The last token is one that is not accepted on the way, so there always is a next token. -/

/-- The parser comes to a result without using up the last token. If it has a value, then
the value is one of the tokens that it went over. -/
def Reads (last : Token) (parser : Parse Token Value) (shape : List Token → Value → Prop)
    (tokens : List Token) : Prop :=
  ∃ result taken rest, parser tokens = some (result, rest) ∧ tokens = taken ++ rest ∧
    [last] <:+ rest ∧ ∀ value, result = some value → shape taken value

section Rules

variable {last : Token} {shape : List Token → Other → Prop} {tokens : List Token}

theorem reads_pure (marked : [last] <:+ tokens) {value : Other} (holds : shape [] value) :
    Reads last (pure value) shape tokens := by
  refine ⟨some value, [], tokens, rfl, rfl, marked, fun other same => ?_⟩
  cases same
  exact holds

theorem reads_reject (marked : [last] <:+ tokens) : Reads last reject shape tokens :=
  ⟨none, [], tokens, rfl, rfl, marked, nofun⟩

theorem reads_ofOption (marked : [last] <:+ tokens) {value : Option Other}
    (holds : ∀ found, value = some found → shape [] found) :
    Reads last (ofOption value) shape tokens := by
  cases value with
  | none => exact reads_reject marked
  | some found => exact reads_pure marked (holds found rfl)

theorem Reads.bind {first : Parse Token Value} {next : Value → Parse Token Other}
    {middle : List Token → Value → Prop} (reads : Reads last first middle tokens)
    (goesOn : ∀ value taken rest, tokens = taken ++ rest → middle taken value → [last] <:+ rest →
      Reads last (next value) (fun more => shape (taken ++ more)) rest) :
    Reads last (first >>= next) shape tokens := by
  obtain ⟨result, taken, rest, isResult, split, marked, holds⟩ := reads
  cases result with
  | none => exact ⟨none, taken, rest, bind_of_rejects isResult, split, marked, nofun⟩
  | some value =>
      obtain ⟨final, more, after, isFinal, again, stillMarked, found⟩ :=
        goesOn value taken rest split (holds value rfl) marked
      refine ⟨final, taken ++ more, after, ?_, ?_, stillMarked, found⟩
      · rw [bind_of_accepts isResult, isFinal]
      · rw [split, again, List.append_assoc]

theorem reads_nextToken_bind {next : Token → Parse Token Other} (marked : [last] <:+ tokens)
    (reads : ∀ token rest, tokens = token :: rest → Reads last (next token) shape tokens) :
    Reads last (nextToken >>= next) shape tokens := by
  cases tokens with
  | nil => simp at marked
  | cons token rest => exact reads token rest rfl

theorem reads_acceptIf_bind {isRight : Token → Bool} {next : Unit → Parse Token Other}
    (notLast : isRight last = false) (marked : [last] <:+ tokens)
    (reads : ∀ token rest, tokens = token :: rest → isRight token = true → [last] <:+ rest →
      Reads last (next ()) (fun more => shape (token :: more)) rest) :
    Reads last (acceptIf isRight >>= next) shape tokens := by
  cases tokens with
  | nil => simp at marked
  | cons token rest =>
      by_cases right : isRight token = true
      · have still : [last] <:+ rest := by
          rcases List.suffix_cons_iff.mp marked with same | still
          · cases same
            rw [notLast] at right
            cases right
          · exact still
        obtain ⟨result, taken, after, isResult, split, stillMarked, holds⟩ :=
          reads token rest rfl right still
        refine ⟨result, token :: taken, after, ?_, ?_, stillMarked, holds⟩
        · rw [acceptIf_bind right, isResult]
        · rw [split, List.cons_append]
      · refine ⟨none, [], token :: rest, ?_, rfl, marked, nofun⟩
        exact acceptIf_bind_of_wrong (Bool.eq_false_iff.mpr right) _ _

end Rules

theorem Reads.mono {last : Token} {parser : Parse Token Value}
    {shape weaker : List Token → Value → Prop} {tokens : List Token}
    (reads : Reads last parser shape tokens)
    (implies : ∀ taken value, shape taken value → weaker taken value) :
    Reads last parser weaker tokens := by
  obtain ⟨result, taken, rest, isResult, split, marked, holds⟩ := reads
  exact ⟨result, taken, rest, isResult, split, marked,
    fun value same => implies taken value (holds value same)⟩

end Parse

end Dbos.Descent
