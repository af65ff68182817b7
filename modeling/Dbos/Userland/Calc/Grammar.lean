import Dbos.Userland.Calc.Parser

/-! # The grammar of the calculator

Sentences are what the functions of the parser accept: at each level an operator stands
between two operands of the next level, or there is one operand alone. -/

namespace Dbos.Calc

open Descent Descent.Parse

/-- The operators of a level. At the levels behind there are signs and atoms. -/
def operators : (level : Nat) → List Symbol
  | 1 => [.add, .sub]
  | 2 => [.mul, .div]
  | 3 => [.exp]
  | _ => []

def levelOf : Symbol → Option Nat
  | .add => some 1
  | .sub => some 1
  | .mul => some 2
  | .div => some 2
  | .exp => some 3
  | _ => none

theorem mem_operators_iff {sym : Symbol} {level : Nat} :
    sym ∈ operators level ↔ levelOf sym = some level := by
  match level with
  | 0 => cases sym <;> simp [operators, levelOf]
  | 1 => cases sym <;> simp [operators, levelOf]
  | 2 => cases sym <;> simp [operators, levelOf]
  | 3 => cases sym <;> simp [operators, levelOf]
  | level + 4 => cases sym <;> simp [operators, levelOf]

variable {Num : Type} (arithmetic : Arithmetic Num)

/-- The parser of a level, which is one of its functions. -/
def parseLevel (parseAtom : Parse Num) : (level : Nat) → Parse Num
  | 1 => parseExpression arithmetic parseAtom
  | 2 => parseTerm arithmetic parseAtom
  | 3 => parseFactor arithmetic parseAtom
  | 4 => parseSAtom arithmetic parseAtom
  | _ => parseAtom

/-- The tokens make a sentence of the level with the value. -/
inductive Derives : (level : Nat) → List Token → Num → Prop
  | number {token : Token} (isNumber : token.symbol = .num) :
      Derives 5 [token] (arithmetic.strtod token.txt)
  | parens {opening closing : Token} {inner : List Token} {value : Num}
      (opens : opening.symbol = .lpar) (derives : Derives 1 inner value)
      (closes : closing.symbol = .rpar) : Derives 5 (opening :: (inner ++ [closing])) value
  | call {name opening closing : Token} {argument : List Token} {value result : Num}
      (isName : name.symbol = .txt) (opens : opening.symbol = .lpar)
      (derives : Derives 5 argument value) (closes : closing.symbol = .rpar)
      (performs : arithmetic.performFunc (getFunc name.txt) value none = some result) :
      Derives 5 (name :: opening :: (argument ++ [closing])) result
  | callTwo {name opening comma closing : Token} {first second : List Token}
      {value other result : Num} (isName : name.symbol = .txt) (opens : opening.symbol = .lpar)
      (derives : Derives 5 first value) (separates : comma.symbol = .comma)
      (derivesOther : Derives 5 second other) (closes : closing.symbol = .rpar)
      (performs : arithmetic.performFunc (getFunc name.txt) value (some other) = some result) :
      Derives 5 (name :: opening :: (first ++ comma :: (second ++ [closing]))) result
  | unsigned {tokens : List Token} {value : Num} (derives : Derives 5 tokens value) :
      Derives 4 tokens value
  | signed {minus : Token} {tokens : List Token} {value : Num} (isMinus : minus.symbol = .sub)
      (derives : Derives 5 tokens value) :
      Derives 4 (minus :: tokens) (arithmetic.sub arithmetic.zero value)
  | operand {level : Nat} {tokens : List Token} {value : Num} (isLevel : 1 ≤ level ∧ level ≤ 3)
      (derives : Derives (level + 1) tokens value) : Derives level tokens value
  | operation {level : Nat} {op : Token} {left right : List Token} {value other result : Num}
      (isLevel : 1 ≤ level ∧ level ≤ 3) (derives : Derives (level + 1) left value)
      (isOperator : op.symbol ∈ operators level) (derivesOther : Derives (level + 1) right other)
      (performs : arithmetic.performOp op.symbol value other = some result) :
      Derives level (left ++ op :: right) result

/-! ## What is accepted is a sentence -/

theorem reads_acceptToken_bind {Value : Type} {sym : Symbol} {next : Unit → Parse Value}
    {shape : List Token → Value → Prop} {tokens : List Token} (notLast : sym ≠ .eof)
    (marked : [eofToken] <:+ tokens)
    (reads : ∀ token rest, tokens = token :: rest → token.symbol = sym → [eofToken] <:+ rest →
      Reads eofToken (next ()) (fun more => shape (token :: more)) rest) :
    Reads eofToken (acceptToken sym >>= next) shape tokens := by
  refine reads_acceptIf_bind ?_ marked ?_
  · exact decide_eq_false fun same => notLast same.symm
  · intro token rest split right still
    exact reads token rest split (of_decide_eq_true right) still

theorem eof_notMem_operators (level : Nat) : Symbol.eof ∉ operators level := fun isMember =>
  nomatch mem_operators_iff.mp isMember

section Accepted

variable {arithmetic} {atom : Parse Num} {tokens : List Token}

/-- What the parser of atoms reads where fewer tokens are left. -/
def ReadsAtoms (arithmetic : Arithmetic Num) (atom : Parse Num) (bound : Nat) : Prop :=
  ∀ tokens : List Token, tokens.length ≤ bound → [eofToken] <:+ tokens →
    Reads eofToken atom (Derives arithmetic 5) tokens

theorem reads_parseFuncRest {bound : Nat} (atoms : ReadsAtoms arithmetic atom bound)
    (fits : tokens.length ≤ bound) (marked : [eofToken] <:+ tokens) :
    Reads eofToken (parseFuncRest atom)
      (fun taken value =>
        match value with
        | none => ∃ closing, closing.symbol = .rpar ∧ taken = [closing]
        | some value => ∃ comma second closing, comma.symbol = .comma ∧
            Derives arithmetic 5 second value ∧ closing.symbol = .rpar ∧
            taken = comma :: (second ++ [closing])) tokens := by
  unfold parseFuncRest
  apply reads_nextToken_bind marked
  intro token rest _
  split
  case isTrue =>
    apply reads_acceptToken_bind (by decide) marked
    intro closing after _ closes still
    exact reads_pure still ⟨closing, closes, rfl⟩
  split
  case isFalse => exact reads_reject marked
  case isTrue =>
    apply reads_acceptToken_bind (by decide) marked
    intro comma after isRest separates still
    have shorter : after.length ≤ bound := by
      rw [isRest, List.length_cons] at fits
      omega
    apply (atoms after shorter still).bind
    intro value second more _ derives stillMore
    apply reads_acceptToken_bind (by decide) stillMore
    intro closing final _ closes last
    exact reads_pure last ⟨comma, second, closing, separates, derives, closes, rfl⟩

theorem reads_parseFunc {bound : Nat} (atoms : ReadsAtoms arithmetic atom bound)
    (fits : tokens.length ≤ bound + 1) (marked : [eofToken] <:+ tokens)
    (isName : ∀ token ∈ tokens.head?, token.symbol = .txt) :
    Reads eofToken (parseFunc arithmetic atom) (Derives arithmetic 5) tokens := by
  unfold parseFunc
  apply reads_nextToken_bind marked
  intro name rest split
  rw [split] at isName
  rw [isName name rfl]
  apply reads_acceptToken_bind (by decide) marked
  intro accepted after again acceptedName still
  cases split.symm.trans again
  apply reads_acceptToken_bind (by decide) still
  intro opening inner isInner opens stillInner
  rw [split, isInner, List.length_cons, List.length_cons] at fits
  apply (atoms inner (by omega) stillInner).bind
  intro value argument more isMore derives stillMore
  rw [isMore, List.length_append] at fits
  apply (reads_parseFuncRest atoms (by omega) stillMore).bind
  intro other tail final _ shape last
  apply reads_ofOption last
  intro result performs
  cases other with
  | none =>
      obtain ⟨closing, closes, rfl⟩ := shape
      rw [List.append_nil]
      exact .call acceptedName opens derives closes performs
  | some other =>
      obtain ⟨comma, second, closing, separates, derivesOther, closes, rfl⟩ := shape
      rw [List.append_nil]
      exact .callTwo acceptedName opens derives separates derivesOther closes performs

theorem reads_parseNumb (marked : [eofToken] <:+ tokens) :
    Reads eofToken (parseNumb arithmetic) (Derives arithmetic 5) tokens := by
  unfold parseNumb
  apply reads_nextToken_bind marked
  intro token rest split
  apply reads_acceptToken_bind (by decide) marked
  intro number after again isNumber still
  cases split.symm.trans again
  exact reads_pure still (.number isNumber)

theorem reads_parseSAtom {bound : Nat} (atoms : ReadsAtoms arithmetic atom bound)
    (fits : tokens.length ≤ bound) (marked : [eofToken] <:+ tokens) :
    Reads eofToken (parseSAtom arithmetic atom) (Derives arithmetic 4) tokens := by
  unfold parseSAtom
  apply reads_nextToken_bind marked
  intro token rest split
  split
  case isFalse => exact (atoms tokens fits marked).mono fun _ _ => .unsigned
  case isTrue =>
    apply reads_acceptToken_bind (by decide) marked
    intro minus after isAfter isMinus still
    rw [isAfter, List.length_cons] at fits
    apply (atoms after (by omega) still).bind
    intro value taken more _ derives stillMore
    apply reads_pure stillMore
    rw [List.append_nil]
    exact .signed isMinus derives

theorem reads_parseOperation {level bound : Nat} (isLevel : 1 ≤ level ∧ level ≤ 3)
    {operand : Parse Num}
    (operands : ∀ tokens : List Token, tokens.length ≤ bound → [eofToken] <:+ tokens →
      Reads eofToken operand (Derives arithmetic (level + 1)) tokens)
    (fits : tokens.length ≤ bound) (marked : [eofToken] <:+ tokens) :
    Reads eofToken (parseOperation arithmetic (operators level) operand)
      (Derives arithmetic level) tokens := by
  unfold parseOperation
  apply (operands tokens fits marked).bind
  intro value left rest isRest derives still
  rw [isRest, List.length_append] at fits
  apply reads_nextToken_bind still
  intro op more isMore
  split
  case isFalse =>
    apply reads_pure still
    rw [List.append_nil]
    exact .operand isLevel derives
  case isTrue isOperator =>
    apply reads_acceptToken_bind (fun same => eof_notMem_operators level (same ▸ isOperator)) still
    intro accepted after isAfter _ stillAfter
    cases isMore.symm.trans isAfter
    rw [isMore, List.length_cons] at fits
    apply (operands more (by omega) stillAfter).bind
    intro other right final _ derivesOther last
    apply reads_ofOption last
    intro result performs
    rw [List.append_nil]
    exact .operation isLevel derives isOperator derivesOther performs

theorem reads_parseExpression {bound : Nat} (atoms : ReadsAtoms arithmetic atom bound)
    (fits : tokens.length ≤ bound) (marked : [eofToken] <:+ tokens) :
    Reads eofToken (parseExpression arithmetic atom) (Derives arithmetic 1) tokens :=
  reads_parseOperation (by decide) (fun _ => reads_parseOperation (by decide) fun _ =>
    reads_parseOperation (by decide) fun _ => reads_parseSAtom atoms) fits marked

theorem reads_parseAtom (fuel : Nat) : ReadsAtoms arithmetic (parseAtom arithmetic fuel) fuel := by
  induction fuel with
  | zero =>
      intro tokens fits marked
      rw [List.length_eq_zero_iff.mp (Nat.le_zero.mp fits)] at marked
      simp at marked
  | succ fuel induction =>
      intro tokens fits marked
      unfold parseAtom
      apply reads_nextToken_bind marked
      intro token rest split
      split
      case isTrue =>
        apply reads_acceptToken_bind (by decide) marked
        intro opening inner isInner opens still
        rw [isInner, List.length_cons] at fits
        apply (reads_parseExpression induction (by omega) still).bind
        intro value taken more _ derives stillMore
        apply reads_acceptToken_bind (by decide) stillMore
        intro closing final _ closes last
        exact reads_pure last (.parens opens derives closes)
      split
      case isTrue => exact reads_parseNumb marked
      split
      case isFalse => exact reads_reject marked
      case isTrue isName =>
        apply reads_parseFunc induction fits marked
        intro name isHead
        rw [split, List.head?_cons] at isHead
        cases isHead
        exact isName

end Accepted

/-! ## Sentences are accepted -/

section Sentences

variable {arithmetic} {tokens rest : List Token} {token : Token}

theorem acceptToken_bind {Value : Type} {sym : Symbol} (right : token.symbol = sym)
    (next : Unit → Parse Value) : (acceptToken sym >>= next) (token :: rest) = next () rest :=
  bind_of_accepts (if_pos (decide_eq_true right))

theorem acceptToken_bind_of_wrong {Value : Type} {sym : Symbol} (wrong : token.symbol ≠ sym)
    (next : Unit → Parse Value) :
    (acceptToken sym >>= next) (token :: rest) = some (none, token :: rest) :=
  bind_of_rejects (if_neg (by simpa using wrong))

section Operation

variable {operand : Parse Num} {ops : List Symbol} {value : Num}
  (first : operand tokens = some (some value, token :: rest))

include first

theorem parseOperation_alone (notOperator : token.symbol ∉ ops) :
    parseOperation arithmetic ops operand tokens = some (some value, token :: rest) := by
  unfold parseOperation
  rw [bind_of_accepts first, nextToken_bind, if_neg notOperator]
  rfl

theorem parseOperation_operator (isOperator : token.symbol ∈ ops) :
    parseOperation arithmetic ops operand tokens =
      (operand >>= fun op2 => ofOption (arithmetic.performOp token.symbol value op2)) rest := by
  unfold parseOperation
  rw [bind_of_accepts first, nextToken_bind, if_pos isOperator, acceptToken_bind rfl]

end Operation

theorem parseLevel_eq (atom : Parse Num) {level : Nat} (isLevel : 1 ≤ level ∧ level ≤ 3) :
    parseLevel arithmetic atom level =
      parseOperation arithmetic (operators level) (parseLevel arithmetic atom (level + 1)) := by
  obtain ⟨atLeast, atMost⟩ := isLevel
  match level with
  | 1 => rfl
  | 2 => rfl
  | 3 => rfl

theorem parseSAtom_of_ne (atom : Parse Num) (notMinus : token.symbol ≠ .sub) :
    parseSAtom arithmetic atom (token :: rest) = atom (token :: rest) := by
  unfold parseSAtom
  rw [nextToken_bind, if_neg notMinus]

theorem parseLevel_atom (atom : Parse Num) : parseLevel arithmetic atom 5 = atom := rfl

theorem parseLevel_sAtom (atom : Parse Num) :
    parseLevel arithmetic atom 4 = parseSAtom arithmetic atom := rfl

theorem parseAtom_lpar {fuel : Nat} (opens : token.symbol = .lpar) :
    parseAtom arithmetic (fuel + 1) (token :: rest) =
      (parseExpression arithmetic (parseAtom arithmetic fuel) >>= fun result =>
        acceptToken .rpar >>= fun _ => pure result) rest := by
  rw [parseAtom, nextToken_bind, if_pos opens, acceptToken_bind opens]

theorem parseAtom_num {fuel : Nat} (isNumber : token.symbol = .num) :
    parseAtom arithmetic (fuel + 1) (token :: rest) =
      some (some (arithmetic.strtod token.txt), rest) := by
  rw [parseAtom, nextToken_bind, if_neg (by rw [isNumber]; decide), if_pos isNumber]
  unfold parseNumb
  rw [nextToken_bind, acceptToken_bind isNumber]
  rfl

theorem parseAtom_name {name opening : Token} {fuel : Nat} (isName : name.symbol = .txt)
    (opens : opening.symbol = .lpar) :
    parseAtom arithmetic (fuel + 1) (name :: opening :: rest) =
      (parseAtom arithmetic fuel >>= fun op1 => parseFuncRest (parseAtom arithmetic fuel) >>=
        fun op2 => ofOption (arithmetic.performFunc (getFunc name.txt) op1 op2)) rest := by
  rw [parseAtom, nextToken_bind, if_neg (by rw [isName]; decide),
    if_neg (by rw [isName]; decide), if_pos isName]
  unfold parseFunc
  rw [nextToken_bind, acceptToken_bind rfl, acceptToken_bind opens]

/-- No operator of the level or of one behind it comes next. -/
def Closed (level : Nat) (rest : List Token) : Prop :=
  ∃ token more, rest = token :: more ∧ ∀ other, level ≤ other → token.symbol ∉ operators other

theorem Closed.mono {level other : Nat} (closed : Closed level rest) (atMost : level ≤ other) :
    Closed other rest := by
  obtain ⟨token, more, same, none⟩ := closed
  exact ⟨token, more, same, fun behind atLeast => none behind (atMost.trans atLeast)⟩

theorem closed_of_mem_operators {level : Nat} (isOperator : token.symbol ∈ operators level) :
    Closed (level + 1) (token :: rest) := by
  refine ⟨token, rest, rfl, fun other behind again => ?_⟩
  rw [mem_operators_iff] at isOperator again
  cases isOperator.symm.trans again
  omega

theorem closed_of_levelOf (noOperator : levelOf token.symbol = none) (level : Nat) :
    Closed level (token :: rest) := by
  refine ⟨token, rest, rfl, fun other _ again => ?_⟩
  cases noOperator.symm.trans (mem_operators_iff.mp again)

theorem closed_eofToken (level : Nat) : Closed level [eofToken] := closed_of_levelOf rfl level

theorem head_of_atom {value : Num} (derives : Derives arithmetic 5 tokens value) :
    ∃ first more, tokens = first :: more ∧ first.symbol ≠ .sub := by
  cases derives with
  | number isNumber => exact ⟨_, _, rfl, by rw [isNumber]; decide⟩
  | parens opens => exact ⟨_, _, rfl, by rw [opens]; decide⟩
  | call isName => exact ⟨_, _, rfl, by rw [isName]; decide⟩
  | callTwo isName => exact ⟨_, _, rfl, by rw [isName]; decide⟩
  | operand isLevel => omega
  | operation isLevel => omega

theorem parseLevel_of_derives {level fuel : Nat} {value : Num}
    (derives : Derives arithmetic level tokens value) (enough : tokens.length ≤ fuel)
    (closed : Closed level rest) :
    parseLevel arithmetic (parseAtom arithmetic fuel) level (tokens ++ rest) =
      some (some value, rest) := by
  induction derives generalizing fuel rest with
  | @number token isNumber =>
      obtain ⟨depth, rfl⟩ : ∃ depth, fuel = depth + 1 := ⟨fuel - 1, by
        rw [List.length_singleton] at enough
        omega⟩
      exact parseAtom_num isNumber
  | @parens opening closing inner value opens derives closes induction =>
      rw [List.length_cons, List.length_append, List.length_singleton] at enough
      obtain ⟨depth, rfl⟩ : ∃ depth, fuel = depth + 1 := ⟨fuel - 1, by omega⟩
      have isInner : parseExpression arithmetic (parseAtom arithmetic depth)
          (inner ++ closing :: rest) = some (some value, closing :: rest) :=
        induction (by omega) (closed_of_levelOf (by rw [closes]; rfl) 1)
      rw [parseLevel_atom, List.cons_append, List.append_assoc, List.singleton_append,
        parseAtom_lpar opens, bind_of_accepts isInner, acceptToken_bind closes]
      rfl
  | @call name opening closing argument value result isName opens derives closes performs
      induction =>
      rw [List.length_cons, List.length_cons, List.length_append] at enough
      obtain ⟨depth, rfl⟩ : ∃ depth, fuel = depth + 1 := ⟨fuel - 1, by omega⟩
      have isArgument : parseAtom arithmetic depth (argument ++ closing :: rest) =
          some (some value, closing :: rest) :=
        induction (by omega) (closed_of_levelOf (by rw [closes]; rfl) 5)
      have isRest : parseFuncRest (parseAtom arithmetic depth) (closing :: rest) =
          some (some none, rest) := by
        unfold parseFuncRest
        rw [nextToken_bind, if_pos closes, acceptToken_bind closes]
        rfl
      rw [parseLevel_atom, List.cons_append, List.cons_append, List.append_assoc,
        List.singleton_append, parseAtom_name isName opens, bind_of_accepts isArgument,
        bind_of_accepts isRest, performs]
      rfl
  | @callTwo name opening comma closing first second value other result isName opens derives
      separates derivesOther closes performs induction inductionOther =>
      rw [List.length_cons, List.length_cons, List.length_append, List.length_cons,
        List.length_append] at enough
      obtain ⟨depth, rfl⟩ : ∃ depth, fuel = depth + 1 := ⟨fuel - 1, by omega⟩
      have isFirst : parseAtom arithmetic depth
          (first ++ comma :: (second ++ closing :: rest)) =
            some (some value, comma :: (second ++ closing :: rest)) :=
        induction (by omega) (closed_of_levelOf (by rw [separates]; rfl) 5)
      have isSecond : parseAtom arithmetic depth
          (second ++ closing :: rest) = some (some other, closing :: rest) :=
        inductionOther (by omega) (closed_of_levelOf (by rw [closes]; rfl) 5)
      have isRest : parseFuncRest (parseAtom arithmetic depth)
          (comma :: (second ++ closing :: rest)) = some (some (some other), rest) := by
        unfold parseFuncRest
        rw [nextToken_bind, if_neg (by rw [separates]; decide), if_pos separates,
          acceptToken_bind separates, bind_of_accepts isSecond, acceptToken_bind closes]
        rfl
      rw [parseLevel_atom, List.cons_append, List.cons_append, List.append_assoc, List.cons_append,
        List.append_assoc, List.singleton_append, parseAtom_name isName opens,
        bind_of_accepts isFirst, bind_of_accepts isRest, performs]
      rfl
  | @unsigned tokens value derives induction =>
      have isAtom := induction enough (closed.mono (by omega))
      obtain ⟨first, more, rfl, notMinus⟩ := head_of_atom derives
      exact (parseSAtom_of_ne _ notMinus).trans isAtom
  | @signed minus tokens value isMinus derives induction =>
      rw [List.length_cons] at enough
      have isAtom : parseAtom arithmetic fuel (tokens ++ rest) = some (some value, rest) :=
        induction (by omega) (closed.mono (by omega))
      rw [parseLevel_sAtom]
      unfold parseSAtom
      rw [List.cons_append, nextToken_bind, if_pos isMinus, acceptToken_bind isMinus,
        bind_of_accepts isAtom]
      rfl
  | @operand level tokens value isLevel derives induction =>
      have isOperand := induction enough (closed.mono (by omega))
      obtain ⟨token, more, rfl, none⟩ := closed
      rw [parseLevel_eq _ isLevel]
      exact parseOperation_alone isOperand (none level (Nat.le_refl _))
  | @operation level op left right value other result isLevel derives isOperator derivesOther
      performs induction inductionOther =>
      rw [List.length_append, List.length_cons] at enough
      have isFirst : parseLevel arithmetic (parseAtom arithmetic fuel) (level + 1)
          (left ++ op :: (right ++ rest)) = some (some value, op :: (right ++ rest)) :=
        induction (by omega) (closed_of_mem_operators isOperator)
      have isSecond : parseLevel arithmetic (parseAtom arithmetic fuel) (level + 1)
          (right ++ rest) = some (some other, rest) :=
        inductionOther (by omega) (closed.mono (by omega))
      rw [parseLevel_eq _ isLevel, List.append_assoc, List.cons_append,
        parseOperation_operator isFirst isOperator, bind_of_accepts isSecond, performs]
      rfl

theorem parse_of_derives {value : Num} (derives : Derives arithmetic 1 tokens value) :
    parse arithmetic (tokens ++ [eofToken]) = some (some value, []) := by
  have isExpression : parseExpression arithmetic
      (parseAtom arithmetic (tokens ++ [eofToken]).length) (tokens ++ [eofToken]) =
        some (some value, [eofToken]) :=
    parseLevel_of_derives derives (by simp) (closed_eofToken 1)
  unfold parse
  rw [bind_of_accepts isExpression, acceptToken_bind rfl]
  rfl

theorem parse_cases (noEnd : ∀ token ∈ tokens, token.symbol ≠ .eof) :
    (∃ value, Derives arithmetic 1 tokens value ∧
      parse arithmetic (tokens ++ [eofToken]) = some (some value, [])) ∨
    (∀ value, ¬Derives arithmetic 1 tokens value) ∧
      ∃ rest, parse arithmetic (tokens ++ [eofToken]) = some (none, rest) ∧ rest ≠ [] := by
  by_cases sentence : ∃ value, Derives arithmetic 1 tokens value
  · obtain ⟨value, derives⟩ := sentence
    exact .inl ⟨value, derives, parse_of_derives derives⟩
  right
  rw [not_exists] at sentence
  refine ⟨sentence, ?_⟩
  obtain ⟨result, taken, rest, isResult, split, ⟨front, isRest⟩, holds⟩ :=
    reads_parseExpression (@reads_parseAtom _ arithmetic (tokens ++ [eofToken]).length)
      (Nat.le_refl _) (List.suffix_append tokens [eofToken])
  unfold parse
  cases result with
  | none =>
      refine ⟨rest, bind_of_rejects isResult, ?_⟩
      rw [← isRest]
      simp
  | some value =>
      have same : tokens = taken ++ front := by
        rw [← isRest, ← List.append_assoc] at split
        exact List.append_cancel_right split
      cases front with
      | nil =>
          rw [List.append_nil] at same
          exact absurd (same ▸ holds value rfl) (sentence value)
      | cons token more =>
          have notEnd : token.symbol ≠ eofToken.symbol := noEnd token (by rw [same]; simp)
          rw [List.cons_append] at isRest
          refine ⟨rest, ?_, by rw [← isRest]; exact List.cons_ne_nil _ _⟩
          rw [bind_of_accepts isResult, ← isRest, acceptToken_bind_of_wrong notEnd]

end Sentences

end Dbos.Calc
