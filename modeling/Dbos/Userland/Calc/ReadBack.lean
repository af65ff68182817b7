import Dbos.Userland.Calc.Expressions

/-! # Printed expressions

An expression is read back if and only if no operator has an operand of its own level
without parentheses, and no numeral is too long for its block. -/

namespace Dbos.Calc

open Numerals Descent Descent.Parse

/-! ## Levels -/

section Levels

variable {Num : Type} {arithmetic : Arithmetic Num}

theorem Derives.lower {level bound : Nat} {tokens : List Token}
    {value : Num} (derives : Derives arithmetic level tokens value) (atMost : level ≤ 4)
    (positive : 1 ≤ bound) (lower : bound ≤ level) : Derives arithmetic bound tokens value := by
  induction level, lower using Nat.le_induction with
  | base => exact derives
  | succ level lower induction =>
      exact induction (.operand ⟨by omega, by omega⟩ derives) (by omega)

theorem Derives.enclose {level bound : Nat} {tokens : List Token}
    {value : Num} (derives : Derives arithmetic level tokens value)
    (isLevel : 1 ≤ level ∧ level ≤ 4) (isBound : 1 ≤ bound ∧ bound ≤ 4) :
    Derives arithmetic bound (enclose bound level tokens) value := by
  unfold Calc.enclose
  split
  case isTrue lower => exact derives.lower isLevel.2 isBound.1 lower
  case isFalse =>
    have parens : Derives arithmetic 5 (opening :: (tokens ++ [closing])) value :=
      .parens rfl (derives.lower isLevel.2 (Nat.le_refl 1) isLevel.1) rfl
    exact (Derives.unsigned parens).lower (Nat.le_refl 4) isBound.1 isBound.2

/-- The parser rejects, or it stops in front of an operator of the level or of one behind
it. -/
def Stuck (level : Nat) (result : Option (Option Num × List Token)) : Prop :=
  ∃ value rest, result = some (value, rest) ∧
    (value = none ∨ ∃ token more other, rest = token :: more ∧ level ≤ other ∧
      token.symbol ∈ operators other)

theorem Stuck.mono {level lower : Nat} {result : Option (Option Num × List Token)}
    (stuck : Stuck level result) (atMost : lower ≤ level) : Stuck lower result := by
  obtain ⟨value, rest, isResult, rejected | ⟨token, more, other, same, behind, isOperator⟩⟩ := stuck
  · exact ⟨value, rest, isResult, .inl rejected⟩
  · exact ⟨value, rest, isResult, .inr ⟨token, more, other, same, atMost.trans behind, isOperator⟩⟩

theorem stuck_of_rejects {result : Option (Option Num × List Token)} {rest : List Token}
    (rejects : result = some (none, rest)) (level : Nat) : Stuck level result :=
  ⟨none, rest, rejects, .inl rfl⟩

theorem stuck_of_operator {result : Option (Option Num × List Token)} {value : Option Num}
    {token : Token} {rest : List Token} {level : Nat}
    (isResult : result = some (value, token :: rest))
    (isOperator : token.symbol ∈ operators level) : Stuck level result :=
  ⟨value, _, isResult, .inr ⟨token, rest, level, rfl, Nat.le_refl _, isOperator⟩⟩

theorem Stuck.lower {atom : Parse Num} {level bound other : Nat} {tokens : List Token}
    (stuck : Stuck bound (parseLevel arithmetic atom level tokens)) (atMost : level ≤ bound)
    (isLevel : level ≤ 4) (positive : 1 ≤ other) (lower : other ≤ level) :
    Stuck bound (parseLevel arithmetic atom other tokens) := by
  induction level, lower using Nat.le_induction with
  | base => exact stuck
  | succ level lower induction =>
      refine induction ?_ (by omega) (by omega)
      rw [parseLevel_eq atom ⟨by omega, by omega⟩]
      obtain ⟨value, rest, isResult, stops⟩ := stuck
      cases value with
      | none => exact stuck_of_rejects (bind_of_rejects isResult) _
      | some value =>
          obtain ⟨token, more, place, rfl, behind, isOperator⟩ := stops.resolve_left nofun
          have notHere : token.symbol ∉ operators level := by
            rw [mem_operators_iff] at isOperator ⊢
            intro again
            cases isOperator.symm.trans again
            omega
          exact (stuck_of_operator (parseOperation_alone isResult notHere) isOperator).mono behind

theorem Stuck.operation {operand : Parse Num} {level bound : Nat} {token : Token} {value : Num}
    {tokens rest : List Token} (first : operand tokens = some (some value, token :: rest))
    (isOperator : token.symbol ∈ operators level) (stuck : Stuck bound (operand rest)) :
    Stuck bound (parseOperation arithmetic (operators level) operand tokens) := by
  rw [parseOperation_operator first isOperator]
  obtain ⟨other, after, isResult, stops⟩ := stuck
  cases other with
  | none => exact stuck_of_rejects (bind_of_rejects isResult) _
  | some other =>
      rw [bind_of_accepts isResult]
      cases arithmetic.performOp token.symbol value other with
      | none => exact stuck_of_rejects rfl _
      | some result => exact ⟨some result, after, rfl, .inr (stops.resolve_left nofun)⟩

theorem Stuck.parens {fuel level : Nat} {tokens rest : List Token}
    (stuck : Stuck 1 (parseExpression arithmetic (parseAtom arithmetic fuel)
      (tokens ++ closing :: rest))) (isLevel : 1 ≤ level ∧ level ≤ 4) (bound : Nat) :
    Stuck bound (parseLevel arithmetic (parseAtom arithmetic (fuel + 1)) level
      (opening :: (tokens ++ [closing]) ++ rest)) := by
  have rejects : ∃ after, parseAtom arithmetic (fuel + 1) (opening :: (tokens ++ closing :: rest)) =
      some (none, after) := by
    obtain ⟨value, after, isResult, stops⟩ := stuck
    rw [parseAtom_lpar rfl]
    cases value with
    | none => exact ⟨after, bind_of_rejects isResult⟩
    | some value =>
        obtain ⟨token, more, place, rfl, -, isOperator⟩ := stops.resolve_left nofun
        refine ⟨token :: more, ?_⟩
        rw [bind_of_accepts isResult]
        apply acceptToken_bind_of_wrong
        intro same
        rw [same, mem_operators_iff] at isOperator
        cases isOperator
  obtain ⟨after, isResult⟩ := rejects
  have signed : parseLevel arithmetic (parseAtom arithmetic (fuel + 1)) 4
      (opening :: (tokens ++ closing :: rest)) = some (none, after) :=
    (parseSAtom_of_ne _ (by decide)).trans isResult
  rw [List.cons_append, List.append_assoc, List.singleton_append]
  exact ((stuck_of_rejects signed (max bound 4)).lower (by omega) (Nat.le_refl 4) isLevel.1
    isLevel.2).mono (by omega)

end Levels

variable {Num : Type} [Field Num] [DecidableEq Num] {functions : MathFunctions Num}
  {towers : Associativity}

/-! ## Expressions without chains -/

theorem performOp_symbol {op : Operator} {left right : Num} (divides : op = .div → right ≠ 0) :
    (exact functions).performOp op.symbol left right = some (op.apply functions left right) := by
  cases op with
  | div =>
      have notZero : (exact functions).isZero right = false := decide_eq_false (divides rfl)
      simp only [Operator.symbol, Arithmetic.performOp, notZero]
      rfl
  | _ => rfl

theorem symbol_mem_operators (op : Operator) : op.symbol ∈ operators op.level := by
  cases op <;> decide

theorem isLevel_level (op : Operator) : 1 ≤ op.level ∧ op.level ≤ 3 := by
  cases op <;> decide

theorem one_le_level (expr : Expr) : 1 ≤ expr.level ∧ expr.level ≤ 4 := by
  cases expr with
  | numeral => exact ⟨(by decide : 1 ≤ 4), Nat.le_refl 4⟩
  | operation op left right =>
      have isLevel := isLevel_level op
      exact ⟨isLevel.1, isLevel.2.trans (by omega)⟩

theorem enclose_congr {bound other level : Nat} (same : bound ≤ level ↔ other ≤ level)
    (tokens : List Token) : enclose bound level tokens = enclose other level tokens := by
  unfold enclose
  simp only [same]

theorem enclose_leftLevel {op : Operator} {left : Expr}
    (apart : op.associativity towers = .left → left.level ≠ op.level) (tokens : List Token) :
    enclose (op.leftLevel towers) left.level tokens = enclose (op.level + 1) left.level tokens := by
  unfold Operator.leftLevel
  split
  case isTrue associates =>
    have different := apart associates
    exact enclose_congr (by omega) tokens
  case isFalse => rfl

theorem enclose_rightLevel {op : Operator} {right : Expr}
    (apart : op.associativity towers = .right → right.level ≠ op.level) (tokens : List Token) :
    enclose (op.rightLevel towers) right.level tokens =
      enclose (op.level + 1) right.level tokens := by
  unfold Operator.rightLevel
  split
  case isTrue associates =>
    have different := apart associates
    exact enclose_congr (by omega) tokens
  case isFalse => rfl

theorem derives_tokens {expr : Expr} (noChains : expr.NoChains towers)
    (divides : expr.Divides functions) :
    Derives (exact functions) expr.level (expr.tokens towers) (expr.value functions) := by
  induction expr with
  | numeral numeral =>
      have isNumber := @Derives.number Num (exact functions) ⟨.num, numeral.text⟩ rfl
      rw [Expr.value, ← atof_text numeral]
      exact .unsigned isNumber
  | operation op left right inductionLeft inductionRight =>
      obtain ⟨apartLeft, apartRight, noneLeft, noneRight⟩ := noChains
      obtain ⟨dividesLeft, dividesRight, notZero⟩ := divides
      have isLevel := isLevel_level op
      have first := (inductionLeft noneLeft dividesLeft).enclose (one_le_level left)
        (show 1 ≤ op.level + 1 ∧ op.level + 1 ≤ 4 by omega)
      have second := (inductionRight noneRight dividesRight).enclose (one_le_level right)
        (show 1 ≤ op.level + 1 ∧ op.level + 1 ≤ 4 by omega)
      rw [Expr.tokens, enclose_leftLevel apartLeft, enclose_rightLevel apartRight]
      exact .operation isLevel first (symbol_mem_operators op) second (performOp_symbol notZero)

theorem parseLevel_to_operator {op : Operator} {level fuel : Nat} {tokens : List Token}
    {value : Num} (derives : Derives (exact functions) level tokens value)
    (behind : op.level < level) (enough : tokens.length ≤ fuel) (rest : List Token) :
    parseLevel (exact functions) (parseAtom (exact functions) fuel) level
      (tokens ++ op.token :: rest) = some (some value, op.token :: rest) :=
  parseLevel_of_derives derives enough
    ((closed_of_mem_operators (symbol_mem_operators op)).mono behind)

theorem parseLevel_operation {op : Operator} {left right : Expr}
    (noChains : (Expr.operation op left right).NoChains towers)
    (divides : (Expr.operation op left right).Divides functions) {fuel : Nat}
    (enough : ((Expr.operation op left right).tokens towers).length ≤ fuel) {rest : List Token}
    (closed : Closed (op.level + 1) rest) :
    parseLevel (exact functions) (parseAtom (exact functions) fuel) op.level
        ((Expr.operation op left right).tokens towers ++ rest) =
      some (some ((Expr.operation op left right).value functions), rest) := by
  obtain ⟨apartLeft, apartRight, noneLeft, noneRight⟩ := noChains
  obtain ⟨dividesLeft, dividesRight, notZero⟩ := divides
  have isLevel := isLevel_level op
  have first := (derives_tokens noneLeft dividesLeft).enclose (one_le_level left)
    (show 1 ≤ op.level + 1 ∧ op.level + 1 ≤ 4 by omega)
  have second := (derives_tokens noneRight dividesRight).enclose (one_le_level right)
    (show 1 ≤ op.level + 1 ∧ op.level + 1 ≤ 4 by omega)
  rw [Expr.tokens, enclose_leftLevel apartLeft, enclose_rightLevel apartRight] at enough ⊢
  rw [List.length_append, List.length_cons] at enough
  have isFirst := @parseLevel_to_operator _ _ _ _ op _ fuel _ _ first (by omega) (by omega)
    (enclose (op.level + 1) right.level (right.tokens towers) ++ rest)
  have isSecond := @parseLevel_of_derives _ _ _ rest _ fuel _ second (by omega) closed
  rw [parseLevel_eq _ isLevel, List.append_assoc, List.cons_append,
    parseOperation_operator isFirst (symbol_mem_operators op), bind_of_accepts isSecond]
  change ofOption ((exact functions).performOp op.symbol _ _) rest = _
  rw [performOp_symbol notZero]
  rfl

/-! ## Expressions with chains -/

/-- The parser of a level does not read all of an expression that has a chain, and of an
expression of a level in front of it reads no more than a part. -/
def StuckAt (functions : MathFunctions Num) (towers : Associativity) (expr : Expr) : Prop :=
  ∀ fuel level : Nat, (expr.tokens towers).length ≤ fuel → 1 ≤ level ∧ level ≤ 4 →
    ¬expr.NoChains towers ∨ expr.level < level → ∀ (token : Token) (rest : List Token),
    Stuck (min level expr.level) (parseLevel (exact functions)
      (parseAtom (exact functions) fuel) level (expr.tokens towers ++ token :: rest))

theorem StuckAt.enclose {expr : Expr} (stuck : StuckAt functions towers expr)
    {fuel level bound : Nat}
    (enough : (enclose bound expr.level (expr.tokens towers)).length ≤ fuel)
    (isLevel : 1 ≤ level ∧ level ≤ 4)
    (bad : ¬expr.NoChains towers ∨ bound ≤ expr.level ∧ expr.level < level) (token : Token)
    (rest : List Token) :
    Stuck (min level bound) (parseLevel (exact functions) (parseAtom (exact functions) fuel) level
      (enclose bound expr.level (expr.tokens towers) ++ token :: rest)) := by
  unfold Calc.enclose at enough ⊢
  split
  case isTrue bare =>
    rw [if_pos bare] at enough
    exact (stuck _ _ enough isLevel (bad.imp_right And.right) token rest).mono (by omega)
  case isFalse inParens =>
    have chain := bad.resolve_right fun both => inParens both.1
    rw [if_neg inParens, List.length_cons, List.length_append] at enough
    obtain ⟨depth, rfl⟩ : ∃ depth, fuel = depth + 1 := ⟨fuel - 1, by omega⟩
    have inner := stuck depth 1 (by omega) (by decide) (.inl chain) closing (token :: rest)
    rw [Nat.min_eq_left (one_le_level expr).1] at inner
    exact inner.parens isLevel _

section Operation

variable {op : Operator} {left right : Expr}

theorem level_le_leftLevel (op : Operator) :
    op.level ≤ op.leftLevel towers ∧ op.leftLevel towers ≤ op.level + 1 := by
  unfold Operator.leftLevel
  split <;> omega

theorem level_le_rightLevel (op : Operator) :
    op.level ≤ op.rightLevel towers ∧ op.rightLevel towers ≤ op.level + 1 := by
  unfold Operator.rightLevel
  split <;> omega

variable (divides : (Expr.operation op left right).Divides functions)
  (stuckLeft : StuckAt functions towers left) {fuel : Nat}
  (enough : ((Expr.operation op left right).tokens towers).length ≤ fuel) (token : Token)
  (rest : List Token)

include divides stuckLeft enough

theorem stuck_front {level : Nat} (behind : op.level < level) (atMost : level ≤ 4) :
    Stuck op.level (parseLevel (exact functions) (parseAtom (exact functions) fuel) level
      ((Expr.operation op left right).tokens towers ++ token :: rest)) := by
  have bounds := @level_le_leftLevel towers op
  rw [Expr.tokens] at enough ⊢
  rw [List.length_append, List.length_cons] at enough
  rw [List.append_assoc, List.cons_append]
  by_cases bad : ¬left.NoChains towers ∨
      op.leftLevel towers ≤ left.level ∧ left.level < level
  · exact (stuckLeft.enclose (by omega) ⟨by omega, atMost⟩ bad op.token _).mono (by omega)
  · rw [not_or, not_not] at bad
    obtain ⟨noChains, notPart⟩ := bad
    have same : op.leftLevel towers ≤ left.level ↔ level ≤ left.level := by omega
    have derives := (derives_tokens noChains divides.1).enclose (one_le_level left)
      (show 1 ≤ level ∧ level ≤ 4 by omega)
    rw [enclose_congr same] at enough ⊢
    exact stuck_of_operator (parseLevel_to_operator derives behind (by omega) _)
      (symbol_mem_operators op)

theorem stuck_chain (stuckRight : StuckAt functions towers right)
    (chain : ¬(Expr.operation op left right).NoChains towers) :
    Stuck op.level (parseLevel (exact functions) (parseAtom (exact functions) fuel) op.level
      ((Expr.operation op left right).tokens towers ++ token :: rest)) := by
  have isLevel := isLevel_level op
  have leftBounds := @level_le_leftLevel towers op
  have rightBounds := @level_le_rightLevel towers op
  rw [Expr.tokens] at enough ⊢
  rw [List.length_append, List.length_cons] at enough
  rw [List.append_assoc, List.cons_append]
  by_cases noneLeft : left.NoChains towers
  case neg =>
    have stuck := @stuckLeft.enclose _ _ _ _ _ _ fuel op.level (op.leftLevel towers) (by omega)
      (by omega) (.inl noneLeft) op.token
      (enclose (op.rightLevel towers) right.level (right.tokens towers) ++ token :: rest)
    exact stuck.mono (by omega)
  case pos =>
    by_cases apart : op.associativity towers = .left → left.level ≠ op.level
    case neg =>
      rw [Classical.not_imp, Ne, not_not] at apart
      obtain ⟨associates, same⟩ := apart
      have bare : enclose (op.leftLevel towers) left.level (left.tokens towers) =
          left.tokens towers := by
        unfold enclose Operator.leftLevel
        rw [if_pos associates, if_pos (Nat.le_of_eq same.symm)]
      rw [bare] at enough ⊢
      cases left with
      | numeral numeral =>
          change 4 = op.level at same
          omega
      | operation other first second =>
          change other.level = op.level at same
          have closed : Closed (other.level + 1) (op.token ::
              (enclose (op.rightLevel towers) right.level (right.tokens towers) ++
                token :: rest)) := by
            rw [same]
            exact closed_of_mem_operators (symbol_mem_operators op)
          have isLeft := @parseLevel_operation _ _ _ _ _ _ _ _ noneLeft divides.1 fuel (by omega)
            _ closed
          rw [same] at isLeft
          exact stuck_of_operator isLeft (symbol_mem_operators op)
    case pos =>
      have first := (derives_tokens noneLeft divides.1).enclose (one_le_level left)
        (show 1 ≤ op.level + 1 ∧ op.level + 1 ≤ 4 by omega)
      rw [enclose_leftLevel apart] at enough ⊢
      have isLeft := @parseLevel_to_operator _ _ _ _ op _ fuel _ _ first (by omega) (by omega)
        (enclose (op.rightLevel towers) right.level (right.tokens towers) ++ token :: rest)
      have bad : ¬right.NoChains towers ∨
          op.rightLevel towers ≤ right.level ∧ right.level < op.level + 1 := by
        by_contra good
        rw [not_or, not_not] at good
        refine chain ⟨apart, fun associates same => good.2 ?_, noneLeft, good.1⟩
        unfold Operator.rightLevel
        rw [if_pos associates]
        omega
      have stuck := @stuckRight.enclose _ _ _ _ _ _ fuel (op.level + 1) (op.rightLevel towers)
        (by omega) (by omega) bad token rest
      rw [parseLevel_eq _ isLevel]
      exact (stuck.mono (by omega)).operation isLeft (symbol_mem_operators op)

end Operation

theorem stuckAt {expr : Expr} (divides : expr.Divides functions) :
    StuckAt functions towers expr := by
  induction expr with
  | numeral numeral =>
      intro fuel level enough isLevel bad
      rcases bad with chain | lower
      · exact absurd trivial chain
      · exact absurd lower (Nat.not_lt.mpr isLevel.2)
  | operation op left right inductionLeft inductionRight =>
      intro fuel level enough isLevel bad token rest
      have stuckLeft := inductionLeft divides.1
      rcases Nat.lt_or_ge op.level level with behind | notBehind
      · exact (stuck_front divides stuckLeft enough token rest behind isLevel.2).mono
          (Nat.min_le_right _ _)
      · have chain := bad.resolve_right (Nat.not_lt.mpr notBehind)
        have atMost := isLevel_level op
        have stuck := stuck_chain divides stuckLeft enough token rest
          (inductionRight divides.2.1) chain
        exact (stuck.lower (Nat.le_refl _) (by omega) isLevel.1 notBehind).mono
          (Nat.min_le_right _ _)

theorem derives_tokens_iff {expr : Expr} (divides : expr.Divides functions) :
    Derives (exact functions) 1 (expr.tokens towers) (expr.value functions) ↔
      expr.NoChains towers := by
  have level := one_le_level expr
  constructor
  · intro derives
    by_contra chain
    obtain ⟨value, rest, isStuck, stops⟩ := stuckAt divides _ 1 (Nat.le_refl _) (by decide)
      (.inl chain) eofToken []
    have accepted := parseLevel_of_derives derives (Nat.le_refl _) (closed_eofToken 1)
    cases accepted.symm.trans isStuck
    obtain ⟨token, more, other, same, -, isOperator⟩ := stops.resolve_left nofun
    cases same
    exact eof_notMem_operators other isOperator
  · intro noChains
    exact (derives_tokens noChains divides).lower level.2 (Nat.le_refl 1) level.1

/-! ## Reading back -/

theorem accepts_iff {expr : Expr} (divides : expr.Divides functions)
    (few : (expr.tokens towers).length ≤ 63) (gaps : List Nat) (heap : Heap) :
    Accepts (exact functions) heap (spell (expr.tokens towers) gaps) (expr.value functions) ↔
      expr.NoChains towers ∧ expr.ShortNumerals := by
  rw [accepts_spell_iff (readable_tokens towers expr) few, derives_tokens_iff divides,
    forall_tokens_short_iff]

def digit (value : Fin 10) : Expr := .numeral ⟨[value], none, List.cons_ne_nil _ _⟩

/-- Powers of rational numbers to integers; the other functions are not called. -/
def rationals : MathFunctions Rat where
  pow base power := base ^ power.num
  unary _ number := number
  binary _ number _ := number

/-- `1+2*3^2`. -/
def mixed : Expr :=
  .operation .add (digit 1) (.operation .mul (digit 2) (.operation .exp (digit 3) (digit 2)))

theorem accepts_iff_mixed :
    Accepts (exact rationals) ⟨0, []⟩ (spell (mixed.tokens .right) []) (mixed.value rationals) ↔
      mixed.NoChains .right ∧ mixed.ShortNumerals :=
  accepts_iff (by simp [Expr.Divides, mixed, digit]) (by decide) [] _

/-- `1+2+3`. -/
def sum : Expr := .operation .add (.operation .add (digit 1) (digit 2)) (digit 3)

/-- The parser stops in front of the second operator. -/
theorem not_accepts_sum :
    sum.Divides rationals ∧ (sum.tokens .right).length ≤ 63 ∧
      ¬Accepts (exact rationals) ⟨0, []⟩ (spell (sum.tokens .right) [])
        (sum.value rationals) := by
  refine ⟨by simp [Expr.Divides, sum, digit], by decide, ?_⟩
  rintro ⟨after, rest, isAfter, accepted⟩
  have rejected : (tokenize ⟨⟨0, []⟩, []⟩ (spell (sum.tokens .right) [])).bind
      (fun found => (parse (exact rationals) (found.2.tokens.map Slot.token)).map Prod.fst) =
        some none := by
    decide +kernel
  rw [isAfter, Option.bind_some, accepted] at rejected
  cases rejected

end Dbos.Calc
