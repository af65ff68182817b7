import Mathlib.Algebra.Field.Basic
import Mathlib.Algebra.Field.Rat
import Dbos.Userland.Calc.Grammar

/-! # Expressions of the calculator

Expressions over numerals are printed with the parentheses that are needed and read again
with exact arithmetic. The parser takes at most one operator at a level, so it stops where a
chain of operators of one level goes on. -/

namespace Dbos.Calc

open Numerals Descent Descent.Parse

/-! ## Exact arithmetic -/

section Exact

variable {Num : Type} [Field Num]

/-- The exponent behind `e` or `E`. -/
def exponent : List UInt8 → Int
  | [] => 0
  | c :: s =>
      if c = 0x65 ∨ c = 0x45 then
        if s.head? = some 0x2B then (scan decimalDigit 10 0 s.tail).1
        else if s.head? = some 0x2D then -(scan decimalDigit 10 0 s.tail).1
        else (scan decimalDigit 10 0 s).1
      else 0

/-- `atof`, where `0.1` is exact. -/
def atof (s : List UInt8) : Num :=
  let (whole, point) := scan decimalDigit (10 : Num) 0 s
  let (a, e, rest) :=
    if point.head? = some 0x2E then
      let (a, rest) := scan decimalDigit (10 : Num) whole point.tail
      (a, -((point.tail.length - rest.length : Nat) : Int), rest)
    else (whole, 0, point)
  let e := e + exponent rest
  (fun a => a * 10⁻¹)^[(-e).toNat] ((fun a => a * 10)^[e.toNat] a)

/-- What `math.h` computes. -/
structure MathFunctions (Num : Type) where
  pow : Num → Num → Num
  unary : Func → Num → Num
  binary : Func → Num → Num → Num

variable [DecidableEq Num]

def exact (functions : MathFunctions Num) : Arithmetic Num where
  zero := 0
  strtod := atof
  add := (· + ·)
  sub := (· - ·)
  mul := (· * ·)
  div := (· / ·)
  pow := functions.pow
  isZero number := number = 0
  unary := functions.unary
  binary := functions.binary

end Exact

/-! ## Expressions -/

inductive Operator where
  | add | sub | mul | div | exp
deriving DecidableEq

namespace Operator

def symbol : Operator → Symbol
  | add => .add
  | sub => .sub
  | mul => .mul
  | div => .div
  | exp => .exp

def char : Operator → UInt8
  | add => 0x2B
  | sub => 0x2D
  | mul => 0x2A
  | div => 0x2F
  | exp => 0x5E

/-- Operators of a higher level bind their operands first. -/
def level : Operator → Nat
  | add => 1
  | sub => 1
  | mul => 2
  | div => 2
  | exp => 3

end Operator

/-- Digits with or without a decimal point, the most significant one first. -/
structure Numeral where
  whole : List (Fin 10)
  fraction : Option (List (Fin 10))
  nonempty : whole ≠ []

inductive Expr where
  | numeral (numeral : Numeral)
  | operation (op : Operator) (left right : Expr)

/-- Which operand of an operator may have an operator of the same level without
parentheses around it. -/
inductive Associativity where
  | left | right | neither
deriving DecidableEq

/-- Towers of powers are read in one way or another; the other operators associate to the
left. -/
def Operator.associativity (towers : Associativity) : Operator → Associativity
  | exp => towers
  | _ => .left

/-! ## Values -/

def digitText (digits : List (Fin 10)) : List UInt8 := digits.map fun digit => digitChar digit.val

def Numeral.text (numeral : Numeral) : List UInt8 :=
  digitText numeral.whole ++
    numeral.fraction.elim [] fun fraction => 0x2E :: digitText fraction

section Value

variable {Num : Type} [Field Num]

/-- The digits of the fraction count from the decimal point. -/
def Numeral.value (numeral : Numeral) : Num :=
  let fraction := numeral.fraction.getD []
  accumulate 10 0 ((numeral.whole ++ fraction).map Fin.val) / 10 ^ fraction.length

def Operator.apply (functions : MathFunctions Num) : Operator → Num → Num → Num
  | add => (· + ·)
  | sub => (· - ·)
  | mul => (· * ·)
  | div => (· / ·)
  | exp => functions.pow

def Expr.value (functions : MathFunctions Num) : Expr → Num
  | .numeral number => number.value
  | .operation op left right => op.apply functions (left.value functions) (right.value functions)

def Expr.Divides (functions : MathFunctions Num) : Expr → Prop
  | .numeral _ => True
  | .operation op left right =>
      left.Divides functions ∧ right.Divides functions ∧
        (op = .div → right.value functions ≠ 0)

end Value

/-! ## Printing -/

def Operator.token (op : Operator) : Token := ⟨op.symbol, [op.char]⟩

def opening : Token := ⟨.lpar, [0x28]⟩

def closing : Token := ⟨.rpar, [0x29]⟩

def Expr.level : Expr → Nat
  | .numeral _ => 4
  | .operation op _ _ => op.level

/-- Parentheses around the tokens of an expression where it stands at a higher level. -/
def enclose (bound level : Nat) (tokens : List Token) : List Token :=
  if bound ≤ level then tokens else opening :: (tokens ++ [closing])

section Printing

variable (towers : Associativity)

/-- The level at which the left operand stands. -/
def Operator.leftLevel (op : Operator) : Nat :=
  if op.associativity towers = .left then op.level else op.level + 1

def Operator.rightLevel (op : Operator) : Nat :=
  if op.associativity towers = .right then op.level else op.level + 1

def Expr.tokens : Expr → List Token
  | .numeral number => [⟨.num, number.text⟩]
  | .operation op left right =>
      enclose (op.leftLevel towers) left.level left.tokens ++
        op.token :: enclose (op.rightLevel towers) right.level right.tokens

end Printing

/-- The text of the tokens, with so many spaces in front of each and at the end. -/
def spell : List Token → (gaps : List Nat) → List UInt8
  | [], gaps => List.replicate (gaps.headD 0) 0x20
  | token :: tokens, gaps =>
      List.replicate (gaps.headD 0) 0x20 ++ (token.txt ++ spell tokens gaps.tail)

/-- `tokenize` and `parse` accept the text and find the value. -/
def Accepts {Num : Type} (arithmetic : Arithmetic Num) (heap : Heap) (text : List UInt8)
    (value : Num) : Prop :=
  ∃ after rest, tokenize ⟨heap, []⟩ text = some (true, after) ∧
    parse arithmetic (after.tokens.map Slot.token) = some (some value, rest)

/-! ## Conditions -/

/-- No operator has an operand of its own level without parentheses around it. -/
def Expr.NoChains (towers : Associativity) : Expr → Prop
  | .numeral _ => True
  | .operation op left right =>
      (op.associativity towers = .left → left.level ≠ op.level) ∧
        (op.associativity towers = .right → right.level ≠ op.level) ∧
        left.NoChains towers ∧ right.NoChains towers

/-- The text of each numeral fits in its block, with its `NUL`. -/
def Expr.ShortNumerals : Expr → Prop
  | .numeral number => number.text.length < maxTokLen
  | .operation _ left right => left.ShortNumerals ∧ right.ShortNumerals

/-! ## Numerals are read -/

theorem decimalDigit_digit (digit : Fin 10) :
    decimalDigit (digitChar digit.val) = some digit.val := decimalDigit_digitChar digit.isLt

section Atof

variable {Num : Type} [Field Num]

theorem scan_digitText (digits : List (Fin 10)) {rest : List UInt8}
    (ends : ∀ character ∈ rest.head?, decimalDigit character = none) (start : Num) :
    scan decimalDigit 10 start (digitText digits ++ rest) =
      (accumulate 10 start (digits.map Fin.val), rest) := by
  have known : ∀ digit ∈ digits.map Fin.val, decimalDigit (digitChar digit) = some digit := by
    intro digit isMember
    obtain ⟨small, _, rfl⟩ := List.mem_map.mp isMember
    exact decimalDigit_digit small
  have scanned := scan_digits known ends (10 : Num) start
  rwa [List.map_map] at scanned

theorem iterate_tenth (count : Nat) (number : Num) :
    (fun a : Num => a * 10⁻¹)^[count] number = number / 10 ^ count := by
  induction count generalizing number with
  | zero => simp
  | succ count induction =>
      rw [Function.iterate_succ_apply, induction, pow_succ', ← div_eq_mul_inv, div_div]

theorem accumulate_append (base start : Num) (digits others : List Nat) :
    accumulate base start (digits ++ others) =
      accumulate base (accumulate base start digits) others :=
  List.foldl_append

theorem atof_text (numeral : Numeral) : (atof numeral.text : Num) = numeral.value := by
  obtain ⟨digits, fraction, -⟩ := numeral
  unfold atof Numeral.text Numeral.value
  cases fraction with
  | none =>
      have whole := @scan_digitText Num _ digits [] nofun 0
      rw [List.append_nil] at whole
      simp [whole, exponent]
  | some fraction =>
      have whole := @scan_digitText Num _ digits (0x2E :: digitText fraction)
        (fun _ same => by cases same; rfl) 0
      have behind := @scan_digitText Num _ fraction [] nofun (accumulate 10 0 (digits.map Fin.val))
      rw [List.append_nil] at behind
      have count : (digitText fraction).length = fraction.length := List.length_map _
      simp only [Option.elim_some, whole, List.head?_cons, if_pos, List.tail_cons, behind, exponent,
        List.length_nil, Nat.sub_zero, Option.getD_some, count, add_zero, Int.neg_neg,
        Int.toNat_natCast, Int.toNat_neg_natCast, Function.iterate_zero_apply, iterate_tenth,
        List.map_append, accumulate_append]

end Atof

/-! ## Tokens are read -/

def IsMark (token : Token) : Prop :=
  ∃ ch, token = ⟨symbol ch, [ch]⟩ ∧ symbol ch ∉ [Symbol.dig, .txt, .dec, .inval]

def IsNumber (token : Token) : Prop :=
  ∃ ch more, token = ⟨.num, ch :: more⟩ ∧ symbol ch = .dig ∧
    ∀ character ∈ more, continuesNumber character = true

/-- Marks and numbers, where a mark comes behind each number. -/
def Readable : List Token → Prop
  | [] => True
  | token :: tokens =>
      (IsMark token ∨ IsNumber token ∧ ∀ next ∈ tokens.head?, IsMark next) ∧ Readable tokens

theorem Readable.append {front : List Token} {mark : Token} {behind : List Token}
    (first : Readable front) (isMark : IsMark mark) (second : Readable behind) :
    Readable (front ++ mark :: behind) := by
  induction front with
  | nil => exact ⟨.inl isMark, second⟩
  | cons token front induction =>
      refine ⟨first.1.imp_right fun ⟨isNumber, next⟩ => ⟨isNumber, ?_⟩, induction first.2⟩
      intro other isNext
      cases front with
      | nil =>
          cases isNext
          exact isMark
      | cons head front => exact next other isNext

theorem lexemesFrom_spaces (count fuel : Nat) (last : Option Symbol) (str : List UInt8) :
    lexemesFrom (count + fuel) last (List.replicate count 0x20 ++ str) =
      lexemesFrom fuel last str := by
  induction count with
  | zero => simp
  | succ count induction =>
      rw [List.replicate_succ, List.cons_append, Nat.succ_add, lexemesFrom, if_pos rfl, induction]

section Lexeme

variable {fuel : Nat} {last : Option Symbol} {str : List UInt8}

theorem ne_space {ch : UInt8} (valid : symbol ch ≠ .inval) : ch ≠ 0x20 := by
  rintro rfl
  exact valid (by decide)

theorem lexemesFrom_mark {token : Token} (isMark : IsMark token) :
    lexemesFrom (fuel + 1) last (token.txt ++ str) =
      (token :: (lexemesFrom fuel (some token.symbol) str).1,
        (lexemesFrom fuel (some token.symbol) str).2) := by
  obtain ⟨ch, rfl, apart⟩ := isMark
  simp only [List.mem_cons, List.not_mem_nil, or_false, not_or] at apart
  obtain ⟨notDigit, notAlpha, -, valid⟩ := apart
  have kind : tokenKind last ch = (symbol ch, fun _ => false) := by
    unfold tokenKind
    split <;> first | contradiction | rfl
  have nothing : str.takeWhile (fun _ => false) = [] ∧ str.dropWhile (fun _ => false) = str := by
    cases str <;> exact ⟨rfl, rfl⟩
  rw [List.singleton_append, lexemesFrom, if_neg (ne_space valid), if_neg valid]
  simp only [wordAt, kind, notAlpha, false_and, if_false, nothing]

theorem lexemesFrom_number {token : Token} (isNumber : IsNumber token)
    (notName : last ≠ some .txt)
    (ends : ∀ character ∈ str.head?, continuesNumber character = false) :
    lexemesFrom (fuel + 1) last (token.txt ++ str) =
      (token :: (lexemesFrom fuel (some token.symbol) str).1,
        (lexemesFrom fuel (some token.symbol) str).2) := by
  obtain ⟨ch, more, rfl, isDigit, continues⟩ := isNumber
  have kind : tokenKind last ch = (.num, continuesNumber) := by
    unfold tokenKind
    rw [isDigit]
    exact if_neg notName
  have valid : symbol ch ≠ .inval := by
    rw [isDigit]
    decide
  have stops : str.takeWhile continuesNumber = [] ∧ str.dropWhile continuesNumber = str := by
    cases str with
    | nil => exact ⟨rfl, rfl⟩
    | cons head tail =>
        have different : ¬continuesNumber head = true := by simp [ends head rfl]
        exact ⟨List.takeWhile_cons_of_neg different, List.dropWhile_cons_of_neg different⟩
  rw [List.cons_append, lexemesFrom, if_neg (ne_space valid), if_neg valid]
  simp only [wordAt, kind, reduceCtorEq, false_and, if_false]
  rw [List.takeWhile_append_of_pos continues, List.dropWhile_append_of_pos continues, stops.1,
    stops.2, List.append_nil]

end Lexeme

theorem length_spell_cons (token : Token) (tokens : List Token) (gaps : List Nat) :
    (spell (token :: tokens) gaps).length =
      gaps.headD 0 + (token.txt.length + (spell tokens gaps.tail).length) := by
  rw [spell, List.length_append, List.length_append, List.length_replicate]

theorem head_spell {tokens : List Token} (next : ∀ token ∈ tokens.head?, IsMark token)
    (gaps : List Nat) :
    ∀ character ∈ (spell tokens gaps).head?, continuesNumber character = false := by
  intro character isHead
  cases tokens with
  | nil =>
      have isSpace := List.eq_of_mem_replicate (List.mem_of_mem_head? isHead)
      rw [isSpace]
      decide
  | cons token tokens =>
      rw [spell] at isHead
      cases gap : gaps.headD 0 with
      | zero =>
          obtain ⟨ch, rfl, apart⟩ := next token rfl
          rw [gap] at isHead
          cases isHead
          unfold continuesNumber
          simp_all
      | succ gap =>
          rw [gap, List.replicate_succ] at isHead
          cases isHead
          decide

theorem lexemesFrom_spell {tokens : List Token} (readable : Readable tokens) (gaps : List Nat)
    {fuel : Nat} {last : Option Symbol} (notName : last ≠ some .txt)
    (enough : (spell tokens gaps).length < fuel) :
    lexemesFrom fuel last (spell tokens gaps) = (tokens, .complete) := by
  induction tokens generalizing gaps fuel last with
  | nil =>
      rw [spell, List.length_replicate] at enough
      obtain ⟨depth, rfl⟩ := Nat.exists_eq_add_of_lt enough
      have skipped := lexemesFrom_spaces (gaps.headD 0) (depth + 1) last []
      rw [List.append_nil] at skipped
      rw [spell, Nat.add_assoc, skipped]
      rfl
  | cons token tokens induction =>
      obtain ⟨isLexeme, later⟩ := readable
      rw [length_spell_cons] at enough
      have nonempty : 0 < token.txt.length := by
        rcases isLexeme with ⟨ch, rfl, -⟩ | ⟨⟨ch, more, rfl, -⟩, -⟩
        · exact Nat.one_pos
        · exact Nat.succ_pos _
      obtain ⟨depth, rfl⟩ : ∃ depth, fuel = gaps.headD 0 + (depth + 1) :=
        ⟨fuel - gaps.headD 0 - 1, by omega⟩
      rw [spell, lexemesFrom_spaces]
      rcases isLexeme with isMark | ⟨isNumber, next⟩
      · have noName : some token.symbol ≠ some .txt := by
          obtain ⟨ch, rfl, apart⟩ := isMark
          simp_all
        rw [lexemesFrom_mark isMark, induction later gaps.tail noName (by omega)]
      · have noName : some token.symbol ≠ some .txt := by
          obtain ⟨ch, more, rfl, -⟩ := isNumber
          nofun
        rw [lexemesFrom_number isNumber notName (head_spell next _),
          induction later gaps.tail noName (by omega)]

theorem lexemes_spell {tokens : List Token} (readable : Readable tokens) (gaps : List Nat) :
    lexemes (spell tokens gaps) = (tokens, .complete) :=
  lexemesFrom_spell readable gaps nofun (Nat.lt_succ_self _)

/-! ## The tokens of an expression -/

theorem symbol_digitChar (digit : Fin 10) : symbol (digitChar digit.val) = .dig := by
  revert digit
  decide

theorem isNumber_numeral (numeral : Numeral) : IsNumber ⟨.num, numeral.text⟩ := by
  obtain ⟨whole, fraction, nonempty⟩ := numeral
  obtain ⟨first, digits, rfl⟩ := List.exists_cons_of_ne_nil nonempty
  have continues : ∀ digits : List (Fin 10), ∀ character ∈ digitText digits,
      continuesNumber character = true := by
    intro digits character isMember
    obtain ⟨digit, _, rfl⟩ := List.mem_map.mp isMember
    rw [continuesNumber, symbol_digitChar]
    rfl
  refine ⟨digitChar first.val, digitText digits ++
    fraction.elim [] fun fraction => 0x2E :: digitText fraction, rfl, symbol_digitChar first, ?_⟩
  intro character isMember
  rcases List.mem_append.mp isMember with inWhole | inFraction
  · exact continues digits character inWhole
  · cases fraction with
    | none => cases inFraction
    | some fraction =>
        rcases List.mem_cons.mp inFraction with rfl | later
        · decide
        · exact continues fraction character later

theorem isMark_token (op : Operator) : IsMark op.token :=
  ⟨op.char, by cases op <;> rfl, by cases op <;> decide⟩

theorem isMark_opening : IsMark opening := ⟨0x28, rfl, by decide⟩

theorem isMark_closing : IsMark closing := ⟨0x29, rfl, by decide⟩

theorem Readable.enclose {tokens : List Token} (readable : Readable tokens) (bound level : Nat) :
    Readable (enclose bound level tokens) := by
  unfold Calc.enclose
  split
  · exact readable
  · exact ⟨.inl isMark_opening, readable.append isMark_closing trivial⟩

theorem readable_tokens (towers : Associativity) (expr : Expr) :
    Readable (expr.tokens towers) := by
  induction expr with
  | numeral numeral => exact ⟨.inr ⟨isNumber_numeral numeral, nofun⟩, trivial⟩
  | operation op left right inductionLeft inductionRight =>
      exact (inductionLeft.enclose _ _).append (isMark_token op) (inductionRight.enclose _ _)

theorem forall_tokens_short_iff (towers : Associativity) (expr : Expr) :
    (∀ token ∈ expr.tokens towers, token.txt.length < maxTokLen) ↔ expr.ShortNumerals := by
  induction expr with
  | numeral numeral => simp [Expr.tokens, Expr.ShortNumerals]
  | operation op left right inductionLeft inductionRight =>
      have enclosed : ∀ (bound level : Nat) (tokens : List Token),
          (∀ token ∈ enclose bound level tokens, token.txt.length < maxTokLen) ↔
            ∀ token ∈ tokens, token.txt.length < maxTokLen := by
        intro bound level tokens
        unfold enclose
        split
        · exact Iff.rfl
        · simp [opening, closing, maxTokLen, or_imp, forall_and]
      rw [Expr.tokens, Expr.ShortNumerals, ← inductionLeft, ← inductionRight,
        ← enclosed (op.leftLevel towers) left.level (left.tokens towers),
        ← enclosed (op.rightLevel towers) right.level (right.tokens towers)]
      have isShort : op.token.txt.length < maxTokLen := by
        unfold maxTokLen
        exact Nat.lt_of_le_of_lt (Nat.le_refl 1) (by omega)
      simp only [List.forall_mem_append, List.forall_mem_cons, isShort, true_and]

/-! ## Text is accepted -/

theorem Readable.noEnd {tokens : List Token} (readable : Readable tokens) :
    ∀ token ∈ tokens, token.symbol ≠ .eof := by
  induction tokens with
  | nil => nofun
  | cons token tokens induction =>
      intro other isMember
      rcases List.mem_cons.mp isMember with rfl | later
      · rcases readable.1 with ⟨ch, rfl, -⟩ | ⟨⟨ch, more, rfl, -⟩, -⟩
        · exact symbol_ne_eof ch
        · nofun
      · exact induction readable.2 other later

theorem accepts_spell_iff {Num : Type} {arithmetic : Arithmetic Num} {tokens : List Token}
    (readable : Readable tokens) (few : tokens.length ≤ 63) (gaps : List Nat) (heap : Heap)
    (value : Num) :
    Accepts arithmetic heap (spell tokens gaps) value ↔
      Derives arithmetic 1 tokens value ∧ ∀ token ∈ tokens, token.txt.length < maxTokLen := by
  have lexed := lexemes_spell readable gaps
  have fits : FitsLine (spell tokens gaps) ↔ ∀ token ∈ tokens, token.txt.length < maxTokLen := by
    unfold FitsLine
    rw [lexed]
    constructor
    · intro fitsLine
      exact fitsLine.1.tokens
    · intro short
      exact ⟨⟨short, nofun, few.trans (by decide)⟩, fun _ => Nat.lt_succ_of_le few⟩
  unfold Accepts
  by_cases short : ∀ token ∈ tokens, token.txt.length < maxTokLen
  case neg =>
    have stuck := tokenize_of_not_fits heap (mt fits.mp short)
    simp [stuck, short]
  case pos =>
    obtain ⟨after, slots, isAfter, stored, texts⟩ :=
      tokenize_complete heap (fits.mpr short) (by rw [lexed])
    have isTokens : after.tokens.map Slot.token = tokens ++ [eofToken] := by
      rw [stored, List.map_append, texts, lexed]
      rfl
    rw [and_iff_left short]
    constructor
    · rintro ⟨other, rest, isOther, accepted⟩
      cases isAfter.symm.trans isOther
      rw [isTokens] at accepted
      rcases parse_cases readable.noEnd with ⟨found, derives, isFound⟩ | ⟨-, after, rejected, -⟩
      · cases isFound.symm.trans accepted
        exact derives
      · cases rejected.symm.trans accepted
    · intro derives
      exact ⟨after, [], isAfter, by rw [isTokens, parse_of_derives derives]⟩

end Dbos.Calc
