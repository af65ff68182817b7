import Dbos.Foundation.Descent
import Dbos.Userland.Calc.Tokens

/-! # The parser of the calculator

Recursive descent over the tokens from `next_tok` on. The numbers and what is done with
them are a parameter. The grammar that the functions follow has no loops: at each level
there is at most one operator between two operands. -/

namespace Dbos.Calc

open Descent.Parse

/-! ## Numbers -/

/-- `num_t`, `strtod` and the operations on numbers. -/
structure Arithmetic (Num : Type) where
  zero : Num
  strtod : List UInt8 → Num
  add : Num → Num → Num
  sub : Num → Num → Num
  mul : Num → Num → Num
  div : Num → Num → Num
  pow : Num → Num → Num
  isZero : Num → Bool
  unary : Func → Num → Num
  binary : Func → Num → Num → Num

namespace Arithmetic

variable {Num : Type} (arithmetic : Arithmetic Num)

def performOp (op : Symbol) (op1 op2 : Num) : Option Num :=
  match op with
  | .add => some (arithmetic.add op1 op2)
  | .sub => some (arithmetic.sub op1 op2)
  | .mul => some (arithmetic.mul op1 op2)
  | .div => if arithmetic.isZero op2 then none else some (arithmetic.div op1 op2)
  | .exp => some (arithmetic.pow op1 op2)
  | _ => none

/-- `perf_func`; `none` for the function is `inval_f`. -/
def performFunc (func : Option Func) (op1 : Num) (op2 : Option Num) : Option Num :=
  match func, op2 with
  | none, _ => none
  | some func, some op2 =>
      if func = .fmod ∨ func = .atan2 then some (arithmetic.binary func op1 op2) else none
  | some func, none =>
      if func = .fmod ∨ func = .atan2 then none else some (arithmetic.unary func op1)

end Arithmetic

/-! ## The functions -/

/-- A parser of the stored tokens, from `next_tok` on. It rejects with the status `-1`. The
result is `none` where a pointer behind the stored tokens is followed. -/
abbrev Parse (Value : Type) : Type := Descent.Parse Token Value

/-- `_accept_token`, where `get_next` moves on. -/
def acceptToken (sym : Symbol) : Parse Unit := acceptIf fun token => token.symbol = sym

variable {Num : Type} (arithmetic : Arithmetic Num)

/-- Without a second argument there is no value. -/
def parseFuncRest (parseAtom : Parse Num) : Parse (Option Num) := do
  let tok ← nextToken
  if tok.symbol = .rpar then
    acceptToken .rpar
    return none
  else if tok.symbol = .comma then
    acceptToken .comma
    let result ← parseAtom
    acceptToken .rpar
    return some result
  else reject

/-- The symbol of the name becomes that of the function, which the rest of the function
reads. -/
def parseFunc (parseAtom : Parse Num) : Parse Num := do
  let funcTok ← nextToken
  acceptToken funcTok.symbol
  acceptToken .lpar
  let op1 ← parseAtom
  let op2 ← parseFuncRest parseAtom
  ofOption (arithmetic.performFunc (getFunc funcTok.txt) op1 op2)

def parseNumb : Parse Num := do
  let tok ← nextToken
  acceptToken .num
  return arithmetic.strtod tok.txt

def parseSAtom (parseAtom : Parse Num) : Parse Num := do
  let tok ← nextToken
  if tok.symbol = .sub then
    acceptToken .sub
    let result ← parseAtom
    return arithmetic.sub arithmetic.zero result
  else parseAtom

/-- One operand, or two operands with one of the operators between them. -/
def parseOperation (ops : List Symbol) (parseOperand : Parse Num) : Parse Num := do
  let op1 ← parseOperand
  let tok ← nextToken
  if tok.symbol ∈ ops then
    acceptToken tok.symbol
    let op2 ← parseOperand
    ofOption (arithmetic.performOp tok.symbol op1 op2)
  else return op1

def parseFactor (parseAtom : Parse Num) : Parse Num :=
  parseOperation arithmetic [.exp] (parseSAtom arithmetic parseAtom)

def parseTerm (parseAtom : Parse Num) : Parse Num :=
  parseOperation arithmetic [.mul, .div] (parseFactor arithmetic parseAtom)

/-- Behind an operation there is no `return`; the status is then that of `perf_op`. -/
def parseExpression (parseAtom : Parse Num) : Parse Num :=
  parseOperation arithmetic [.add, .sub] (parseTerm arithmetic parseAtom)

/-- Parentheses and calls nest no deeper than `fuel`. Behind a number or a call there is no
`return`; the status is then that of the last call, which has returned `0`. -/
def parseAtom : (fuel : Nat) → Parse Num
  | 0 => fun _ => none
  | fuel + 1 => do
      let tok ← nextToken
      if tok.symbol = .lpar then
        acceptToken .lpar
        let result ← parseExpression arithmetic (parseAtom fuel)
        acceptToken .rpar
        return result
      else if tok.symbol = .num then parseNumb arithmetic
      else if tok.symbol = .txt then parseFunc arithmetic (parseAtom fuel)
      else reject

/-- `parse`, where every level of nesting has a token of its own. -/
def parse : Parse Num := fun tokens =>
  (do
    let result ← parseExpression arithmetic (parseAtom arithmetic tokens.length)
    acceptToken eofToken.symbol
    return result : Parse Num) tokens

end Dbos.Calc
