import ListCalc.Token.Basic

/-!
# Operator — the operators of the language

Which token kinds are operators, and which operators they are.  All binary operators stand on one
level and group to the left; only assignment to a name takes the rest of its expression
(`Expr/Parse`).
-/

namespace ListCalc

/-- The operators that reckon with numbers. -/
inductive Arith where
  | sum | sub | mul | div | mod | pow
deriving DecidableEq, Inhabited

/-- The operators that compare two numbers. -/
inductive Comparison where
  | gt | ge | lt | le | eq | ne
deriving DecidableEq, Inhabited

/-- The operators that join two truth values. -/
inductive Logic where
  | and | or
deriving DecidableEq, Inhabited

/-- The operators of one operand that are no names. -/
inductive UnaryOp where
  /-- Whether the operand counts as true. -/
  | truthy
  | negate
deriving DecidableEq, Inhabited

/-- The operators of two operands that are no names. -/
inductive BinaryOp where
  | arith (op : Arith)
  | compare (op : Comparison)
  /-- The doubled tokens are the short-circuit forms. -/
  | logic (op : Logic) (shortCircuit : Bool)
  | cons
  | intersect
  | range
  | assign
  /-- Reading, writing and the clock. -/
  | exchange
deriving DecidableEq, Inhabited

/-- The operator that a token stands for before its operand. -/
def UnaryOp.ofKind? : TokenKind → Option UnaryOp
  | .tilde => some truthy
  | .minus => some negate
  | _      => none

/-- The operator that a token stands for between its operands. -/
def BinaryOp.ofKind? : TokenKind → Option BinaryOp
  | .plus               => some (arith .sum)
  | .minus              => some (arith .sub)
  | .star               => some (arith .mul)
  | .slash              => some (arith .div)
  | .percent            => some (arith .mod)
  | .caret              => some (arith .pow)
  | .greater            => some (compare .gt)
  | .greaterEqual       => some (compare .ge)
  | .less               => some (compare .lt)
  | .lessEqual          => some (compare .le)
  | .equal              => some (compare .eq)
  | .lessGreater        => some (compare .ne)
  | .pipe               => some (logic .or false)
  | .pipePipe           => some (logic .or true)
  | .ampersand          => some (logic .and false)
  | .ampersandAmpersand => some (logic .and true)
  | .semicolon          => some cons
  | .dot                => some intersect
  | .dotDot             => some range
  | .colon              => some assign
  | .colonEqual         => some assign
  | .at                 => some exchange
  | _                   => none

/-- How many operands an operator takes that a name is bound to. -/
inductive Arity where
  | unary
  | binary
deriving DecidableEq, Inhabited

/-- The word for an arity. -/
def Arity.name : Arity → String
  | unary  => "unary"
  | binary => "binary"

/-- What a parse knows about names: those bound to operators, with their arity. -/
abbrev Arities := String → Option Arity

end ListCalc
