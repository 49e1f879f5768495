import ListCalc.Expr.Basic
import ListCalc.World

/-!
# Evaluation

`evaluate` gives the value of a tree and does what the tree asks for on the way: assignments,
appending to lists, reading and writing.  Operands are evaluated from left to right.  A fault is
reported at the token of the operator that failed, and the world stays as it was then.

* An unbound name is a symbol.
* A name that stands as an operator is looked up after its operands are evaluated.
* The callee of `$` is evaluated first; the argument only if the callee is a unary operator.
* The short-circuit forms evaluate their right operand only if the left one leaves the result open.
* `value @ text` reads, writes or asks the clock; any other text does nothing.

`interpret` evaluates trees in order and prints each value on a line of its own.
-/

namespace ListCalc

/-- Fails at a token. -/
def failAt {α : Type} (t : Token) (fault : RuntimeFault) : Eval α :=
  throw (.atToken t fault)

/-- Applies an operator that may read and extend the heap.  Its faults are reported at `t`; what it
has done to the heap before a fault stays. -/
def operate (t : Token) (op : Operation Value) : Eval Value := do
  match op (← get).heap with
  | .ok v h        => modify fun w => { w with heap := h }; return v
  | .error fault h => modify fun w => { w with heap := h }; failAt t (.operator fault)

/-- Applies an operator that leaves the heap as it is. -/
def inspect {α : Type} (t : Token) (op : Heap → Except OperatorFault α) : Eval α := do
  match op (← get).heap with
  | .ok a        => return a
  | .error fault => failAt t (.operator fault)

/-- Does something to a stream; its faults are reported at `t`. -/
def stream {α : Type} (t : Token) (result : Except StreamFault α) : Eval α :=
  match result with
  | .ok a        => pure a
  | .error fault => failAt t (.stream fault)

/-- The value of a literal. -/
def literalValue (value : Literal) : Eval Value := do
  let (v, h) := value.toValue (← get).heap
  modify fun w => { w with heap := h }
  return v

/-! ### Reading and writing -/

/-- Writes a value on a line of the output. -/
def printLine (t : Token) (v : Value) : Eval Unit := do
  let w ← get
  let out ← stream t (w.out.write (w.shown v ++ "\n"))
  set { w with out := out }
  stream t out.flush

/-- Writes a value on a line of the error output, which is not flushed. -/
def reportLine (t : Token) (v : Value) : Eval Unit := do
  let w ← get
  let err ← stream t (w.err.write (w.shown v ++ "\n"))
  set { w with err := err }

/-- Takes a line of the input; it is gone also if it is no text. -/
def takeLine (t : Token) : Eval String := do
  let input := (← get).input
  modify fun w => { w with input := input.skipLine }
  stream t input.line

/-- The seconds that the clock shows. -/
def readClock : Eval Nat := do
  let clock := (← get).clock
  modify fun w => { w with clock := clock.tick }
  return clock.now

/-- The operator `@` with its operands evaluated. -/
def exchange (t : Token) (left right : Value) : Eval Value :=
  match right with
  | .text "in"  => do let _ ← takeLine t; return left
  | .text "out" => do printLine t left; return left
  | .text "err" => do reportLine t left; return left
  | .text "now" => do return .integer (← readClock)
  | _           => pure left

/-! ### Operators that names are bound to -/

/-- Applies the operator with one operand that the token names. -/
def applyUnary (t : Token) (v : Value) : Eval Value := do
  match (← get).env.extension? t.lexeme with
  | some ⟨_, _, .unary action⟩ => operate t (action.run v)
  | _                          => failAt t (.unknownOperator t.lexeme)

/-- Applies the operator with two operands that the token names. -/
def applyBinary (t : Token) (left right : Value) : Eval Value := do
  match (← get).env.extension? t.lexeme with
  | some ⟨_, _, .binary action⟩ => operate t (action.run left right)
  | _                           => failAt t (.unknownOperator t.lexeme)

/-! ### Trees -/

/-- Applies a binary operator to evaluated operands.  Assignment and the short-circuit forms are
not reached here: they do not evaluate both. -/
def operateBinary (t : Token) : BinaryOp → Value → Value → Eval Value
  | .arith op,   l, r => inspect t fun h => op.apply h l r
  | .compare op, l, r => inspect t fun h => op.apply h l r
  | .logic op _, l, r => inspect t fun h => op.apply h l r
  | .cons,       l, r => operate t (modifyGet fun h => cons h l r)
  | .intersect,  l, r => operate t (modifyGet fun h => intersect h l r)
  | .range,      l, r => operate t (.attempt fun h => range h l r)
  | .exchange,   l, r => exchange t l r
  | .assign,     _, r => pure r

/-- Evaluates a tree. -/
def evaluate : Expr → Eval Value
  | .literal _ value => literalValue value
  | .group _ e _     => evaluate e
  | .name t          => do return ((← get).env.get? t.lexeme).getD (.symbol t.lexeme)
  | .unary t e       => do
    let v ← evaluate e
    match UnaryOp.ofKind? t.kind with
    | some op => inspect t fun h => op.apply h v
    | none    => applyUnary t v
  | .binary left t right =>
    match BinaryOp.ofKind? t.kind with
    | some .assign =>
      match left with
      | .name target => do
        let v ← evaluate right
        modify fun w => { w with env := w.env.set target.lexeme v }
        return v
      | _ => failAt t .invalidTarget
    | some (.logic op true) => do
      let l ← evaluate left
      if ← inspect t fun h => op.proceeds h l then
        let r ← evaluate right
        inspect t fun h => op.apply h l r
      else return .boolean op.settled
    | some op => do
      let l ← evaluate left
      let r ← evaluate right
      operateBinary t op l r
    | none => do
      let l ← evaluate left
      let r ← evaluate right
      applyBinary t l r
  | .call callee t argument => do
    match ← evaluate callee with
    | .callable ⟨_, _, .unary action⟩ => do
      let v ← evaluate argument
      operate t (action.run v)
    | _ => failAt t .notCallable

/-- Evaluates trees in order and prints each value; the first fault ends it. -/
def interpret : List Expr → Eval Unit
  | []      => pure ()
  | e :: es => do
    let v ← evaluate e
    printLine e.token v
    interpret es

end ListCalc
