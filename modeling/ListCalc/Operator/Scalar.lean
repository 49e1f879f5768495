import ListCalc.Operator.Power
import ListCalc.Value.Coerce

/-!
# Operator — arithmetic, comparison and logic

These operators look at the numbers or truth values that their operands count for and change
nothing.  Arithmetic on two integers gives an integer, and a decimal as soon as one operand is one;
`%` of two truth values is their conjunction.  Comparison is by number, so a text or a list is
compared by its length.

The left operand is coerced before the right one, so of two operands that are no data the fault
names the left.
-/

namespace ListCalc

namespace Arith

/-- The operation on two integers. -/
def integers : Arith → Int → Int → Except OperatorFault Int
  | sum, a, b => .ok (a + b)
  | sub, a, b => .ok (a - b)
  | mul, a, b => .ok (a * b)
  | div, a, b => if b = 0 then .error .divisionByZero else .ok (a.tdiv b)
  | mod, a, b => if b = 0 then .error .divisionByZero else .ok (a.fmod b)
  | pow, a, b => integerPower a b

/-- The operation on two decimals. -/
def decimals : Arith → Decimal → Decimal → Except OperatorFault Decimal
  | sum, a, b => .ok (a.add b)
  | sub, a, b => .ok (a.sub b)
  | mul, a, b => .ok (a.mul b)
  | div, a, b => if b.isZero then .error .divisionByZero else .ok (a.div b)
  | mod, a, b => if b.isZero then .error .divisionByZero else .ok (a.modFloor b)
  | pow, a, b => a.power b

/-- The operation on two numbers; the result is an integer if both are. -/
def numbers (op : Arith) : Number → Number → Except OperatorFault Number
  | .integer a, .integer b => (op.integers a b).map .integer
  | a,          b          => (op.decimals a.toDecimal b.toDecimal).map .decimal

/-- The operation on two values, each taken as the number that it counts for. -/
def apply (op : Arith) (h : Heap) (left right : Value) : Except OperatorFault Value :=
  match op, left, right with
  | mod, .boolean a, .boolean b => .ok (.boolean (a && b))
  | op,  left,       right      => do
    let a ← left.toNumber h
    let b ← right.toNumber h
    return (← op.numbers a b).toValue

end Arith

/-- Order by value. -/
def Number.order : Number → Number → Ordering
  | .integer a, .integer b => compare a b
  | a,          b          => a.toDecimal.order b.toDecimal

namespace Comparison

/-- Whether the comparison holds of two numbers in this order. -/
def holds : Comparison → Ordering → Bool
  | gt, o => o == .gt
  | ge, o => o != .lt
  | lt, o => o == .lt
  | le, o => o != .gt
  | eq, o => o == .eq
  | ne, o => o != .eq

/-- The comparison of two values, each taken as the number that it counts for. -/
def apply (op : Comparison) (h : Heap) (left right : Value) : Except OperatorFault Value := do
  let a ← left.toNumber h
  let b ← right.toNumber h
  return .boolean (op.holds (a.order b))

end Comparison

namespace Logic

/-- The truth value that two truth values are joined to. -/
def combine : Logic → Bool → Bool → Bool
  | and, a, b => a && b
  | or,  a, b => a || b

/-- The operation on two values, each taken as the truth value that it counts for. -/
def apply (op : Logic) (h : Heap) (left right : Value) : Except OperatorFault Value := do
  let a ← left.isTruthy h
  let b ← right.isTruthy h
  return .boolean (op.combine a b)

/-- Whether the short-circuit form goes on to its right operand. -/
def proceeds (op : Logic) (h : Heap) (left : Value) : Except OperatorFault Bool := do
  let a ← left.isTruthy h
  return match op with
    | and => a
    | or  => !a

/-- The result of the short-circuit form when it does not go on. -/
def settled : Logic → Bool
  | and => false
  | or  => true

end Logic

/-- The operation on one value; what is negated has to be a number itself. -/
def UnaryOp.apply (h : Heap) : UnaryOp → Value → Except OperatorFault Value
  | truthy, v          => (v.isTruthy h).map .boolean
  | negate, .decimal d => .ok (.decimal d.neg)
  | negate, .integer n => .ok (.integer (-n))
  | negate, _          => .error .notANumber

end ListCalc
