import ListCalc.Value.Heap

/-!
# Value — values as numbers and truth values

Data of every kind counts for a number: a truth value for 0 or 1, a text for its number of
characters, a list for its number of elements.  It counts as true unless that number is zero.
Symbols and operators are no data and count for nothing.
-/

namespace ListCalc

namespace Value

/-- The number that a value counts for. -/
def toNumber (h : Heap) : Value → Except OperatorFault Number
  | decimal d    => .ok (.decimal d)
  | integer n    => .ok (.integer n)
  | boolean b    => .ok (.integer (if b then 1 else 0))
  | text s       => .ok (.integer s.length)
  | list r       => .ok (.integer (h.get r).size)
  | v@(symbol _) | v@(callable _) => .error (.notCoercible v.kind)

/-- Whether a value counts as true. -/
def isTruthy (h : Heap) : Value → Except OperatorFault Bool
  | decimal d    => .ok (!d.isZero)
  | integer n    => .ok (n != 0)
  | boolean b    => .ok b
  | text s       => .ok (!s.isEmpty)
  | list r       => .ok (!(h.get r).isEmpty)
  | v@(symbol _) | v@(callable _) => .error (.notCoercible v.kind)

end Value

end ListCalc
