import ListCalc.Operator.Scalar
import ListCalc.Value.Outline

/-!
# Operator — lists

* `cons` appends to the list on its left in place, or starts a new list of two elements;
* `intersect` is set intersection under structural equality, in the order of the left list;
* `range` lists the steps of one from its left bound up to its right bound.

`intersect` and `range` always give a new list.
-/

namespace ListCalc

/-- The two values joined. -/
def cons (h : Heap) (left right : Value) : Value × Heap :=
  match left with
  | .list r => (left, h.append r right)
  | left    => h.newList #[left, right]

/-- Whether an element of the list is structurally equal to `v`. -/
def containsSame (h : Heap) (items : List Value) (v : Value) : Bool :=
  items.any fun item => item.same h v

/-- The first of each class of equal elements of `left` that has a member in `right`; `found` are
the ones found so far, the last one first. -/
def commonItems (h : Heap) (right found : List Value) : List Value → List Value
  | []           => found.reverse
  | item :: left =>
    if containsSame h right item && !containsSame h found.reverse item then
      commonItems h right (item :: found) left
    else commonItems h right found left

/-- The elements of an intersection; two values that are no lists have none in common. -/
def intersection (h : Heap) : Value → Value → List Value
  | .list a, .list b => commonItems h (h.get b).toList [] (h.get a).toList
  | .list a, scalar  => if containsSame h (h.get a).toList scalar then [scalar] else []
  | scalar,  .list b => if containsSame h (h.get b).toList scalar then [scalar] else []
  | _,       _       => []

/-- A new list of what two values have in common. -/
def intersect (h : Heap) (left right : Value) : Value × Heap :=
  h.newList (intersection h left right).toArray

/-- The longest list that a range may be. -/
def maxRangeLength : Nat := 0x100000

/-- Appends `count` values to `items`: what `value` makes of `current`, of what comes next, and so
on. -/
def steps {α : Type} (value : α → Value) (next : α → α) (items : Array Value) (current : α) :
    Nat → Array Value
  | 0         => items
  | count + 1 => steps value next (items.push (value current)) (next current) count

/-- `count` integers from `low` on, each one more than the one before. -/
def integerSteps (low : Int) (count : Nat) : Array Value :=
  steps .integer (· + 1) #[] low count

/-- `count` decimals from `low` on, each one more than the one before. -/
def decimalSteps (low : Decimal) (count : Nat) : Array Value :=
  steps .decimal (fun d => d.add .one) #[] low count

/-- The elements of a range, or nothing if there are too many. -/
def rangeItems? : Number → Number → Option (Array Value)
  | .integer low, .integer high =>
    if low > high then some #[]
    else
      let count := high - low + 1
      if count ≤ maxRangeLength then some (integerSteps low count.toNat) else none
  | a, b =>
    let (low, high) := (a.toDecimal, b.toDecimal)
    if high.lt low then some #[]
    else
      let count := (Number.decimal (high.difference low)).toInteger + 1
      if count ≤ maxRangeLength then some (decimalSteps low count.toNat) else none

/-- A new list of the steps from one number up to another, unless there are too many. -/
def range (h : Heap) (left right : Value) : Except OperatorFault (Value × Heap) := do
  let a ← left.toNumber h
  let b ← right.toNumber h
  match rangeItems? a b with
  | some items => return h.newList items
  | none       => throw (.rangeTooLarge (left.shown h) (right.shown h))

end ListCalc
