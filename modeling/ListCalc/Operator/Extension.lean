import ListCalc.Operator.Lists

/-!
# Operator — operators that names are bound to

What the action of a `Callable` does, as an `Operation`: it gives a value or a fault, and the heap
is as it left it in both cases.  A `Body` runs over the values of its operands.

`builtins` are the three operators that every session starts with: the number of elements of a
value, the pairs of elements of two values, and the orderings of the elements of a value.  A value
that is no list stands for the list that holds just it.
-/

namespace ListCalc

/-- The elements of a list; any other value is the one element of itself. -/
def elements (h : Heap) : Value → List Value
  | .list r => (h.get r).toList
  | v       => [v]

/-- The number of characters of a text, of elements of a list, and one for anything else. -/
def size (h : Heap) : Value → Nat
  | .text s => s.length
  | .list r => (h.get r).size
  | _       => 1

/-- Adds a list for each of the given contents, and a list of these lists. -/
def listOfLists (h : Heap) (contents : List (Array Value)) : Value × Heap :=
  let (items, h) := h.newLists contents
  h.newList items

/-- The pairs of elements, the left element varying slowest. -/
def pairs (left right : List Value) : List (Array Value) :=
  left.flatMap fun a => right.map fun b => #[a, b]

/-- The list of all pairs of an element of the one and an element of the other, each a list. -/
def product (h : Heap) (left right : Value) : Value × Heap :=
  listOfLists h (pairs (elements h left) (elements h right))

/-- The longest list whose orderings are listed. -/
def maxPermuted : Nat := 8

/-- A search for the orderings of `n` items. -/
structure Search (n : Nat) where
  /-- Which of the items are in use. -/
  used : Vector Bool n
  /-- The items in use, in the order in which they were chosen. -/
  current : Array Value
  /-- The lists that were found. -/
  out : Array Value
  heap : Heap

namespace Search

variable {n : Nat}

/-- Nothing is chosen or found yet. -/
def start (n : Nat) (h : Heap) : Search n := ⟨.replicate n false, #[], #[], h⟩

/-- Puts a list of the chosen items behind those that were found. -/
def record (s : Search n) : Search n :=
  let (v, h) := s.heap.newList s.current
  { s with out := s.out.push v, heap := h }

/-- Takes the item at `i` as the next one. -/
def choose (s : Search n) (i : Fin n) (item : Value) : Search n :=
  { s with used := s.used.set i true, current := s.current.push item }

/-- Takes the last choice back, which was the one of the item at `i`. -/
def release (s : Search n) (i : Fin n) : Search n :=
  { s with used := s.used.set i false, current := s.current.pop }

end Search

/-- Fills the places that are left with the items not in use, in every way: for each place the items
are chosen one after the other, and each choice is taken back. -/
def permute (items : List Value) (left : Nat) (s : Search items.length) : Search items.length :=
  match left with
  | 0        => s.record
  | left + 1 =>
    (List.finRange items.length).foldl
      (fun s i =>
        if s.used.get i then s else (permute items left (s.choose i (items.get i))).release i) s

/-- The list of all orderings of the elements, each a list, unless there are too many elements. -/
def permutations (h : Heap) (v : Value) : Except OperatorFault (Value × Heap) :=
  let items := elements h v
  if items.length ≤ maxPermuted then
    let found := permute items items.length (.start items.length h)
    .ok (found.heap.newList found.out)
  else
    .error (.extension ("Cannot permute " ++ items.length.repr ++ " elements, at most " ++
      maxPermuted.repr ++ " are allowed."))

/-! ### Operations on the heap -/

/-- A computation over the heap; one that fails keeps the heap as it was left at the fault. -/
abbrev Operation := EStateM OperatorFault Heap

namespace Operation

variable {α : Type}

/-- Does something to the heap that changes nothing if it fails. -/
def attempt (f : Heap → Except OperatorFault (α × Heap)) : Operation α := fun h =>
  match f h with
  | .ok (a, h')   => .ok a h'
  | .error fault  => .error fault h

/-- Looks at the heap. -/
def look (f : Heap → Except OperatorFault α) : Operation α :=
  attempt fun h => (f h).map fun a => (a, h)

/-- How the operation ends on a heap; what a failing one has done to it is left out. -/
def outcome (op : Operation α) (h : Heap) : Except OperatorFault (α × Heap) :=
  match op h with
  | .ok a h'        => .ok (a, h')
  | .error fault _  => .error fault

end Operation

/-! ### Actions -/

namespace Body

/-- A list that the host keeps, if it is there. -/
def heldList (ref : ListRef) (h : Heap) : Value × Heap :=
  if h.Has ref then (.list ref, h) else h.newList #[]

/-- What a body does with the values of its operands. -/
def run {n : Nat} (operands : Vector Value n) : Body n → Operation Value
  | operand place         => pure (operands.get place)
  | literal value         => modifyGet fun h => value.toValue h
  | held ref              => modifyGet (heldList ref)
  | compare op left right => do
    let l ← left.run operands
    let r ← right.run operands
    .look fun h => op.apply h l r
  | join left right       => do
    let l ← left.run operands
    let r ← right.run operands
    modifyGet fun h => cons h l r
  | andThen first second  => do
    let v ← first.run operands
    second.run (operands.push v)
  | choose test yes no    => do
    let v ← test.run operands
    if ← .look fun h => v.isTruthy h then yes.run operands else no.run operands
  | refuse reason         => throw (.extension reason)

end Body

/-- An operand by itself, as a body counts it. -/
def soleOperand (v : Value) : Vector Value 1 := #v[v]

/-- Two operands, as a body counts them. -/
def bothOperands (l r : Value) : Vector Value 2 := #v[l, r]

namespace UnaryAction

/-- What an operator does with its operand. -/
def run : UnaryAction → Value → Operation Value
  | size,         v => return .integer (ListCalc.size (← get) v)
  | permutations, v => .attempt fun h => ListCalc.permutations h v
  | host body,    v => body.run (soleOperand v)

/-- How an operator ends on a heap. -/
def apply (h : Heap) (action : UnaryAction) (v : Value) : Except OperatorFault (Value × Heap) :=
  (action.run v).outcome h

end UnaryAction

namespace BinaryAction

/-- What an operator does with its operands. -/
def run : BinaryAction → Value → Value → Operation Value
  | product,   l, r => modifyGet fun h => ListCalc.product h l r
  | host body, l, r => body.run (bothOperands l r)

/-- How an operator ends on a heap. -/
def apply (h : Heap) (action : BinaryAction) (l r : Value) :
    Except OperatorFault (Value × Heap) :=
  (action.run l r).outcome h

end BinaryAction

/-- The operators that every session starts with. -/
def builtins : List Callable :=
  [⟨0, "size", .unary .size⟩, ⟨1, "cproduct", .binary .product⟩,
   ⟨2, "permutations", .unary .permutations⟩]

end ListCalc
