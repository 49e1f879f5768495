import ListCalc.Fault
import ListCalc.Operator.Table

/-!
# Value — values and operators as values

A value is a number, a truth value, a text, a reference to a list, a symbol (a name that was
unbound when it was evaluated) or an operator that a name can be bound to.  The contents of lists
live in the heap (`Value/Heap`), so a value itself is finite data.

A `Callable` is what an operator value is: its identity, by which alone it is compared, the name it
was created with, and its `Action`.  An action is built in, or it is a `Body` that the host has
given: a term over the operands, built from comparing, joining and failing.
-/

namespace ListCalc

/-- Which list of the heap. -/
structure ListRef where
  index : Nat
deriving DecidableEq, Inhabited

/-- What an operator of the host does with its `n` operands.  The parts are evaluated from left to
right, and a failing part is the end of it. -/
inductive Body : Nat → Type where
  /-- One of the operands. -/
  | operand {n : Nat} (place : Fin n) : Body n
  /-- A constant; `null` is a new empty list each time. -/
  | literal {n : Nat} (value : Literal) : Body n
  /-- A list that the host keeps; one that is not there stands for a new empty list. -/
  | held {n : Nat} (ref : ListRef) : Body n
  /-- The truth value of a comparison. -/
  | compare {n : Nat} (op : Comparison) (left right : Body n) : Body n
  /-- The two values joined, as by `;`. -/
  | join {n : Nat} (left right : Body n) : Body n
  /-- The second, with the value of the first as one more operand. -/
  | andThen {n : Nat} (first : Body n) (second : Body (n + 1)) : Body n
  /-- One of the two branches, by what the test counts for. -/
  | choose {n : Nat} (test yes no : Body n) : Body n
  /-- Always the given fault. -/
  | refuse {n : Nat} (reason : String) : Body n
deriving DecidableEq, Inhabited

/-- What an operator with one operand does. -/
inductive UnaryAction where
  | size
  | permutations
  | host (body : Body 1)
deriving DecidableEq, Inhabited

namespace UnaryAction

/-- The operand itself. -/
def identity : UnaryAction := .host (.operand 0)

/-- The operand joined to itself. -/
def twice : UnaryAction := .host (.join (.operand 0) (.operand 0))

/-- Always the given fault. -/
def refuse (reason : String) : UnaryAction := .host (.refuse reason)

end UnaryAction

/-- What an operator with two operands does. -/
inductive BinaryAction where
  | product
  | host (body : Body 2)
deriving DecidableEq, Inhabited

namespace BinaryAction

/-- The two operands joined. -/
def cons : BinaryAction := .host (.join (.operand 0) (.operand 1))

/-- The left operand if it is at least the right one, otherwise the right one. -/
def larger : BinaryAction :=
  .host (.choose (.compare .ge (.operand 0) (.operand 1)) (.operand 0) (.operand 1))

/-- Always the given fault. -/
def refuse (reason : String) : BinaryAction := .host (.refuse reason)

end BinaryAction

/-- What an operator does, by the number of its operands. -/
inductive Action where
  | unary (action : UnaryAction)
  | binary (action : BinaryAction)
deriving DecidableEq, Inhabited

/-- The number of operands of an action. -/
def Action.arity : Action → Arity
  | unary _  => .unary
  | binary _ => .binary

/-- An operator as a value. -/
structure Callable where
  ident : Nat
  name : String
  action : Action
deriving DecidableEq, Inhabited

namespace Callable

/-- The number of operands. -/
def arity (c : Callable) : Arity := c.action.arity

/-- Operators are the same if they were created together. -/
def same (a b : Callable) : Bool := a.ident == b.ident

/-- How an operator is shown. -/
def text (c : Callable) : String :=
  "<" ++ c.arity.name ++ " operator " ++ c.name ++ ">"

end Callable

/-- A value; the elements of a list are in the heap. -/
inductive Value where
  | decimal (d : Decimal)
  | integer (n : Int)
  | boolean (b : Bool)
  | text (s : String)
  | list (ref : ListRef)
  | symbol (name : String)
  | callable (c : Callable)
deriving DecidableEq, Inhabited

/-- The name of a value's kind. -/
def Value.kind : Value → String
  | decimal _  => "Decimal"
  | integer _  => "Integer"
  | boolean _  => "Boolean"
  | text _     => "Text"
  | list _     => "List"
  | symbol _   => "Symbol"
  | callable _ => "Callable"

/-- A number as a value. -/
def Number.toValue : Number → Value
  | integer n => .integer n
  | decimal d => .decimal d

end ListCalc
