import ListCalc.Operator.Extension

/-!
# Environment

The bindings of a session: one table without scopes, kept in the order of its names.  Names are
ordered by their characters' code points, which is also the order of their UTF-8 bytes.

A name bound to an operator is an extension of the language while it stays bound to it: the parser
asks for its arity (`Env.arity?`), the evaluator for the operator (`Env.extension?`).
-/

namespace ListCalc

/-- The bindings of a session, in the order of their names. -/
structure Env where
  bindings : List (String × Value)
deriving DecidableEq, Inhabited

namespace Env

/-- The environment without any binding. -/
def empty : Env := ⟨[]⟩

/-- Puts a binding in its place, instead of an earlier one of the same name. -/
def insert (name : String) (v : Value) : List (String × Value) → List (String × Value)
  | []           => [(name, v)]
  | (n, w) :: bs =>
    if name < n then (name, v) :: (n, w) :: bs
    else if name = n then (name, v) :: bs
    else (n, w) :: insert name v bs

/-- Binds a name, whatever it was bound to before. -/
def set (env : Env) (name : String) (v : Value) : Env :=
  ⟨insert name v env.bindings⟩

/-- The value that a name is bound to. -/
def get? (env : Env) (name : String) : Option Value :=
  env.bindings.lookup name

/-- Whether a name is bound. -/
def contains (env : Env) (name : String) : Bool :=
  (env.get? name).isSome

/-- Binds an operator under its own name. -/
def register (env : Env) (c : Callable) : Env :=
  env.set c.name (.callable c)

/-- The bindings that every session starts with. -/
def initial : Env := builtins.foldl register empty

/-- The operator that a name is bound to. -/
def extension? (env : Env) (name : String) : Option Callable :=
  match env.get? name with
  | some (.callable c) => some c
  | _                  => none

/-- The arity of the operator that a name is bound to. -/
def arity? (env : Env) : Arities :=
  fun name => (env.extension? name).map Callable.arity

/-- All names bound to operators, with their arity. -/
def arities (env : Env) : List (String × Arity) :=
  env.bindings.filterMap fun
    | (name, .callable c) => some (name, c.arity)
    | _                   => none

/-- The text that an environment is shown as. -/
def shown (h : Heap) (env : Env) : String :=
  "<" ++ ", ".intercalate (env.bindings.map fun (name, v) => name ++ ": " ++ v.shown h) ++ ">"

/-! ### Reading what was set -/

theorem lookup_binding (n other : String) (w : Value) (bs : List (String × Value)) :
    List.lookup other ((n, w) :: bs) = if other = n then some w else bs.lookup other := by
  by_cases h : other = n
  · subst h; simp
  · rw [List.lookup_cons, beq_false_of_ne h, if_neg h]

theorem lookup_insert (name other : String) (v : Value) (bs : List (String × Value)) :
    (insert name v bs).lookup other = if other = name then some v else bs.lookup other := by
  induction bs with
  | nil => exact lookup_binding name other v []
  | cons b bs ih =>
    obtain ⟨n, w⟩ := b
    rw [insert, lookup_binding n]
    split
    · rw [lookup_binding name, lookup_binding n]
    · split
      · rename_i h
        subst h
        rw [lookup_binding]
        split <;> rfl
      · rename_i h
        rw [lookup_binding n, ih]
        split
        · rename_i hn
          subst hn
          rw [if_neg (Ne.symm h)]
        · rfl

/-- A set name reads as what was set, every other name as before. -/
@[simp] theorem get?_set (env : Env) (name other : String) (v : Value) :
    (env.set name v).get? other = if other = name then some v else env.get? other :=
  lookup_insert name other v env.bindings

end Env

end ListCalc
