import ListCalc.Eval
import ListCalc.Expr.Parse
import ListCalc.Token.Scan

/-!
# Session

A session is a world that sources are run in one after the other.  `run` scans, parses under the
operators bound at that moment, and interprets.  If there is any syntax error, nothing is
evaluated: the faults of the scan come first, then the one of the parse.
-/

namespace ListCalc

/-- Why a run stopped early. -/
inductive RunError where
  /-- Nothing was evaluated. -/
  | rejected (errors : List SyntaxError)
  /-- The trees before the failing one were evaluated and printed. -/
  | failed (error : RuntimeError)
deriving DecidableEq

namespace RunError

/-- The exit status of a program that ends with this error. -/
def exitCode : RunError → Nat
  | rejected _ => 65
  | failed _   => 70

/-- The error in short. -/
def message : RunError → String
  | rejected errors => errors.length.repr ++ " syntax error(s)"
  | failed e        => e.message

/-- The error in full, one line for each syntax error. -/
def text : RunError → String
  | rejected errors => "\n".intercalate (errors.map SyntaxError.text)
  | failed e        => e.text

end RunError

/-- The trees of a source, or all its syntax errors. -/
def readSource (arities : Arities) (source : String) : Except (List SyntaxError) (List Expr) :=
  let scanned := scan source
  match Expr.parse arities scanned.tokens, scanned.faults with
  | .ok trees, []     => .ok trees
  | .ok _,     faults => .error faults
  | .error e,  faults => .error (faults ++ [e])

/-- How a run ended and the world after it. -/
structure Outcome where
  error? : Option RunError
  world : World

/-- Runs a source in a world: reads it, and interprets its trees if nothing is wrong with it. -/
def run (w : World) (source : String) : Outcome :=
  match readSource w.env.arity? source with
  | .error errors => ⟨some (.rejected errors), w⟩
  | .ok trees     =>
    match interpret trees w with
    | .ok _ w    => ⟨none, w⟩
    | .error e w => ⟨some (.failed e), w⟩

end ListCalc
