import ListCalc.Main
import ListCalc.Proofs.Eval.ShortCircuit
import ListCalc.Proofs.Expr.Parse
import ListCalc.Proofs.Session.Diagnostics
import ListCalc.Proofs.Session.Lists
import ListCalc.Proofs.Session.Names
import ListCalc.Proofs.Session.Split
import ListCalc.Proofs.Value.Bisimilar
import ListCalc.Proofs.Decimal.Rounding
import ListCalc.Proofs.Decimal.Series
import ListCalc.Proofs.Decimal.Mantissa
import ListCalc.Proofs.Decimal.Termination
import ListCalc.Proofs.Decimal.Truncation
import ListCalc.Proofs.Decimal.Logarithm
import ListCalc.Proofs.Decimal.Exponential
import ListCalc.Proofs.Decimal.RoundTrip
import ListCalc.Proofs.Operator.Power
import ListCalc.Proofs.Operator.Scalar
import ListCalc.Proofs.Operator.Faults
import ListCalc.Proofs.Operator.Intersection
import ListCalc.Proofs.Operator.Orderings
import ListCalc.Proofs.Value.Shown
import ListCalc.Proofs.Eval.Effects
import ListCalc.Proofs.Token.Munch
import ListCalc.Proofs.Token.Lexer
import ListCalc.Proofs.Token.Literals
import ListCalc.Proofs.Expr.Relocation
import ListCalc.Proofs.Token.Rescan
import ListCalc.Proofs.Expr.Written
import ListCalc.Proofs.Expr.Viable
import ListCalc.Proofs.Expr.Descent
import ListCalc.Proofs.Expr.Routines
import ListCalc.Proofs.Expr.Safety
import ListCalc.Proofs.Operator.Range
import ListCalc.Proofs.Eval.Application
import ListCalc.Proofs.Eval.Assignments
import ListCalc.Proofs.Session.Operators
import ListCalc.Proofs.Eval.Chain
import ListCalc.Proofs.Eval.Lines
import ListCalc.Proofs.Session.Dialogue
