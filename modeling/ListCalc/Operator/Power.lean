import ListCalc.Decimal.Series
import ListCalc.Fault

/-!
# Operator — powers

Integers have powers with exponents from zero to `maxIntegerExponent`, computed exactly.  A decimal
power is exact when the exponent is a whole number, whatever its scale, and otherwise
`e^(exponent · ln base)` to `powerDigits` significant digits without trailing zeros.
-/

namespace ListCalc

/-- The largest exponent of an integer power. -/
def maxIntegerExponent : Nat := 0xFFFFFFFF

/-- A power of integers. -/
def integerPower (base exponent : Int) : Except OperatorFault Int :=
  if exponent < 0 then .error .negativeExponent
  else if exponent > maxIntegerExponent then .error (.exponentTooLarge (.integer exponent))
  else .ok (powInteger base exponent.toNat)

namespace Decimal

/-- The significant digits of a fractional power. -/
def powerDigits : Nat := 90

/-- The largest `|exponent · ln base|` that a power may reach. -/
def maxExpArgument : Int := 10000000

/-- The power `base ^ exponent` by logarithm and exponential. -/
def pow (base exponent : Decimal) : Except OperatorFault Decimal :=
  if base.coeff < 0 then .error .notReal
  else if base.isZero then
    if exponent.coeff < 0 then .error .divisionByZero
    else if exponent.isZero then .ok one
    else .ok zero
  else
    let y := (base.ln.mulExact exponent).round
    if (ofInt maxExpArgument).lt y.abs then .error (.exponentTooLarge (.decimal exponent))
    else .ok (y.exp.withPrec powerDigits).normalized

/-- The power `base ^ exponent`: exactly for a whole exponent that fits a word, by `pow` for a
fraction. -/
def power (base exponent : Decimal) : Except OperatorFault Decimal :=
  let whole := exponent.withScale 0
  if whole.same exponent then
    if !fitsWord whole.coeff then .error (.exponentTooLarge (.decimal exponent))
    else if whole.coeff < 0 ∧ base.isZero then .error .divisionByZero
    else .ok (base.powInt whole.coeff)
  else base.pow exponent

end Decimal

end ListCalc
