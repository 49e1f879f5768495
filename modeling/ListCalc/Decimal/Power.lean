import ListCalc.Decimal.Division

/-!
# Decimal — repeated squaring

`repeatedSquaring mul acc square n` multiplies `acc` by the `n`-th power of `square` with a number
of products that grows with the digits of `n`.  It serves three multiplications: of integers, of
decimals exactly (`Decimal.powInt`) and of decimals rounded at every step
(`Decimal.powRounded`).
-/

namespace ListCalc

variable {α : Type}

/-- The product `acc · square^n`, taking the binary digits of `n` from the lowest up. -/
def repeatedSquaring (mul : α → α → α) (acc square : α) (n : Nat) : α :=
  if h : n = 0 then acc
  else
    let acc := if n % 2 = 1 then mul acc square else acc
    if n / 2 = 0 then acc else repeatedSquaring mul acc (mul square square) (n / 2)
termination_by n
decreasing_by omega

/-- The power `base ^ n` of an integer. -/
def powInteger (base : Int) (n : Nat) : Int :=
  repeatedSquaring (· * ·) 1 base n

namespace Decimal

/-- The digits kept while a series is summed or a power is multiplied up. -/
def workingDigits : Nat := 100

/-- The number at the working digits. -/
def round (d : Decimal) : Decimal := d.withPrec workingDigits

/-- The power `base ^ n`, exactly. -/
def powNat (base : Decimal) (n : Nat) : Decimal :=
  repeatedSquaring mulTrimmed one base n

/-- The power `base ^ n`, rounded to the working digits after every product. -/
def powRounded (base : Decimal) (n : Nat) : Decimal :=
  repeatedSquaring (fun a b => (a.mulTrimmed b).round) one base n

/-- The power `base ^ n` for an exponent of either sign; the base is nonzero when `n` is
negative. -/
def powInt (base : Decimal) (n : Int) : Decimal :=
  let power := base.powNat n.natAbs
  if n < 0 then one.div power else power

end Decimal

end ListCalc
