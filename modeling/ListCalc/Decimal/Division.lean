import ListCalc.Decimal.Basic

/-!
# Decimal — division

A quotient is worked out by long division: the dividend is scaled up until the divisor goes into
it, then digits are appended until the remainder vanishes or the quotient has
`quotientDigits` digits, and a remainder that is left rounds half up, away from zero.
-/

namespace ListCalc

namespace Decimal

/-- The significant digits worked out for a quotient that does not end earlier. -/
def quotientDigits : Nat := 100

/-- Multiplies `num` by ten until it reaches `den`; also counts the steps onto `k`. -/
def scaleUp (num den k : Nat) : Nat × Nat :=
  if h : 0 < num ∧ num < den then scaleUp (num * 10) den (k + 1) else (num, k)
termination_by den - num
decreasing_by omega

/-- A quotient so far, the remainder it leaves, and the number of digits appended to it. -/
structure Partial where
  quotient : Nat
  remainder : Nat
  appended : Nat

namespace Partial

/-- Appends up to `n` further digits, fewer when the remainder vanishes. -/
def extend (den : Nat) : Nat → Partial → Partial
  | 0,     p => p
  | n + 1, p =>
    if p.remainder = 0 then p
    else
      extend den n
        ⟨p.quotient * 10 + p.remainder * 10 / den, p.remainder * 10 % den, p.appended + 1⟩

/-- The quotient with a remainder rounded half up by the digit that would come next. -/
def rounded (den : Nat) (p : Partial) : Nat :=
  if p.remainder ≠ 0 ∧ 5 ≤ p.remainder * 10 / den then p.quotient + 1 else p.quotient

end Partial

/-- Long division of positive numbers: the quotient's digits, and how many of them stand after the
point of the integer quotient. -/
def longDivision (num den : Nat) : Nat × Nat :=
  let (num, shift) := scaleUp num den 0
  let first : Partial := ⟨num / den, num % den, 0⟩
  let p := first.extend den (quotientDigits - digitCount first.quotient)
  (p.rounded den, shift + p.appended)

/-- The quotient of `a` by a nonzero `b`. -/
def div (a b : Decimal) : Decimal :=
  if a.isZero || b.isOne then a
  else if a.coeff = b.coeff then ⟨1, a.scale - b.scale⟩
  else
    let (q, places) := longDivision a.coeff.natAbs b.coeff.natAbs
    ⟨a.coeff.sign * b.coeff.sign * q, a.scale - b.scale + places⟩

end Decimal

end ListCalc
