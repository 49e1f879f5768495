import ListCalc.Decimal.Basic

/-!
# Decimal — written form

`Decimal.text` writes a decimal with all its digits, trailing zeros included.  Numbers whose point
lies far outside the digits are written with an exponent: a fraction with more than
`leadingZeroLimit` zeros between point and digits as `1.23E-7`, a whole number with more than
`trailingZeroLimit` zeros to append as `123e+20`.  Zero is `0` at every scale.

`Decimal.ofText?` reads `-?digits[.digits][e[+-]digits]` and keeps the scale that is written.
-/

namespace ListCalc

/-- The value of a nonempty string of digits. -/
def natOfDigits? (cs : List Char) : Option Nat :=
  if cs ≠ [] ∧ cs.all Char.isDigit then some (Nat.ofDigitChars 10 cs 0) else none

namespace Decimal

/-- The most zeros that are written between the point and the first other digit. -/
def leadingZeroLimit : Nat := 5

/-- The most zeros that are written after the digits of a whole number. -/
def trailingZeroLimit : Nat := 15

/-- A first digit, a point before the others, and the exponent `exponent`. -/
def scientific (ds : List Char) (exponent : Int) : List Char :=
  let mantissa :=
    match ds with
    | d :: rest@(_ :: _) => d :: '.' :: rest
    | short              => short
  let sign := if exponent < 0 then '-' else '+'
  mantissa ++ 'E' :: sign :: digits exponent.natAbs

/-- The digits with a point before the last `places` of them, padded with zeros. -/
def withPoint (ds : List Char) (places : Nat) : List Char :=
  if places < ds.length then
    ds.take (ds.length - places) ++ '.' :: ds.drop (ds.length - places)
  else
    '0' :: '.' :: (List.replicate (places - ds.length) '0' ++ ds)

/-- The text of the positive number with these digits and this scale. -/
def unsignedText (ds : List Char) (scale : Int) : List Char :=
  if 0 < scale then
    if scale - ds.length > leadingZeroLimit then
      scientific ds (ds.length - 1 - scale)
    else
      withPoint ds scale.toNat
  else if -scale > trailingZeroLimit then
    ds ++ 'e' :: '+' :: digits scale.natAbs
  else
    ds ++ List.replicate scale.natAbs '0'

/-- The decimal as it is written. -/
def text (d : Decimal) : String :=
  if d.coeff = 0 then "0"
  else
    let body := unsignedText (digits d.coeff.natAbs) d.scale
    String.ofList (if d.coeff < 0 then '-' :: body else body)

/-! ### Reading -/

/-- The exponent part of a written decimal; nothing is written for zero. -/
def exponentOfText? : List Char → Option Int
  | []               => some 0
  | 'e' :: '-' :: cs => (natOfDigits? cs).map fun n => -(n : Int)
  | 'e' :: '+' :: cs => (natOfDigits? cs).map fun n => (n : Int)
  | 'e' :: cs        => (natOfDigits? cs).map fun n => (n : Int)
  | _                => none

/-- Reads a decimal without a sign, if the whole text is one. -/
def ofUnsignedText? (cs : List Char) : Option Decimal :=
  let whole := cs.takeWhile Char.isDigit
  let (fraction, rest, pointed) :=
    match cs.dropWhile Char.isDigit with
    | '.' :: r => (r.takeWhile Char.isDigit, r.dropWhile Char.isDigit, true)
    | r        => ([], r, false)
  if whole = [] ∨ (pointed ∧ fraction = []) then none
  else do
    let exponent ← exponentOfText? rest
    let n ← natOfDigits? (whole ++ fraction)
    return ⟨n, fraction.length - exponent⟩

/-- Reads a decimal, if the whole text is one. -/
def ofText? (s : String) : Option Decimal :=
  match s.toList with
  | '-' :: cs => (ofUnsignedText? cs).map neg
  | cs        => ofUnsignedText? cs

end Decimal

end ListCalc
