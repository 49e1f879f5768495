import ListCalc.Decimal.Text

/-!
# Decimal — the two kinds of number

What an operand counts for in arithmetic: an integer of any size or a decimal.  An integer turned
into a decimal has scale zero; a decimal turned into an integer is truncated toward zero.
-/

namespace ListCalc

/-- What an operand counts for in arithmetic. -/
inductive Number where
  | integer (n : Int)
  | decimal (d : Decimal)
deriving DecidableEq, Inhabited

namespace Number

/-- The number as a decimal, an integer at scale zero. -/
def toDecimal : Number → Decimal
  | integer n => .ofInt n
  | decimal d => d

/-- The number as an integer, a decimal without its fraction. -/
def toInteger : Number → Int
  | integer n => n
  | decimal d => (d.withScale 0).coeff

/-- Whether the number is zero, at whatever scale. -/
def isZero : Number → Bool
  | integer n => n == 0
  | decimal d => d.isZero

/-- The number with all its digits. -/
def text : Number → String
  | integer n => integerText n
  | decimal d => d.text

end Number

end ListCalc
