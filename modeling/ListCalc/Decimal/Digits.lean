/-!
# Decimal — the digits of a number

`digits` writes a natural number in base ten.  Above `longBound` it halves the number of digits to
be written with one division by a power of ten at each step, so that numbers with very many digits
are written in reasonable time.  What it writes is always the usual digit string
(`digits_eq_toDigits` in `Proofs/Decimal/Digits`).
-/

namespace ListCalc

/-- The powers of ten. -/
def tenPow (k : Nat) : Nat := Nat.pow 10 k

/-- The last `2 ^ l` digits of `n`, put before `rest`. -/
def lastDigits : Nat → Nat → List Char → List Char
  | 0,     n, rest => Nat.digitChar (n % 10) :: rest
  | l + 1, n, rest =>
    let half := tenPow (Nat.pow 2 l)
    lastDigits l (n / half) (lastDigits l (n % half) rest)

/-- Numbers from here on are written by halving. -/
def longBound : Nat := tenPow 200

/-- The digits of `n`, without leading zeros. -/
def digits (n : Nat) : List Char :=
  if n < longBound then Nat.toDigits 10 n
  else (lastDigits ((n.log2 + 1).log2 + 1) n []).dropWhile (· == '0')

/-- The number of digits of `n`; zero has one. -/
def digitCount (n : Nat) : Nat := (digits n).length

/-- The text of an integer. -/
def integerText (n : Int) : String :=
  String.ofList (if n < 0 then '-' :: digits n.natAbs else digits n.natAbs)

end ListCalc
