import ListCalc.Decimal.Power

/-!
# Decimal — logarithm and exponential

Both are sums of series at `workingDigits` significant digits, cut off at the first term below
`negligible`.  `ln` splits its argument into `m · 2^h · 10^p` with `m` close to one and sums
`2 · atanh ((m - 1) / (m + 1))`; `exp` splits off the whole part of its argument and multiplies a
rounded power of `e` by the series of the fraction.

A series loop takes at most `seriesLimit` steps.  The arguments it is given here are so small that
its terms become negligible well before (at most 1/3 for `atanh`, at most 1 for `expSeries`).
-/

namespace ListCalc

namespace Decimal

/-- Terms below this bound do not reach the working digits of a sum near one. -/
def negligible : Decimal := ⟨1, workingDigits + 5⟩

/-- More steps than any series here takes. -/
def seriesLimit : Nat := 256

/-! ### Logarithm -/

/-- Adds `power·z²/(k+2)`, `power·z⁴/(k+4)`, … to `sum` until a term is negligible. -/
def atanhSum (z2 : Decimal) : Nat → Decimal → Nat → Decimal → Decimal
  | 0,         _,     _, sum => sum
  | steps + 1, power, k, sum =>
    let power := (power.mulTrimmed z2).round
    let k := k + 2
    let term := power.div (ofInt k)
    if term.abs.lt negligible then sum
    else atanhSum z2 steps power k (sum.accumulate term)

/-- The sum `z + z³/3 + z⁵/5 + …`. -/
def atanh (z : Decimal) : Decimal :=
  (atanhSum (z.mulTrimmed z).round seriesLimit z 1 z).round

/-- The logarithm of two, `2 · atanh (1/3)`. -/
def ln2 : Decimal :=
  (ofInt 2).mul (atanh ((ofInt 1).div (ofInt 3)))

/-- The logarithm of ten, `3 · ln 2 + ln 1.25`, with `ln 1.25 = 2 · atanh (1/9)`. -/
def ln10 : Decimal :=
  (((ofInt 3).mulExact ln2).add ((ofInt 2).mul (atanh ((ofInt 1).div (ofInt 9))))).round

/-- The bound that a mantissa is halved down to. -/
def mantissaBound : Decimal := ⟨13, 1⟩

/-- A number below ten is at most the bound after three halvings. -/
def halvingLimit : Nat := 3

/-- Halves `m` until it is at most `mantissaBound`; also counts the halvings onto `h`. -/
def halve : Nat → Decimal → Nat → Decimal × Nat
  | 0,         m, h => (m, h)
  | steps + 1, m, h =>
    if mantissaBound.lt m then halve steps (m.div (ofInt 2)) (h + 1) else (m, h)

/-- The natural logarithm of a positive number. -/
def ln (x : Decimal) : Decimal :=
  let places : Int := digitCount x.coeff.natAbs - 1
  let (m, halvings) := halve halvingLimit ⟨x.coeff, places⟩ 0
  let z := (m.sub one).div (m.add one)
  ((((ofInt 2).mul (atanh z)).add ((ofInt halvings).mulExact ln2)).add
    ((ofInt (places - x.scale)).mul ln10)).round

/-! ### Exponential -/

/-- Adds `term·x/(k+1)`, `term·x²/((k+1)(k+2))`, … to `sum` until a term is negligible. -/
def expSum (x : Decimal) : Nat → Decimal → Nat → Decimal → Decimal
  | 0,         _,    _, sum => sum
  | steps + 1, term, k, sum =>
    let k := k + 1
    let term := (term.mulTrimmed x).round.div (ofInt k)
    if term.abs.lt negligible then sum
    else expSum x steps term k (sum.accumulate term)

/-- The sum `1 + x + x²/2! + …`. -/
def expSeries (x : Decimal) : Decimal :=
  (expSum x seriesLimit one 0 one).round

/-- The magnitude of the least signed word of 64 bits. -/
def wordBound : Int := 0x8000000000000000

/-- Whether a number is a signed word of 64 bits. -/
def fitsWord (n : Int) : Bool :=
  -wordBound ≤ n && n < wordBound

/-- The power `e ^ y`.  A whole part that does not fit a word counts as zero. -/
def exp (y : Decimal) : Decimal :=
  let whole := y.withScale 0
  let fraction := expSeries (y.difference whole)
  let n := if fitsWord whole.coeff then whole.coeff else 0
  if n = 0 then fraction
  else
    let power := (expSeries one).powRounded n.natAbs
    (fraction.mul (if n < 0 then one.div power else power)).round

end Decimal

end ListCalc
