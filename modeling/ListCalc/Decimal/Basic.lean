import ListCalc.Decimal.Digits

/-!
# Decimal — numbers with a scale

A `Decimal` is an integer coefficient and a scale: `⟨n, s⟩` stands for `n · 10^(-s)`.  The scale is
kept and never reduced silently, so `2.50` and `2.5` are two decimals of one value.

Every operation here is exact in value.  Several of them come in two forms that agree in value and
differ in the scale of the result:

* `sub` and `accumulate` hand back the other operand untouched when one is zero, `difference` and
  `add` always answer at the larger scale;
* `mul` hands back the other factor untouched when one is a recognised one (`isOne`), `mulTrimmed`
  hands it back `normalized`, and `mulExact` always multiplies.

`withScale` truncates, `withPrec` keeps a number of significant digits, `order` compares by value.
-/

namespace ListCalc

/-- The number `coeff · 10^(-scale)`. -/
structure Decimal where
  coeff : Int
  scale : Int
deriving DecidableEq, Inhabited

namespace Decimal

/-- An integer at scale zero. -/
def ofInt (n : Int) : Decimal := ⟨n, 0⟩

/-- Zero at scale zero. -/
def zero : Decimal := ⟨0, 0⟩

/-- One at scale zero. -/
def one : Decimal := ⟨1, 0⟩

/-- Zero at any scale. -/
def isZero (d : Decimal) : Bool := d.coeff == 0

/-- The negated number, at the same scale. -/
def neg (d : Decimal) : Decimal := ⟨-d.coeff, d.scale⟩

/-- The number without its sign, at the same scale. -/
def abs (d : Decimal) : Decimal := ⟨d.coeff.natAbs, d.scale⟩

/-- The largest scale at which a one is recognised. -/
def oneScaleLimit : Nat := 38

/-- A one written with at most `oneScaleLimit` zeros after the point. -/
def isOne (d : Decimal) : Bool :=
  0 ≤ d.scale && d.scale ≤ oneScaleLimit && d.coeff == tenPow d.scale.toNat

/-- The coefficient of `d` written at scale `s`, for `s` at least the scale of `d`. -/
def coeffAt (d : Decimal) (s : Int) : Int :=
  d.coeff * tenPow (s - d.scale).toNat

/-- Splits the trailing zeros off a number: what is left, and `k` more than their count. -/
def stripZeros (n k : Nat) : Nat × Nat :=
  if h : 0 < n ∧ n % 10 = 0 then stripZeros (n / 10) (k + 1) else (n, k)
termination_by n
decreasing_by omega

/-- The same value without trailing zeros in its coefficient. -/
def normalized (d : Decimal) : Decimal :=
  if d.coeff = 0 then zero
  else
    let (n, zeros) := stripZeros d.coeff.natAbs 0
    ⟨d.coeff.sign * n, d.scale - zeros⟩

/-! ### Sums and differences -/

/-- The sum at the larger of the two scales. -/
def add (a b : Decimal) : Decimal :=
  let s := max a.scale b.scale
  ⟨a.coeffAt s + b.coeffAt s, s⟩

/-- The difference at the larger of the two scales. -/
def difference (a b : Decimal) : Decimal :=
  let s := max a.scale b.scale
  ⟨a.coeffAt s - b.coeffAt s, s⟩

/-- The difference; an operand that is zero leaves the other one as it is, but for the sign. -/
def sub (a b : Decimal) : Decimal :=
  if b.isZero then a else if a.isZero then b.neg else a.difference b

/-- Adds a further term to a running sum. -/
def accumulate (sum term : Decimal) : Decimal :=
  if term.isZero then sum else if sum.isZero then term else sum.add term

/-! ### Products and remainders -/

/-- The product at the sum of the two scales. -/
def mulExact (a b : Decimal) : Decimal :=
  ⟨a.coeff * b.coeff, a.scale + b.scale⟩

/-- The product; a factor that is a recognised one leaves the other one as it is. -/
def mul (a b : Decimal) : Decimal :=
  if a.isOne then b else if b.isOne then a else a.mulExact b

/-- The product; a factor that is a recognised one leaves the other one without trailing zeros. -/
def mulTrimmed (a b : Decimal) : Decimal :=
  if a.isOne then b.normalized else if b.isOne then a.normalized else a.mulExact b

/-- The remainder of the division truncated toward zero; it has the sign of `a`. -/
def rem (a b : Decimal) : Decimal :=
  let s := max a.scale b.scale
  ⟨(a.coeffAt s).tmod (b.coeffAt s), s⟩

/-- The remainder of the division rounded down; it is zero or has the sign of `b`. -/
def modFloor (a b : Decimal) : Decimal :=
  let r := a.rem b
  if r.coeff ≠ 0 ∧ ¬ (r.coeff < 0 ↔ b.coeff < 0) then r.add b else r

/-! ### Rounding -/

/-- The decimal `d` at scale `s`: zeros are appended, or digits dropped toward zero. -/
def withScale (d : Decimal) (s : Int) : Decimal :=
  if d.coeff = 0 then ⟨0, s⟩
  else if d.scale ≤ s then ⟨d.coeffAt s, s⟩
  else ⟨d.coeff.tdiv (tenPow (d.scale - s).toNat), s⟩

/-- The decimal `d` with `p` significant digits.  Dropped digits round a positive number half up,
which may leave `p + 1` digits, and truncate a negative one. -/
def withPrec (d : Decimal) (p : Nat) : Decimal :=
  let digits := digitCount d.coeff.natAbs
  if digits ≤ p then
    let zeros := p - digits
    ⟨d.coeff * tenPow zeros, d.scale + zeros⟩
  else
    let dropped := digits - p
    let kept := d.coeff.tdiv (tenPow dropped)
    let up := decide (0 < d.coeff ∧ 5 ≤ d.coeff / tenPow (dropped - 1) % 10)
    ⟨if up then kept + 1 else kept, d.scale - dropped⟩

/-! ### Order -/

/-- The exponent of ten that bounds a nonzero `d`: `10^(m-1) ≤ |d| < 10^m` for its magnitude `m`. -/
def magnitude (d : Decimal) : Int :=
  digitCount d.coeff.natAbs - d.scale

/-- Order by value: by sign, then by magnitude, and only then by the coefficients at one scale. -/
def order (a b : Decimal) : Ordering :=
  if a.coeff.sign ≠ b.coeff.sign then compare a.coeff.sign b.coeff.sign
  else if a.coeff = 0 then .eq
  else
    let (m, n) := (a.magnitude, b.magnitude)
    let s := max a.scale b.scale
    if m ≠ n then compare (a.coeff.sign * m) (a.coeff.sign * n)
    else compare (a.coeffAt s) (b.coeffAt s)

/-- The same number, whatever the scales. -/
def same (a b : Decimal) : Bool := a.order b == .eq

/-- Less in value, whatever the scales. -/
def lt (a b : Decimal) : Bool := a.order b == .lt

end Decimal

end ListCalc
