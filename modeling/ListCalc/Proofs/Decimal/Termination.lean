import ListCalc.Operator.Power
import ListCalc.Proofs.Decimal.Mantissa
import ListCalc.Proofs.Decimal.Series

/-!
# Proofs — the loops of logarithm and exponential end

The loops of `Decimal/Series` stop by a test on the numbers that they work on, and take a bounded
number of steps.  In the namespace `Unlimited` the same functions have no bound on their steps: a
loop that never comes to its test has no result, so it is a function to `Option`, least in its
definedness (`Loop.run`).  `series_loops_end` says that the test always stops them: without the
bound the functions are defined and have the same results.
-/

namespace ListCalc

/-! ### Loops without a bound -/

/-- A step goes on to the next state, or leaves with a result. -/
structure Loop (State Result : Type) where
  step : State → State ⊕ Result

namespace Loop

variable {State Result : Type} {loop : Loop State Result} {s next : State} {result : Result}

/-- The result of the steps from a state on; a loop that never leaves has none. -/
def run (loop : Loop State Result) (s : State) : Option Result :=
  match loop.step s with
  | .inl next   => loop |>.run next
  | .inr result => some result
partial_fixpoint

/-- A step that goes on leaves the result to the steps after it. -/
theorem run_of_goes (hstep : loop.step s = .inl next) : loop.run s = loop.run next := by
  rw [run, hstep]

/-- A step that leaves has the result. -/
theorem run_of_leaves (hstep : loop.step s = .inr result) : loop.run s = some result := by
  rw [run, hstep]

end Loop

namespace Decimal

namespace Unlimited

/-- The loop that adds up the inverse hyperbolic tangent. -/
def atanhLoop (z2 : Decimal) : Loop (Decimal × Nat × Decimal) Decimal where
  step := fun (power, k, sum) =>
    let power := (power.mulTrimmed z2).round
    let k := k + 2
    let term := power.div (ofInt k)
    if term.abs.lt negligible then .inr sum else .inl (power, k, sum.accumulate term)

/-- Adds `power·z²/(k+2)`, `power·z⁴/(k+4)`, … to `sum` until a term is negligible. -/
def atanhSum (z2 power : Decimal) (k : Nat) (sum : Decimal) : Option Decimal :=
  (atanhLoop z2).run (power, k, sum)

/-- The inverse hyperbolic tangent by its series. -/
def atanh (z : Decimal) : Option Decimal := do
  let sum ← atanhSum (z.mulTrimmed z).round z 1 z
  return sum.round

/-- The logarithm of two. -/
def ln2 : Option Decimal := do
  let third ← atanh ((ofInt 1).div (ofInt 3))
  return (ofInt 2).mul third

/-- The logarithm of ten. -/
def ln10 : Option Decimal := do
  let ln2 ← ln2
  let ninth ← atanh ((ofInt 1).div (ofInt 9))
  return (((ofInt 3).mulExact ln2).add ((ofInt 2).mul ninth)).round

/-- The loop that halves down to `mantissaBound`. -/
def halveLoop : Loop (Decimal × Nat) (Decimal × Nat) where
  step := fun (m, h) =>
    if mantissaBound.lt m then .inl (m.div (ofInt 2), h + 1) else .inr (m, h)

/-- Halves `m` until it is at most `mantissaBound`; also counts the halvings onto `h`. -/
def halve (m : Decimal) (h : Nat) : Option (Decimal × Nat) := halveLoop.run (m, h)

/-- The natural logarithm. -/
def ln (x : Decimal) : Option Decimal := do
  let places : Int := digitCount x.coeff.natAbs - 1
  let (m, halvings) ← halve ⟨x.coeff, places⟩ 0
  let series ← atanh ((m.sub one).div (m.add one))
  let ln2 ← ln2
  let ln10 ← ln10
  return ((((ofInt 2).mul series).add ((ofInt halvings).mulExact ln2)).add
    ((ofInt (places - x.scale)).mul ln10)).round

/-- The loop that adds up the exponential. -/
def expLoop (x : Decimal) : Loop (Decimal × Nat × Decimal) Decimal where
  step := fun (term, k, sum) =>
    let k := k + 1
    let term := (term.mulTrimmed x).round.div (ofInt k)
    if term.abs.lt negligible then .inr sum else .inl (term, k, sum.accumulate term)

/-- Adds `term·x/(k+1)`, `term·x²/((k+1)(k+2))`, … to `sum` until a term is negligible. -/
def expSum (x term : Decimal) (k : Nat) (sum : Decimal) : Option Decimal :=
  (expLoop x).run (term, k, sum)

/-- The exponential by its series. -/
def expSeries (x : Decimal) : Option Decimal := do
  let sum ← expSum x one 0 one
  return sum.round

/-- The exponential, the whole part of its exponent by a power. -/
def exp (y : Decimal) : Option Decimal := do
  let whole := y.withScale 0
  let fraction ← expSeries (y.difference whole)
  let n := if fitsWord whole.coeff then whole.coeff else 0
  if n = 0 then return fraction
  let e ← expSeries one
  let power := e.powRounded n.natAbs
  return (fraction.mul (if n < 0 then one.div power else power)).round

/-- The power by logarithm and exponential. -/
def pow (base exponent : Decimal) : Option (Except OperatorFault Decimal) := do
  if base.coeff < 0 then return .error .notReal
  if base.isZero then
    if exponent.coeff < 0 then return .error .divisionByZero
    if exponent.isZero then return .ok one
    return .ok zero
  let ln ← ln base
  let y := (ln.mulExact exponent).round
  if (ofInt maxExpArgument).lt y.abs then return .error (.exponentTooLarge (.decimal exponent))
  let e ← exp y
  return .ok (e.withPrec powerDigits).normalized

/-! ### Each loop comes to its test -/

theorem atanhSum_step (z2 power : Decimal) (k : Nat) (sum : Decimal) : atanhSum z2 power k sum =
    let power := (power.mulTrimmed z2).round
    let term := power.div (ofInt ((k + 2 : Nat) : Int))
    if term.abs.lt negligible then some sum
    else atanhSum z2 power (k + 2) (sum.accumulate term) := by
  dsimp only
  split
  · next hstop => exact Loop.run_of_leaves (if_pos hstop)
  · next hgo => exact Loop.run_of_goes (if_neg hgo)

theorem expSum_step (x term : Decimal) (k : Nat) (sum : Decimal) : expSum x term k sum =
    let term := (term.mulTrimmed x).round.div (ofInt ((k + 1 : Nat) : Int))
    if term.abs.lt negligible then some sum
    else expSum x term (k + 1) (sum.accumulate term) := by
  dsimp only
  split
  · next hstop => exact Loop.run_of_leaves (if_pos hstop)
  · next hgo => exact Loop.run_of_goes (if_neg hgo)

theorem halve_step (m : Decimal) (h : Nat) : halve m h =
    if mantissaBound.lt m then halve (m.div (ofInt 2)) (h + 1) else some (m, h) := by
  split
  · next habove => exact Loop.run_of_goes (if_pos habove)
  · next hbelow => exact Loop.run_of_leaves (if_neg hbelow)

/-- A loop over terms that comes to a negligible one ends, with the sum that a bound on its steps
does not change. -/
theorem sum_ends {loop : Nat → Decimal → Option Decimal} {term : Nat → Decimal}
    (hloop : ∀ k sum, loop k sum = if (term (k + 1)).abs.lt negligible then some sum
      else loop (k + 1) (sum.accumulate (term (k + 1))))
    {k j : Nat} (steps : Nat) (sum : Decimal) (hk : k < j) (hj : j ≤ k + steps)
    (hsmall : |(term j).toRat| < 1 / 10 ^ 105) :
    loop k sum = some (sumUntil term steps k sum) := by
  induction steps generalizing k sum with
  | zero => omega
  | succ steps ih =>
    rw [hloop, sumUntil]
    by_cases hstop : (term (k + 1)).abs.lt negligible = true
    · rw [if_pos hstop, if_pos hstop]
    · have hne : j ≠ k + 1 := fun h => hstop (negligible_iff.mpr (h ▸ hsmall))
      rw [if_neg hstop, if_neg hstop, ih _ (by omega : k + 1 < j) (by omega)]

/-- Without the bound the series comes to the same sum. -/
theorem atanh_eq {z : Decimal} (hz : |z.toRat| ≤ 7 / 20) : atanh z = some z.atanh := by
  have hloop : ∀ j sum, atanhSum (z.mulTrimmed z).round (atanhPower z j) (2 * j + 1) sum =
      if (atanhTerm z (j + 1)).abs.lt negligible then some sum
      else atanhSum (z.mulTrimmed z).round (atanhPower z (j + 1)) (2 * (j + 1) + 1)
        (sum.accumulate (atanhTerm z (j + 1))) := by
    intro j sum
    have hk : 2 * (j + 1) + 1 = 2 * j + 1 + 2 := by ring
    rw [atanhSum_step, atanhTerm, atanhPower, hk]
  have hend := sum_ends hloop seriesLimit (k := 0) z (by decide) (by decide)
    (negligible_atanhTerm hz)
  simp only [← Decimal.atanhSum_eq, atanhPower, Nat.mul_zero, Nat.zero_add] at hend
  rw [atanh, Decimal.atanh, hend]
  rfl

/-- Without the bound the series comes to the same sum. -/
theorem expSeries_eq {x : Decimal} (hx : |x.toRat| ≤ 1) : expSeries x = some x.expSeries := by
  have hloop : ∀ k sum, expSum x (expTerm x k) k sum =
      if (expTerm x (k + 1)).abs.lt negligible then some sum
      else expSum x (expTerm x (k + 1)) (k + 1) (sum.accumulate (expTerm x (k + 1))) := by
    intro k sum
    rw [expSum_step, expTerm]
  have hend := sum_ends hloop seriesLimit (k := 0) one (by decide) (by decide)
    (negligible_expTerm hx)
  simp only [← Decimal.expSum_eq, expTerm] at hend
  rw [expSeries, Decimal.expSeries, hend]
  rfl

/-- A bound on the halvings changes nothing if they end under it. -/
theorem halve_eq (steps : Nat) {m : Decimal} {h : Nat}
    (hend : (Decimal.halve steps m h).1.toRat ≤ 13 / 10) :
    halve m h = some (Decimal.halve steps m h) := by
  induction steps generalizing m h with
  | zero =>
    have hstop : ¬ mantissaBound.lt m = true := by
      rw [lt_iff, toRat_mantissaBound]
      exact not_lt.mpr hend
    rw [halve_step, if_neg hstop]
    rfl
  | succ steps ih =>
    rw [Decimal.halve] at hend ⊢
    rw [halve_step]
    split at hend
    · rename_i habove
      rw [if_pos habove, if_pos habove, ih hend]
    · rename_i hbelow
      rw [if_neg hbelow, if_neg hbelow]

/-! ### The functions are defined -/

theorem ln2_eq : ln2 = some Decimal.ln2 := by
  rw [ln2, atanh_eq (abs_inverse_le (n := 3) le_rfl)]
  rfl

theorem ln10_eq : ln10 = some Decimal.ln10 := by
  rw [ln10, ln2_eq, atanh_eq (abs_inverse_le (n := 9) (by decide))]
  rfl

/-- A mantissa is near one after at most three halvings. -/
theorem halve_mantissa {x : Decimal} (hx : 0 < x.toRat) :
    ∃ m h, halve x.mantissa 0 = some (m, h) ∧ Decimal.halve halvingLimit x.mantissa 0 = (m, h) ∧
      h ≤ 3 ∧ 13 / 20 < m.toRat ∧ m.toRat ≤ 13 / 10 := by
  obtain ⟨m, h, heq, hh, hm, habove⟩ := halve_spec hx
  refine ⟨m, h, ?_, heq, hh, habove, hm.le_bound⟩
  rw [halve_eq halvingLimit (by rw [heq]; exact hm.le_bound), heq]

/-- The logarithm is defined without the bounds, and the same. -/
theorem ln_eq {x : Decimal} (hx : 0 < x.toRat) : ln x = some x.ln := by
  obtain ⟨m, h, hloop, heq, -, hlow, hhigh⟩ := halve_mantissa hx
  have harg : |m.argument.toRat| ≤ 7 / 20 := by linarith [abs_argument_lt hlow hhigh]
  rw [mantissa] at hloop heq
  rw [argument] at harg
  simp only [ln, Decimal.ln, hloop, heq, Option.bind_eq_bind, Option.bind_some, atanh_eq harg,
    ln2_eq, ln10_eq]
  rfl

/-- The exponential is defined without the bounds, and the same. -/
theorem exp_eq (y : Decimal) : exp y = some y.exp := by
  have hfraction : |(y.difference (y.withScale 0)).toRat| ≤ 1 := by
    rw [toRat_difference]
    exact (abs_sub_withScale_zero y).le
  have hone : |one.toRat| ≤ 1 := by simp
  simp only [exp, Decimal.exp, expSeries_eq hfraction, expSeries_eq hone, Option.bind_eq_bind,
    Option.bind_some]
  split <;> split <;> rfl

/-- The power is defined without the bounds, and the same. -/
theorem pow_eq (base exponent : Decimal) : pow base exponent = some (base.pow exponent) := by
  rw [pow, Decimal.pow]
  by_cases hneg : base.coeff < 0
  · rw [if_pos hneg, if_pos hneg]
    rfl
  · rw [if_neg hneg, if_neg hneg]
    by_cases hzero : base.isZero = true
    · rw [if_pos hzero, if_pos hzero]
      split
      · rfl
      · split <;> rfl
    · have hbase : 0 < base.toRat := by
        rw [isZero_iff, toRat_eq_zero] at hzero
        exact toRat_pos.mpr (by omega)
      rw [if_neg hzero, if_neg hzero]
      simp only [ln_eq hbase, exp_eq, Option.bind_eq_bind, Option.bind_some]
      split <;> rfl

end Unlimited

/-- **The loops of logarithm, exponential and power end.**  A positive mantissa is halved at most
three times, down to more than 0.65 and at most 1.3, so that the series of the logarithm is asked
for less than 0.22; that series ends for every argument up to 1/3, the exponential one for every
argument up to 1, and with them the three functions for all their operands. -/
theorem series_loops_end :
    (∀ x : Decimal, 0 < x.toRat →
      (∃ m h, Unlimited.halve ⟨x.coeff, digitCount x.coeff.natAbs - 1⟩ 0 = some (m, h) ∧ h ≤ 3 ∧
        13 / 20 < m.toRat ∧ m.toRat ≤ 13 / 10 ∧
        |((m.sub one).div (m.add one)).toRat| < 22 / 100) ∧
      Unlimited.ln x = some x.ln) ∧
    (∀ z : Decimal, |z.toRat| ≤ 1 / 3 → Unlimited.atanh z = some z.atanh) ∧
    (∀ x : Decimal, |x.toRat| ≤ 1 → Unlimited.expSeries x = some x.expSeries) ∧
    (∀ y : Decimal, Unlimited.exp y = some y.exp) ∧
    ∀ base exponent : Decimal, Unlimited.pow base exponent = some (base.pow exponent) := by
  refine ⟨fun x hx => ⟨?_, Unlimited.ln_eq hx⟩, fun z hz => Unlimited.atanh_eq (by linarith),
    fun x hx => Unlimited.expSeries_eq hx, Unlimited.exp_eq, Unlimited.pow_eq⟩
  obtain ⟨m, h, hloop, -, hh, hlow, hhigh⟩ := Unlimited.halve_mantissa hx
  have harg := abs_argument_lt hlow hhigh
  exact ⟨m, h, hloop, hh, hlow, hhigh, by norm_num at harg ⊢; exact harg⟩

/-- Nine, which is halved three times, and arguments at the ends of the ranges. -/
theorem series_loops_end_nine :
    (0 < (ofInt 9).toRat ∧ |(⟨-3, 1⟩ : Decimal).toRat| ≤ 1 / 3 ∧ |(ofInt (-1)).toRat| ≤ 1) ∧
    (∃ m h, Unlimited.halve ⟨9, digitCount 9 - 1⟩ 0 = some (m, h) ∧ h ≤ 3 ∧ 13 / 20 < m.toRat ∧
      m.toRat ≤ 13 / 10 ∧ |((m.sub one).div (m.add one)).toRat| < 22 / 100) ∧
    Unlimited.ln (ofInt 9) = some (ofInt 9).ln ∧
    Unlimited.atanh ⟨-3, 1⟩ = some (atanh ⟨-3, 1⟩) ∧
    Unlimited.expSeries (ofInt (-1)) = some (ofInt (-1)).expSeries := by
  have hnine : 0 < (ofInt 9).toRat := by simp
  have hthird : |(⟨-3, 1⟩ : Decimal).toRat| ≤ 1 / 3 := by norm_num [toRat, abs_le]
  have hone : |(ofInt (-1)).toRat| ≤ 1 := by simp
  obtain ⟨hln, hatanh, hexp, -, -⟩ := series_loops_end
  exact ⟨⟨hnine, hthird, hone⟩, (hln _ hnine).1, (hln _ hnine).2, hatanh _ hthird, hexp _ hone⟩

end Decimal

end ListCalc
