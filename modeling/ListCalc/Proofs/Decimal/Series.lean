import ListCalc.Decimal.Series
import ListCalc.Proofs.Decimal.Rounding
import Mathlib.Algebra.BigOperators.Intervals
import Mathlib.Data.Nat.Factorial.Basic
import Mathlib.Tactic.NormNum.NatFactorial

/-!
# Proofs — the terms of a series

The loops of `atanhSum` and `expSum` are one loop over two sequences of terms, `atanhTerm` and
`expTerm`: `sumUntil` adds terms up to the first one that is negligible (`atanhSum_eq`,
`expSum_eq`).  Each term is near the term of the true series, by a number of roundings that grows
with its place (`near_atanhTerm`, `near_expTerm`).  So the terms do become negligible, before the
loops reach their limit (`negligible_atanhTerm`, `negligible_expTerm`), and a sum ends with the
first negligible term (`sumUntil_spec`).
-/

namespace ListCalc

namespace Decimal

/-! ### The terms -/

/-- The power of `z` that the `j`-th term of `atanh z` is made of. -/
def atanhPower (z : Decimal) : Nat → Decimal
  | 0     => z
  | j + 1 => ((atanhPower z j).mulTrimmed (z.mulTrimmed z).round).round

/-- The `j`-th term of `atanh z`; the loop starts with term zero as it is. -/
def atanhTerm (z : Decimal) : Nat → Decimal
  | 0     => z
  | j + 1 => (atanhPower z (j + 1)).div (ofInt (2 * j + 3 : Nat))

/-- The `k`-th term of `expSeries x`. -/
def expTerm (x : Decimal) : Nat → Decimal
  | 0     => one
  | k + 1 => ((expTerm x k).mulTrimmed x).round.div (ofInt (k + 1 : Nat))

/-- The power in a term is off by as many roundings as it has products. -/
theorem near_atanhPower (z : Decimal) (j : Nat) :
    Near roundoff (2 * j) (atanhPower z j).toRat (z.toRat ^ (2 * j + 1)) := by
  induction j with
  | zero => exact .of_eq roundoff_pos.le roundoff_lt_one (by simp [atanhPower])
  | succ j ih =>
    have hsquare := near_round (z.mulTrimmed z)
    have hround := near_round ((atanhPower z j).mulTrimmed (z.mulTrimmed z).round)
    rw [toRat_mulTrimmed] at hsquare hround
    have hstep := hround.trans (ih.mul hsquare)
    have hcount : 1 + (2 * j + 1) = 2 * (j + 1) := by ring
    have hpow : z.toRat ^ (2 * j + 1) * (z.toRat * z.toRat) = z.toRat ^ (2 * (j + 1) + 1) := by ring
    rwa [hcount, hpow] at hstep

/-- A quotient is off by one rounding. -/
theorem near_div_ofInt (a : Decimal) {n : Nat} (hn : 0 < n) :
    Near roundoff 1 (a.div (ofInt n)).toRat (a.toRat / n) := by
  have hne : (ofInt n).toRat ≠ 0 := by
    rw [toRat_ofInt]
    exact_mod_cast hn.ne'
  have hdiv := near_div a hne
  rw [toRat_ofInt, Int.cast_natCast] at hdiv
  exact hdiv.mono (by linarith [roundoff_pos]) roundoff_lt_one le_rfl

/-- The terms of `atanh` carry two roundings for each power and one for the quotient. -/
theorem near_atanhTerm (z : Decimal) (j : Nat) :
    Near roundoff (2 * j + 1) (atanhTerm z j).toRat (z.toRat ^ (2 * j + 1) / (2 * j + 1)) := by
  cases j with
  | zero =>
    exact (Near.of_eq roundoff_pos.le roundoff_lt_one (by simp [atanhTerm])).mono le_rfl
      roundoff_lt_one (Nat.zero_le _)
  | succ j =>
    have hdiv := near_div_ofInt (atanhPower z (j + 1)) (by omega : 0 < 2 * j + 3)
    have hterm := hdiv.trans ((near_atanhPower z (j + 1)).div_right ((2 * j + 3 : Nat) : ℚ))
    have hcast : ((2 * j + 3 : Nat) : ℚ) = 2 * ((j + 1 : Nat) : ℚ) + 1 := by
      push_cast
      ring
    rwa [hcast, add_comm 1] at hterm

/-- The terms of the exponential series carry two roundings for each step. -/
theorem near_expTerm (x : Decimal) (k : Nat) :
    Near roundoff (2 * k) (expTerm x k).toRat (x.toRat ^ k / k.factorial) := by
  induction k with
  | zero => exact .of_eq roundoff_pos.le roundoff_lt_one (by simp [expTerm])
  | succ k ih =>
    have hround := near_round ((expTerm x k).mulTrimmed x)
    rw [toRat_mulTrimmed] at hround
    have hdiv := near_div_ofInt ((expTerm x k).mulTrimmed x).round (Nat.succ_pos k)
    have hstep := hdiv.trans ((hround.trans (ih.mul_right x.toRat)).div_right ((k + 1 : Nat) : ℚ))
    have hcount : 1 + (1 + 2 * k) = 2 * (k + 1) := by ring
    have hterm : x.toRat ^ k / k.factorial * x.toRat / ((k + 1 : Nat) : ℚ) =
        x.toRat ^ (k + 1) / (k + 1).factorial := by
      rw [Nat.factorial_succ, Nat.cast_mul, pow_succ]
      field_simp
    rwa [hcount, hterm] at hstep

/-! ### The loops -/

theorem toRat_negligible : negligible.toRat = 1 / 10 ^ 105 := by
  norm_num [negligible, toRat, workingDigits]

/-- What is negligible is so in value. -/
theorem negligible_iff {d : Decimal} : d.abs.lt negligible = true ↔ |d.toRat| < 1 / 10 ^ 105 := by
  rw [lt_iff, toRat_abs, toRat_negligible]

/-- Adds the terms after the `k`-th to `sum`, up to the first one that is negligible. -/
def sumUntil (term : Nat → Decimal) : Nat → Nat → Decimal → Decimal
  | 0,         _, sum => sum
  | steps + 1, k, sum =>
    if (term (k + 1)).abs.lt negligible then sum
    else sumUntil term steps (k + 1) (sum.accumulate (term (k + 1)))

/-- The loop adds up the terms one by one. -/
theorem atanhSum_eq (z : Decimal) (steps j : Nat) (sum : Decimal) :
    atanhSum (z.mulTrimmed z).round steps (atanhPower z j) (2 * j + 1) sum =
      sumUntil (atanhTerm z) steps j sum := by
  induction steps generalizing j sum with
  | zero => rfl
  | succ steps ih =>
    have hnext := ih (j + 1) (sum.accumulate (atanhTerm z (j + 1)))
    rw [sumUntil, ← hnext]
    rfl

/-- The loop adds up the terms one by one. -/
theorem expSum_eq (x : Decimal) (steps k : Nat) (sum : Decimal) :
    expSum x steps (expTerm x k) k sum = sumUntil (expTerm x) steps k sum := by
  induction steps generalizing k sum with
  | zero => rfl
  | succ steps ih =>
    have hnext := ih (k + 1) (sum.accumulate (expTerm x (k + 1)))
    rw [sumUntil, ← hnext]
    rfl

theorem atanh_eq_round (z : Decimal) :
    z.atanh = (sumUntil (atanhTerm z) seriesLimit 0 z).round :=
  congrArg round (atanhSum_eq z seriesLimit 0 z)

theorem expSeries_eq_round (x : Decimal) :
    x.expSeries = (sumUntil (expTerm x) seriesLimit 0 one).round :=
  congrArg round (expSum_eq x seriesLimit 0 one)

/-- A loop that comes to a negligible term adds up the terms before the first one. -/
theorem sumUntil_spec {term : Nat → Decimal} {k j : Nat} (steps : Nat) (sum : Decimal) (hk : k < j)
    (hj : j ≤ k + steps) (hsmall : |(term j).toRat| < 1 / 10 ^ 105) :
    ∃ n, k + 1 + n ≤ j ∧ |(term (k + 1 + n)).toRat| < 1 / 10 ^ 105 ∧
      (sumUntil term steps k sum).toRat =
        sum.toRat + ∑ i ∈ Finset.range n, (term (k + 1 + i)).toRat := by
  induction steps generalizing k sum with
  | zero => omega
  | succ steps ih =>
    rw [sumUntil]
    by_cases hstop : (term (k + 1)).abs.lt negligible = true
    · exact ⟨0, hk, negligible_iff.mp hstop, by rw [if_pos hstop]; simp⟩
    · have hne : j ≠ k + 1 := fun h => hstop (negligible_iff.mpr (h ▸ hsmall))
      have hshift : ∀ i, k + 1 + 1 + i = k + 1 + (i + 1) := fun i => by ring
      obtain ⟨n, hn, hterm, hsum⟩ :=
        ih (sum.accumulate (term (k + 1))) (by omega : k + 1 < j) (by omega)
      refine ⟨n + 1, by omega, by rwa [← hshift], ?_⟩
      rw [if_neg hstop, hsum, toRat_accumulate, Finset.sum_range_succ' _ n, add_assoc,
        add_comm (term (k + 1)).toRat]
      simp only [hshift, add_zero]

/-! ### The terms become negligible -/

/-- A number that few roundings made is at most twice as large. -/
theorem abs_le_two_mul_of_near {n : Nat} {a x : ℚ} (hn : n ≤ 1000) (h : Near roundoff n a x) :
    |a| ≤ 2 * |x| := by
  have hsmall : n * roundoff ≤ 1 / 2 := by
    have hcast : (n : ℚ) ≤ 1000 := by exact_mod_cast hn
    calc n * roundoff ≤ 1000 * roundoff := mul_le_mul_of_nonneg_right hcast roundoff_pos.le
      _ ≤ 1 / 2 := by norm_num [roundoff]
  have hsub := h.abs_sub_le (c := 1) (by linarith) (by linarith)
  have htri := abs_sub_abs_le_abs_sub a x
  linarith

/-- After so many terms the next one is negligible. -/
theorem negligible_atanhTerm {z : Decimal} (hz : |z.toRat| ≤ 7 / 20) :
    |(atanhTerm z 120).toRat| < 1 / 10 ^ 105 := by
  have hnear := abs_le_two_mul_of_near (by norm_num) (near_atanhTerm z 120)
  have hterm : |z.toRat ^ (2 * 120 + 1) / (2 * (120 : Nat) + 1)| ≤ (7 / 20) ^ 241 := by
    rw [abs_div, abs_pow]
    calc |z.toRat| ^ 241 / |(2 * (120 : Nat) + 1 : ℚ)| ≤ |z.toRat| ^ 241 := by
          refine div_le_self (by positivity) ?_
          norm_num
      _ ≤ (7 / 20) ^ 241 := pow_le_pow_left₀ (abs_nonneg _) hz 241
  calc |(atanhTerm z 120).toRat| ≤ 2 * (7 / 20) ^ 241 := by linarith
    _ < 1 / 10 ^ 105 := by norm_num

/-- After so many terms the next one is negligible. -/
theorem negligible_expTerm {x : Decimal} (hx : |x.toRat| ≤ 1) :
    |(expTerm x 100).toRat| < 1 / 10 ^ 105 := by
  have hnear := abs_le_two_mul_of_near (by norm_num) (near_expTerm x 100)
  have hterm : |x.toRat ^ 100 / Nat.factorial 100| ≤ 1 / Nat.factorial 100 := by
    rw [abs_div, abs_pow, Nat.abs_cast]
    gcongr
    exact pow_le_one₀ (abs_nonneg _) hx
  calc |(expTerm x 100).toRat| ≤ 2 * (1 / Nat.factorial 100) := by linarith
    _ < 1 / 10 ^ 105 := by norm_num

end Decimal

end ListCalc
