import ListCalc.Proofs.Decimal.Squaring
import ListCalc.Proofs.Decimal.Truncation
import Mathlib.Analysis.Complex.ExponentialBounds
import Mathlib.Analysis.Normed.Algebra.Exponential

/-!
# Proofs — how far `exp` is from the exponential

`exp` multiplies a rounded power of a computed `e` by a series.  The power has one rounding for each
unit of its exponent (`near_powRounded`) and one for each factor `e` (`near_powRounded_e`), the
series has a bounded number (`near_expSeries`), so `near_exp` counts hardly more roundings than the
argument says.
-/

namespace ListCalc

namespace Decimal

/-! ### The series -/

theorem hasSum_exp (X : ℝ) : HasSum (fun k : ℕ => X ^ k / k.factorial) (Real.exp X) := by
  rw [Real.exp_eq_exp_ℝ]
  exact NormedSpace.expSeries_div_hasSum_exp X

/-- The terms of the series, weighted by their places. -/
theorem sum_weighted_exp_le (X : ℝ) (n : ℕ) :
    ∑ k ∈ Finset.range n, (k + 1 : ℝ) * (|X| ^ (k + 1) / (k + 1).factorial) ≤
      |X| * Real.exp |X| := by
  calc ∑ k ∈ Finset.range n, (k + 1 : ℝ) * (|X| ^ (k + 1) / (k + 1).factorial)
      = |X| * ∑ k ∈ Finset.range n, |X| ^ k / k.factorial := by
        rw [Finset.mul_sum]
        refine Finset.sum_congr rfl fun k _ => ?_
        rw [Nat.factorial_succ, pow_succ]
        push_cast
        field_simp
    _ ≤ |X| * Real.exp |X| := by
        gcongr
        exact Real.sum_le_exp_of_nonneg (abs_nonneg X) n

theorem abs_pow_div_factorial (X : ℝ) (k : ℕ) :
    |X ^ k / k.factorial| = |X| ^ k / k.factorial := by
  rw [abs_div, abs_pow, Nat.abs_cast]

theorem cast_unit_le {x : ℚ} (hx : |x| ≤ 1) : |(x : ℝ)| ≤ 1 :=
  (abs_cast_le hx).trans_eq Rat.cast_one

/-- The terms of the exponential as they are computed, against the true ones. -/
theorem roundedSeries_exp {x : Decimal} (hx : |x.toRat| ≤ 1) :
    RoundedSeries (expTerm x) (fun k => (x.toRat : ℝ) ^ k / k.factorial) (fun k => 2 * k)
      (Real.exp x.toRat) (1 / 2) (2 * (|(x.toRat : ℝ)| * Real.exp |(x.toRat : ℝ)|)) 100 where
  hasSum := hasSum_exp _
  first := by simp [expTerm]
  near k := by
    have hnear := (near_expTerm x k).cast
    push_cast at hnear
    exact hnear
  count_le i hi := by omega
  weight_le n := by
    have hweighted := sum_weighted_exp_le (x.toRat : ℝ) n
    simp only [abs_pow_div_factorial, Nat.cast_mul, Nat.cast_ofNat, Nat.cast_add, Nat.cast_one,
      mul_assoc, ← Finset.mul_sum]
    linarith
  ratio_nonneg := by norm_num
  ratio_lt_one := by norm_num
  ratio k := by
    -- a term is the one before, times `X / (k + 2)`
    have hshrink : |(x.toRat : ℝ)| / (k + 2 : ℕ) ≤ 1 / 2 := by
      push_cast
      rw [div_le_iff₀ (by positivity)]
      have hk : (0 : ℝ) ≤ k := Nat.cast_nonneg k
      linarith [cast_unit_le hx]
    rw [abs_pow_div_factorial, abs_pow_div_factorial]
    calc |(x.toRat : ℝ)| ^ (k + 2) / (k + 2).factorial
        = |(x.toRat : ℝ)| / (k + 2 : ℕ) * (|(x.toRat : ℝ)| ^ (k + 1) / (k + 1).factorial) := by
          rw [Nat.factorial_succ (k + 1), pow_succ', Nat.cast_mul, mul_div_mul_comm]
      _ ≤ 1 / 2 * (|(x.toRat : ℝ)| ^ (k + 1) / (k + 1).factorial) := by gcongr
  pos := by norm_num
  le_limit := by decide
  small := negligible_expTerm hx

theorem exp_abs_le {X : ℝ} (hX : |X| ≤ 1) : Real.exp |X| ≤ 37 / 5 * Real.exp X := by
  have htwo : Real.exp 2 ≤ 37 / 5 := by
    have hone := Real.exp_one_lt_d9
    have hsquare : Real.exp 2 = Real.exp 1 ^ 2 := by
      rw [Real.exp_one_pow]
      norm_num
    rw [hsquare]
    nlinarith [Real.exp_pos 1]
  calc Real.exp |X| ≤ Real.exp (2 + X) := Real.exp_le_exp.mpr (by linarith [neg_abs_le X])
    _ = Real.exp 2 * Real.exp X := Real.exp_add 2 X
    _ ≤ 37 / 5 * Real.exp X := by gcongr

/-- How far the sum is from the exponential. -/
theorem abs_expSeries_sub_le {x : Decimal} (hx : |x.toRat| ≤ 1) :
    |(x.expSeries.toRat : ℝ) - Real.exp x.toRat| ≤
      (201 / 100 * (|(x.toRat : ℝ)| * Real.exp |(x.toRat : ℝ)|) + 101 / 100 * Real.exp x.toRat) *
        roundoff := by
  have hround := abs_round_sub_le (roundedSeries_exp hx).abs_sub_le
  have hpos := cast_roundoff_pos
  have hX := cast_unit_le hx
  -- the exponential is so large that the cut of the series is a small part of it
  have hcut : (1 : ℝ) / 10 ^ 105 ≤ 1 / 1000 * (Real.exp x.toRat * roundoff) := by
    have hexp : 1 / 8 ≤ Real.exp x.toRat := by
      linarith [exp_abs_le hX, Real.one_le_exp (abs_nonneg (x.toRat : ℝ))]
    calc (1 : ℝ) / 10 ^ 105 ≤ 1 / 1000 * (1 / 8 * roundoff) := by norm_num [roundoff]
      _ ≤ 1 / 1000 * (Real.exp x.toRat * roundoff) := by gcongr
  have hnonneg : 0 ≤ |(x.toRat : ℝ)| * Real.exp |(x.toRat : ℝ)| * roundoff := by positivity
  rw [abs_of_pos (Real.exp_pos _)] at hround
  rw [expSeries_eq_round]
  refine hround.trans ?_
  norm_num at hcut ⊢
  linarith

/-- The computed series is the exponential up to a few roundings, for arguments up to one. -/
theorem near_expSeries {x : Decimal} (hx : |x.toRat| ≤ 1) :
    Near (16 * roundoff : ℝ) 1 x.expSeries.toRat (Real.exp x.toRat) := by
  have hX := cast_unit_le hx
  have hpos := cast_roundoff_pos
  have hlarge : |(x.toRat : ℝ)| * Real.exp |(x.toRat : ℝ)| * roundoff ≤
      37 / 5 * Real.exp x.toRat * roundoff := by
    refine mul_le_mul_of_nonneg_right ?_ hpos.le
    calc |(x.toRat : ℝ)| * Real.exp |(x.toRat : ℝ)| ≤ 1 * Real.exp |(x.toRat : ℝ)| := by gcongr
      _ ≤ 37 / 5 * Real.exp x.toRat := by linarith [exp_abs_le hX]
  have hpositive := mul_pos (Real.exp_pos x.toRat) hpos
  refine .of_one (by positivity) (by norm_num [roundoff]) ?_
  rw [abs_of_pos (Real.exp_pos _)]
  refine (abs_expSeries_sub_le hx).trans ?_
  linarith

/-- For an argument of one the bound is sharper. -/
theorem near_expSeries_one : Near (7 / 2 * roundoff : ℝ) 1 one.expSeries.toRat (Real.exp 1) := by
  have hpos := cast_roundoff_pos
  have hsum := abs_expSeries_sub_le (x := one) (by simp)
  simp only [toRat_one, Rat.cast_one, abs_one, one_mul] at hsum
  refine .of_one (by positivity) (by norm_num [roundoff]) ?_
  rw [abs_of_pos (Real.exp_pos _)]
  have := mul_pos (Real.exp_pos 1) hpos
  linarith

/-! ### The exponential -/

/-- A rounded power of the computed `e`, against the power of `e`. -/
theorem near_powRounded_e (n : ℕ) :
    Near (9 / 2 * roundoff : ℝ) n (one.expSeries.powRounded n).toRat (Real.exp n) := by
  have hpos : 0 < one.expSeries.toRat := by exact_mod_cast near_expSeries_one.pos (Real.exp_pos 1)
  have hpower := (near_powRounded hpos n).cast
  have hbase := near_expSeries_one.pow n
  rw [one_mul, Real.exp_one_pow] at hbase
  push_cast at hpower
  exact hpower.join (by norm_num [roundoff]) (by norm_num [roundoff]) (by norm_num [roundoff]) hbase

/-- The factor for the whole part of an argument. -/
theorem near_whole (n : Int) :
    Near (5 * roundoff : ℝ) (n.natAbs + 1)
      (if n < 0 then one.div (one.expSeries.powRounded n.natAbs)
        else one.expSeries.powRounded n.natAbs).toRat (Real.exp n) := by
  have hpower := near_powRounded_e n.natAbs
  have hunit : (5 * roundoff : ℝ) < 1 := by norm_num [roundoff]
  split
  · rename_i hneg
    have hpos : (one.expSeries.powRounded n.natAbs).toRat ≠ 0 := by
      exact_mod_cast (hpower.pos (Real.exp_pos _)).ne'
    have hdiv := (near_div one hpos).cast
    have hinv := hpower.inv (v := (5 * roundoff : ℝ)) hunit (by norm_num [roundoff])
      (by norm_num [roundoff])
    have hvalue : (Real.exp n.natAbs)⁻¹ = Real.exp n := by
      have habs : (n.natAbs : ℝ) = -n := by
        rw [Nat.cast_natAbs, abs_of_neg hneg, Int.cast_neg]
      rw [← Real.exp_neg, habs, neg_neg]
    rw [hvalue] at hinv
    push_cast [toRat_one, one_div] at hdiv
    rw [add_comm]
    exact (hdiv.mono (by norm_num [roundoff]) hunit le_rfl).trans hinv
  · rename_i hnonneg
    have habs : (n.natAbs : ℝ) = n := by
      rw [Nat.cast_natAbs, abs_of_nonneg (not_lt.mp hnonneg)]
    rw [habs] at hpower
    exact hpower.mono (by norm_num [roundoff]) hunit (Nat.le_succ _)

/-- **How far `exp` is from the exponential**: hardly more roundings than the argument says. -/
theorem near_exp {y : Decimal} (hy : |y.toRat| ≤ 10 ^ 8) :
    ∃ k : ℕ, (k : ℚ) ≤ |y.toRat| + 7 ∧
      Near (5 * roundoff : ℝ) k y.exp.toRat (Real.exp y.toRat) := by
  have hunit : (5 * roundoff : ℝ) < 1 := by norm_num [roundoff]
  have hcut := abs_sub_withScale_zero y
  rw [toRat_withScale_zero] at hcut
  generalize hwhole : (y.withScale 0).coeff = n at hcut
  have hn : |(n : ℚ)| ≤ |y.toRat| + 1 := by
    rw [abs_sub_comm] at hcut
    linarith [abs_sub_abs_le_abs_sub (n : ℚ) y.toRat]
  have hfits : fitsWord n = true := by
    have hbound : |n| ≤ 10 ^ 8 + 1 := by exact_mod_cast (by linarith : |(n : ℚ)| ≤ 10 ^ 8 + 1)
    obtain ⟨hlow, hhigh⟩ := abs_le.mp hbound
    rw [fitsWord, Bool.and_eq_true, decide_eq_true_eq, decide_eq_true_eq, wordBound]
    constructor <;> omega
  have hfraction : Near (5 * roundoff : ℝ) 4 (y.difference (y.withScale 0)).expSeries.toRat
      (Real.exp (y.toRat - n)) := by
    have hseries := near_expSeries (x := y.difference (y.withScale 0))
      (by rw [toRat_difference, toRat_withScale_zero, hwhole]; exact hcut.le)
    rw [toRat_difference, toRat_withScale_zero, hwhole] at hseries
    push_cast at hseries
    exact hseries.regroup (by norm_num [roundoff]) hunit (by norm_num [roundoff])
      (by norm_num [roundoff])
  rw [exp]
  simp only [hwhole, hfits, if_true]
  split
  · rename_i hzero
    refine ⟨4, by push_cast; linarith [abs_nonneg y.toRat], ?_⟩
    simpa [hzero] using hfraction
  · have hproduct := hfraction.mul (near_whole n)
    rw [← Real.exp_add, sub_add_cancel, ← Rat.cast_mul, ← toRat_mul] at hproduct
    have hpos := hproduct.pos (Real.exp_pos _)
    have hround := (near_round_of_pos (by exact_mod_cast hpos)).cast
    refine ⟨1 + (4 + (n.natAbs + 1)), ?_, (hround.mono ?_ hunit le_rfl).trans hproduct⟩
    · push_cast [Nat.cast_natAbs]
      linarith
    · norm_num [roundoff]

end Decimal

end ListCalc
