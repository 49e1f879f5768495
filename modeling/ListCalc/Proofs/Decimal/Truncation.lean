import ListCalc.Proofs.Decimal.Series
import Mathlib.Analysis.SpecificLimits.Normed

/-!
# Proofs — a rounded series, cut off

How far a sum of `sumUntil` is from the sum of the true series, over the real numbers.  There are
two errors: what the terms that are added differ from the true terms, each by a number of
roundings, and the true terms that are left out, which shrink faster than a geometric series.
`RoundedSeries` is what has to be known about the terms, `RoundedSeries.abs_sub_le` the bound, and
`abs_round_sub_le` adds the rounding of the sum.
-/

namespace ListCalc

/-- Roundings of rational numbers are roundings of real numbers. -/
theorem Near.cast {u a x : ℚ} {n : ℕ} (h : Near u n a x) : Near (u : ℝ) n (a : ℝ) (x : ℝ) := by
  obtain ⟨hu, hu', t, hlow, hhigh, rfl⟩ := h
  exact ⟨by exact_mod_cast hu, by exact_mod_cast hu', t, by exact_mod_cast hlow,
    by exact_mod_cast hhigh, by push_cast; rfl⟩

theorem abs_cast_le {a c : ℚ} (h : |a| ≤ c) : |(a : ℝ)| ≤ (c : ℝ) := by exact_mod_cast h

/-- What a series leaves out after `n` terms that shrink by a factor. -/
theorem abs_sub_sum_range_le {f : ℕ → ℝ} {S ρ : ℝ} {n : ℕ} (hS : HasSum f S) (hρ : 0 ≤ ρ)
    (hρ' : ρ < 1) (hratio : ∀ i, n ≤ i → |f (i + 1)| ≤ ρ * |f i|) :
    |S - ∑ i ∈ Finset.range n, f i| ≤ |f n| / (1 - ρ) := by
  have htail : HasSum (fun i => f (i + n)) (S - ∑ i ∈ Finset.range n, f i) :=
    (hasSum_nat_add_iff' n).mpr hS
  have hgeometric : HasSum (fun i => |f n| * ρ ^ i) (|f n| * (1 - ρ)⁻¹) :=
    (hasSum_geometric_of_lt_one hρ hρ').mul_left _
  have hbound : ∀ i, ‖f (i + n)‖ ≤ |f n| * ρ ^ i := by
    intro i
    induction i with
    | zero => simp
    | succ i ih =>
      calc ‖f (i + 1 + n)‖ = |f (i + n + 1)| := by rw [Real.norm_eq_abs, Nat.add_right_comm]
        _ ≤ ρ * |f (i + n)| := hratio (i + n) (Nat.le_add_left n i)
        _ ≤ ρ * (|f n| * ρ ^ i) := mul_le_mul_of_nonneg_left ih hρ
        _ = |f n| * ρ ^ (i + 1) := by ring
  exact htail.norm_le_of_bounded hgeometric hbound

namespace Decimal

theorem cast_roundoff_pos : (0 : ℝ) < roundoff := by exact_mod_cast roundoff_pos

theorem roundoff_mul_abs_nonneg (x : ℝ) : 0 ≤ roundoff * |x| :=
  mul_nonneg cast_roundoff_pos.le (abs_nonneg x)

/-- The working digits of a number that is near another one; the rounding error of the error is
left out. -/
theorem abs_round_sub_le {d : Decimal} {S ε : ℝ} (h : |(d.toRat : ℝ) - S| ≤ ε) :
    |(d.round.toRat : ℝ) - S| ≤ roundoff * |S| + (1 + 1 / 10 ^ 9) * ε := by
  have hround := (near_round d).cast.abs_sub_le_of_one
  have hsize : |(d.toRat : ℝ)| ≤ |S| + ε := by linarith [abs_sub_abs_le_abs_sub (d.toRat : ℝ) S]
  have hpos := cast_roundoff_pos
  have hsecond : roundoff * ε ≤ 1 / 10 ^ 9 * ε := by
    refine mul_le_mul_of_nonneg_right ?_ ((abs_nonneg _).trans h)
    norm_num [roundoff]
  calc |(d.round.toRat : ℝ) - S| ≤ |(d.round.toRat : ℝ) - d.toRat| + |(d.toRat : ℝ) - S| :=
        abs_sub_le _ _ _
    _ ≤ roundoff * |(d.toRat : ℝ)| + ε := add_le_add hround h
    _ ≤ roundoff * (|S| + ε) + ε := by gcongr
    _ ≤ roundoff * |S| + (1 + 1 / 10 ^ 9) * ε := by linarith

variable {n : ℕ} {a x : ℝ}

/-- Few roundings as one relative error. -/
theorem abs_sub_le_of_near (hn : n ≤ 1000) (h : Near (roundoff : ℝ) n a x) :
    |a - x| ≤ 1001 / 1000 * roundoff * (n * |x|) := by
  have hpos := cast_roundoff_pos
  have hcount : n * (roundoff : ℝ) ≤ 1 / 10000 := by
    have hcast : (n : ℝ) ≤ 1000 := by exact_mod_cast hn
    calc n * (roundoff : ℝ) ≤ 1000 * roundoff := mul_le_mul_of_nonneg_right hcast hpos.le
      _ ≤ 1 / 10000 := by norm_num [roundoff]
  have hnonneg : (0 : ℝ) ≤ n * roundoff := by positivity
  have hsub := h.abs_sub_le (c := 1001 / 1000 * (n * (roundoff : ℝ))) (by linarith) (by nlinarith)
  linarith

theorem abs_le_mul_of_near (hn : n ≤ 1000) (h : Near (roundoff : ℝ) n a x) :
    |x| ≤ 1001 / 1000 * |a| := by
  have hsub := abs_sub_le_of_near hn h
  have hfactor : 1001 / 1000 * (roundoff : ℝ) * n ≤ 1 / 10000 := by
    have hcast : (n : ℝ) ≤ 1000 := by exact_mod_cast hn
    have hpos := cast_roundoff_pos
    calc 1001 / 1000 * (roundoff : ℝ) * n ≤ 1001 / 1000 * roundoff * 1000 := by gcongr
      _ ≤ 1 / 10000 := by norm_num [roundoff]
  have htri := abs_sub_abs_le_abs_sub x a
  rw [abs_sub_comm] at htri
  nlinarith [abs_nonneg x]

/-- The terms of a sum that is computed, and those of the series that it stands for: each computed
term is a number of roundings away, and the `j`-th is negligible. -/
structure RoundedSeries (term : Nat → Decimal) (f : ℕ → ℝ) (count : ℕ → ℕ) (S ρ B : ℝ) (j : ℕ) :
    Prop where
  hasSum : HasSum f S
  first : ((term 0).toRat : ℝ) = f 0
  near : ∀ i, Near (roundoff : ℝ) (count i) (term i).toRat (f i)
  count_le : ∀ i ≤ j, count i ≤ 1000
  weight_le : ∀ n, ∑ i ∈ Finset.range n, count (i + 1) * |f (i + 1)| ≤ B
  ratio_nonneg : 0 ≤ ρ
  ratio_lt_one : ρ < 1
  ratio : ∀ i, |f (i + 2)| ≤ ρ * |f (i + 1)|
  pos : 0 < j
  le_limit : j ≤ seriesLimit
  small : |(term j).toRat| < 1 / 10 ^ 105

/-- How far the computed sum is from the series. -/
theorem RoundedSeries.abs_sub_le {term : Nat → Decimal} {f : ℕ → ℝ} {count : ℕ → ℕ} {S ρ B : ℝ}
    {j : ℕ} (h : RoundedSeries term f count S ρ B j) :
    |((sumUntil term seriesLimit 0 (term 0)).toRat : ℝ) - S| ≤
      1001 / 1000 * (roundoff * B + 1 / 10 ^ 105 / (1 - ρ)) := by
  obtain ⟨n, hn, hlast, hsum⟩ := sumUntil_spec seriesLimit (term 0) h.pos
    (by simpa using h.le_limit) h.small
  have hpos := cast_roundoff_pos
  simp only [Nat.zero_add, Nat.add_comm 1] at hn hlast hsum
  -- the terms that are added
  have hadded : |∑ i ∈ Finset.range n, (((term (i + 1)).toRat : ℝ) - f (i + 1))| ≤
      1001 / 1000 * (roundoff * B) := by
    calc |∑ i ∈ Finset.range n, (((term (i + 1)).toRat : ℝ) - f (i + 1))|
        ≤ ∑ i ∈ Finset.range n, |((term (i + 1)).toRat : ℝ) - f (i + 1)| :=
          Finset.abs_sum_le_sum_abs _ _
      _ ≤ ∑ i ∈ Finset.range n, 1001 / 1000 * roundoff * (count (i + 1) * |f (i + 1)|) := by
          refine Finset.sum_le_sum fun i hi => abs_sub_le_of_near (h.count_le _ ?_) (h.near _)
          have := Finset.mem_range.mp hi
          omega
      _ = 1001 / 1000 * roundoff * ∑ i ∈ Finset.range n, count (i + 1) * |f (i + 1)| := by
          rw [Finset.mul_sum]
      _ ≤ 1001 / 1000 * roundoff * B := by
          gcongr
          exact h.weight_le n
      _ = 1001 / 1000 * (roundoff * B) := by ring
  -- the terms that are left out
  have hleft : |S - ∑ i ∈ Finset.range (n + 1), f i| ≤ 1001 / 1000 * (1 / 10 ^ 105 / (1 - ρ)) := by
    have hterm : |f (n + 1)| ≤ 1001 / 1000 * (1 / 10 ^ 105) := by
      have hsmall := (Rat.cast_le (K := ℝ)).mpr hlast.le
      push_cast at hsmall
      linarith [abs_le_mul_of_near (h.count_le _ hn) (h.near (n + 1))]
    refine (abs_sub_sum_range_le h.hasSum h.ratio_nonneg h.ratio_lt_one ?_).trans ?_
    · intro i hi
      obtain ⟨k, rfl⟩ : ∃ k, i = k + 1 := ⟨i - 1, by omega⟩
      exact h.ratio k
    · rw [← mul_div_assoc]
      exact div_le_div_of_nonneg_right hterm (by linarith [h.ratio_lt_one])
  have hsplit : ((sumUntil term seriesLimit 0 (term 0)).toRat : ℝ) - S =
      ∑ i ∈ Finset.range n, (((term (i + 1)).toRat : ℝ) - f (i + 1)) -
        (S - ∑ i ∈ Finset.range (n + 1), f i) := by
    rw [hsum, Finset.sum_range_succ', Finset.sum_sub_distrib, ← h.first]
    push_cast
    ring
  rw [hsplit]
  linarith [abs_sub (∑ i ∈ Finset.range n, (((term (i + 1)).toRat : ℝ) - f (i + 1)))
    (S - ∑ i ∈ Finset.range (n + 1), f i)]

end Decimal

end ListCalc
