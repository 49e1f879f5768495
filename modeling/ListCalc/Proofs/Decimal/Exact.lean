import ListCalc.Proofs.Decimal.Value
import Mathlib.Tactic.Ring
import Mathlib.Tactic.Linarith
import Mathlib.Data.Rat.Floor

/-!
# Proofs — the exact operations on decimals

What the operations do to the value of a decimal.  The forms of a sum, a difference or a product
differ in the scale of what they answer and agree in its value: `toRat_add`, `toRat_sub`,
`toRat_difference` and `toRat_accumulate`; `toRat_mul`, `toRat_mulExact` and `toRat_mulTrimmed`.

`toRat_modFloor` is the remainder `a - b · ⌊a / b⌋` over the rationals, and `toRat_withScale_zero`
the cut at the point.
-/

namespace ListCalc

namespace Decimal

@[simp] theorem toRat_ofInt (n : Int) : (ofInt n).toRat = n := by simp [toRat, ofInt]

@[simp] theorem toRat_zero : zero.toRat = 0 := by simp [toRat, zero]

@[simp] theorem toRat_one : one.toRat = 1 := by simp [toRat, one]

@[simp] theorem toRat_negated (d : Decimal) : d.neg.toRat = -d.toRat := by simp [toRat, neg]

@[simp] theorem toRat_abs (d : Decimal) : d.abs.toRat = |d.toRat| := by
  rw [abs_toRat, toRat, abs, Int.cast_natCast]

/-- Zero is recognised by its value. -/
theorem isZero_iff {d : Decimal} : d.isZero = true ↔ d.toRat = 0 := by
  rw [isZero, beq_iff_eq, toRat_eq_zero]

/-- Comparison is by value. -/
theorem lt_iff {a b : Decimal} : a.lt b = true ↔ a.toRat < b.toRat := by
  rw [lt, beq_iff_eq, order_eq_compare, compare_lt_iff_lt]

theorem cast_tenPow (k : Nat) : ((tenPow k : Nat) : ℚ) = 10 ^ (k : Int) := by
  rw [tenPow_eq, Nat.cast_pow, zpow_natCast, Nat.cast_ofNat]

/-- A recognised one is one. -/
theorem toRat_of_isOne {d : Decimal} (h : d.isOne = true) : d.toRat = 1 := by
  simp only [isOne, Bool.and_eq_true, decide_eq_true_eq, beq_iff_eq] at h
  obtain ⟨⟨hscale, -⟩, hcoeff⟩ := h
  rw [toRat, hcoeff, Int.cast_natCast, cast_tenPow, Int.toNat_of_nonneg hscale,
    ← zpow_add₀ (by norm_num), add_neg_cancel, zpow_zero]

/-! ### Trailing zeros -/

/-- Splitting off a zero moves one factor of ten to the count. -/
theorem stripZeros_mul (n k : Nat) :
    (stripZeros n k).1 * 10 ^ (stripZeros n k).2 = n * 10 ^ k := by
  induction n, k using stripZeros.induct with
  | case1 n k h ih =>
    rw [stripZeros, dif_pos h, ih, Nat.pow_succ', ← Nat.mul_assoc,
      Nat.div_mul_cancel (Nat.dvd_of_mod_eq_zero h.2)]
  | case2 n k h => rw [stripZeros, dif_neg h]

@[simp] theorem toRat_normalized (d : Decimal) : d.normalized.toRat = d.toRat := by
  rw [normalized]
  split
  · rename_i hzero
    rw [toRat_zero, toRat_eq_zero.mpr hzero]
  · have hstrip := stripZeros_mul d.coeff.natAbs 0
    generalize stripZeros d.coeff.natAbs 0 = p at hstrip
    obtain ⟨n, zeros⟩ := p
    have hcoeff : (d.coeff : ℚ) = d.coeff.sign * (n * 10 ^ (zeros : Int)) := by
      have hn : n * 10 ^ zeros = d.coeff.natAbs := by simpa using hstrip
      rw [zpow_natCast]
      exact_mod_cast (hn ▸ (Int.sign_mul_natAbs d.coeff).symm :
        d.coeff = d.coeff.sign * ((n * 10 ^ zeros : Nat) : Int))
    have hexp : (10 : ℚ) ^ (-(d.scale - zeros)) = 10 ^ (zeros : Int) * 10 ^ (-d.scale) := by
      rw [← zpow_add₀ (by norm_num)]
      congr 1
      ring
    simp only [toRat]
    rw [hcoeff, hexp]
    push_cast
    ring

/-! ### Sums and differences -/

@[simp] theorem toRat_add (a b : Decimal) : (a.add b).toRat = a.toRat + b.toRat := by
  rw [toRat_eq_coeffAt (le_max_left a.scale b.scale),
    toRat_eq_coeffAt (le_max_right a.scale b.scale)]
  simp only [add, toRat]
  push_cast
  ring

@[simp] theorem toRat_difference (a b : Decimal) :
    (a.difference b).toRat = a.toRat - b.toRat := by
  rw [toRat_eq_coeffAt (le_max_left a.scale b.scale),
    toRat_eq_coeffAt (le_max_right a.scale b.scale)]
  simp only [difference, toRat]
  push_cast
  ring

@[simp] theorem toRat_sub (a b : Decimal) : (a.sub b).toRat = a.toRat - b.toRat := by
  rw [sub]
  split
  · rename_i hb
    rw [isZero_iff.mp hb, sub_zero]
  · split
    · rename_i ha
      rw [toRat_negated, isZero_iff.mp ha, zero_sub]
    · exact toRat_difference a b

@[simp] theorem toRat_accumulate (a b : Decimal) :
    (a.accumulate b).toRat = a.toRat + b.toRat := by
  rw [accumulate]
  split
  · rename_i hb
    rw [isZero_iff.mp hb, add_zero]
  · split
    · rename_i ha
      rw [isZero_iff.mp ha, zero_add]
    · exact toRat_add a b

/-! ### Products -/

@[simp] theorem toRat_mulExact (a b : Decimal) :
    (a.mulExact b).toRat = a.toRat * b.toRat := by
  simp only [mulExact, toRat]
  rw [neg_add, zpow_add₀ (by norm_num)]
  push_cast
  ring

@[simp] theorem toRat_mul (a b : Decimal) : (a.mul b).toRat = a.toRat * b.toRat := by
  rw [mul]
  split
  · rename_i ha
    rw [toRat_of_isOne ha, one_mul]
  · split
    · rename_i hb
      rw [toRat_of_isOne hb, mul_one]
    · exact toRat_mulExact a b

@[simp] theorem toRat_mulTrimmed (a b : Decimal) :
    (a.mulTrimmed b).toRat = a.toRat * b.toRat := by
  rw [mulTrimmed]
  split
  · rename_i ha
    rw [toRat_normalized, toRat_of_isOne ha, one_mul]
  · split
    · rename_i hb
      rw [toRat_normalized, toRat_of_isOne hb, mul_one]
    · exact toRat_mulExact a b

/-! ### Remainders -/

/-- On one scale the quotient of two decimals is that of their coefficients. -/
theorem toRat_div_toRat (a b : Decimal) :
    a.toRat / b.toRat =
      (a.coeffAt (max a.scale b.scale) : ℚ) / (b.coeffAt (max a.scale b.scale) : ℚ) := by
  rw [toRat_eq_coeffAt (le_max_left a.scale b.scale),
    toRat_eq_coeffAt (le_max_right a.scale b.scale),
    mul_div_mul_right _ _ (ten_zpow_pos _).ne']

theorem coeffAt_neg {d : Decimal} {s : Int} : d.coeffAt s < 0 ↔ d.coeff < 0 := by
  have htens : (0 : Int) < (tenPow (s - d.scale).toNat : Nat) := by
    rw [tenPow_eq]
    positivity
  rw [coeffAt]
  exact ⟨fun h => neg_of_mul_neg_left h htens.le, fun h => mul_neg_of_neg_of_pos h htens⟩

/-- The truncated remainder, put right by one divisor where the signs differ, is the floored
one. -/
theorem fmod_eq_ite (m n : Int) :
    m.fmod n = if m.tmod n ≠ 0 ∧ ¬ (m.tmod n < 0 ↔ n < 0) then m.tmod n + n else m.tmod n := by
  have hsign := Int.sign_tmod m n
  rw [Int.fmod_eq_tmod]
  by_cases hdvd : n ∣ m
  · rw [if_pos hdvd, Int.tmod_eq_zero_of_dvd hdvd]
    simp
  · have hm : m ≠ 0 := fun h => hdvd (h ▸ Int.dvd_zero n)
    rw [if_neg hdvd] at hsign
    rcases sign_cases m with h | h | h <;> rcases sign_cases (m.tmod n) with hr | hr | hr <;>
      split_ifs <;> omega

/-- The floor of a quotient of integers. -/
theorem floor_div_cast (m n : Int) : ⌊(m : ℚ) / n⌋ = m.fdiv n := by
  rcases le_total 0 n with hn | hn
  · lift n to ℕ using hn
    rw [Int.cast_natCast, Rat.floor_intCast_div_natCast, Int.fdiv_eq_ediv_of_nonneg _ (by omega)]
  · obtain ⟨k, rfl⟩ : ∃ k : ℕ, n = -k := ⟨n.natAbs, by omega⟩
    have hneg : (m : ℚ) / ((-(k : Int) : Int) : ℚ) = ((-m : Int) : ℚ) / (k : ℚ) := by
      push_cast
      rw [div_neg, neg_div]
    rw [hneg, Rat.floor_intCast_div_natCast, ← Int.neg_fdiv_neg, neg_neg,
      Int.fdiv_eq_ediv_of_nonneg _ (by omega)]

/-- The floored remainder of integers, over the rationals. -/
theorem cast_fmod (m n : Int) : ((m.fmod n : Int) : ℚ) = m - n * ⌊(m : ℚ) / n⌋ := by
  rw [floor_div_cast, Int.fmod_def]
  push_cast
  rfl

/-- The floored remainder of decimals is that of their coefficients at one scale. -/
theorem modFloor_eq_fmod (a b : Decimal) :
    (a.modFloor b).toRat =
      ((a.coeffAt (max a.scale b.scale)).fmod (b.coeffAt (max a.scale b.scale)) : Int) *
        10 ^ (-(max a.scale b.scale)) := by
  have hrem : (a.rem b).coeff =
      (a.coeffAt (max a.scale b.scale)).tmod (b.coeffAt (max a.scale b.scale)) := rfl
  rw [modFloor, fmod_eq_ite]
  simp only [← hrem, coeffAt_neg]
  by_cases h : (a.rem b).coeff ≠ 0 ∧ ¬ ((a.rem b).coeff < 0 ↔ b.coeff < 0)
  · rw [if_pos h, if_pos h, toRat_add, toRat_eq_coeffAt (le_max_right a.scale b.scale)]
    rw [Int.cast_add, add_mul]
    rfl
  · rw [if_neg h, if_neg h]
    rfl

/-- The floored remainder of decimals, over the rationals. -/
theorem toRat_modFloor (a b : Decimal) :
    (a.modFloor b).toRat = a.toRat - b.toRat * ⌊a.toRat / b.toRat⌋ := by
  rw [modFloor_eq_fmod, cast_fmod, toRat_div_toRat,
    toRat_eq_coeffAt (le_max_left a.scale b.scale), toRat_eq_coeffAt (le_max_right a.scale b.scale)]
  ring

/-! ### The cut at the point -/

/-- Dropping `k` digits changes a number by less than one unit of the last digit kept. -/
theorem abs_sub_tdiv_tenPow (n : Int) (k : Nat) :
    |(n : ℚ) - (n.tdiv (tenPow k) : Int) * 10 ^ (k : Int)| < 10 ^ (k : Int) := by
  have hpos : (0 : Int) < (tenPow k : Nat) := by
    rw [tenPow_eq]
    positivity
  have hsplit : (n : ℚ) - (n.tdiv (tenPow k) : Int) * 10 ^ (k : Int) =
      (n.tmod (tenPow k) : Int) := by
    rw [Int.tmod_def, ← cast_tenPow]
    push_cast
    ring
  rw [hsplit, ← cast_tenPow, abs_lt]
  exact_mod_cast And.intro (Int.lt_tmod_of_pos n hpos) (Int.tmod_lt_of_pos n hpos)

theorem scale_withScale (d : Decimal) (s : Int) : (d.withScale s).scale = s := by
  rw [withScale]
  split_ifs <;> rfl

/-- A decimal cut at its point is a whole number. -/
theorem toRat_withScale_zero (d : Decimal) :
    (d.withScale 0).toRat = (d.withScale 0).coeff := by
  rw [toRat, scale_withScale, neg_zero, zpow_zero, mul_one]

/-- The part that is cut off is below one. -/
theorem abs_sub_withScale_zero (d : Decimal) : |d.toRat - (d.withScale 0).toRat| < 1 := by
  rw [withScale]
  split
  · rename_i hzero
    simp [toRat, hzero]
  · split
    · rename_i hscale
      have hsame : (⟨d.coeffAt 0, 0⟩ : Decimal).toRat = d.toRat := by
        rw [toRat_eq_coeffAt hscale, toRat]
      rw [hsame, sub_self, abs_zero]
      exact one_pos
    · rename_i hscale
      have hk : (((d.scale - 0).toNat : Nat) : Int) = d.scale := by omega
      have hcut := abs_sub_tdiv_tenPow d.coeff (d.scale - 0).toNat
      generalize d.coeff.tdiv (tenPow (d.scale - 0).toNat) = q at hcut ⊢
      rw [hk] at hcut
      have hvalue : d.toRat - (⟨q, 0⟩ : Decimal).toRat =
          (d.coeff - q * 10 ^ d.scale) * 10 ^ (-d.scale) := by
        rw [toRat, toRat, sub_mul, mul_assoc, ← zpow_add₀ (by norm_num), add_neg_cancel, neg_zero]
      calc |d.toRat - (⟨q, 0⟩ : Decimal).toRat|
          = |(d.coeff : ℚ) - q * 10 ^ d.scale| * 10 ^ (-d.scale) := by
            rw [hvalue, abs_mul, abs_of_pos (ten_zpow_pos _)]
        _ < 10 ^ d.scale * 10 ^ (-d.scale) := mul_lt_mul_of_pos_right hcut (ten_zpow_pos _)
        _ = 1 := by rw [← zpow_add₀ (by norm_num), add_neg_cancel, zpow_zero]

end Decimal

end ListCalc
