import ListCalc.Decimal.Basic
import ListCalc.Proofs.Decimal.Digits
import Mathlib.Algebra.Order.Field.Rat
import Mathlib.Algebra.Order.Field.Power
import Mathlib.Order.Compare

/-!
# Proofs — the value of a decimal

`Decimal.toRat` is the rational number that a decimal stands for.  `order_eq_compare` is the main
fact: comparing by sign, then by the number of digits before the point, and only then by the
coefficients, is comparing by value.  So two decimals are the same exactly if their values are
equal (`same_iff`).
-/

namespace ListCalc

namespace Decimal

/-- The number that the decimal stands for. -/
def toRat (d : Decimal) : ℚ := d.coeff * 10 ^ (-d.scale)

theorem ten_zpow_pos (k : Int) : (0 : ℚ) < 10 ^ k := zpow_pos (by norm_num) k

/-- Written at a larger scale, the coefficient stands for the same number. -/
theorem toRat_eq_coeffAt {d : Decimal} {s : Int} (hs : d.scale ≤ s) :
    d.toRat = d.coeffAt s * 10 ^ (-s) := by
  have hexp : (((s - d.scale).toNat : Nat) : Int) = s - d.scale := Int.toNat_of_nonneg (by omega)
  have hpow : ((tenPow (s - d.scale).toNat : Nat) : ℚ) = 10 ^ (s - d.scale) := by
    rw [tenPow_eq, Nat.cast_pow, ← zpow_natCast, hexp, Nat.cast_ofNat]
  rw [toRat, coeffAt, Int.cast_mul, Int.cast_natCast, hpow, mul_assoc, ← zpow_add₀ (by norm_num)]
  congr 2
  omega

/-- The sign of a decimal is that of its coefficient. -/
theorem toRat_pos {d : Decimal} : 0 < d.toRat ↔ 0 < d.coeff := by
  rw [toRat, mul_pos_iff_of_pos_right (ten_zpow_pos _), Int.cast_pos]

theorem toRat_neg {d : Decimal} : d.toRat < 0 ↔ d.coeff < 0 := by
  rw [toRat, ← not_le, mul_nonneg_iff_of_pos_right (ten_zpow_pos _), not_le, Int.cast_lt_zero]

theorem toRat_eq_zero {d : Decimal} : d.toRat = 0 ↔ d.coeff = 0 := by
  rw [toRat, mul_eq_zero_iff_right (ten_zpow_pos _).ne', Int.cast_eq_zero]

theorem abs_toRat (d : Decimal) : |d.toRat| = d.coeff.natAbs * 10 ^ (-d.scale) := by
  rw [toRat, abs_mul, abs_of_pos (ten_zpow_pos _), Nat.cast_natAbs, Int.cast_abs]

/-! ### Magnitude -/

/-- A number is below the power of ten that its magnitude says. -/
theorem abs_toRat_lt (d : Decimal) : |d.toRat| < 10 ^ d.magnitude := by
  have hdigits := (digitCount_le_iff (digitCount_pos d.coeff.natAbs)).mp le_rfl
  have hcast : (d.coeff.natAbs : ℚ) < 10 ^ (digitCount d.coeff.natAbs : Int) := by
    rw [zpow_natCast]
    exact_mod_cast hdigits
  rw [abs_toRat, magnitude, sub_eq_add_neg, zpow_add₀ (by norm_num)]
  exact mul_lt_mul_of_pos_right hcast (ten_zpow_pos _)

theorem pow_le_of_digitCount {n : Nat} (hn : 0 < n) : 10 ^ (digitCount n - 1) ≤ n := by
  by_cases hone : digitCount n = 1
  · simpa [hone] using Nat.succ_le_of_lt hn
  · have hpos := digitCount_pos n
    have hlt : ¬ n < 10 ^ (digitCount n - 1) := by
      rw [← digitCount_le_iff (by omega)]
      omega
    exact Nat.le_of_not_lt hlt

/-- A number is not below a tenth of that power. -/
theorem le_abs_toRat {d : Decimal} (hd : d.coeff ≠ 0) :
    (10 : ℚ) ^ (d.magnitude - 1) ≤ |d.toRat| := by
  have hpos := digitCount_pos d.coeff.natAbs
  have hdigits := pow_le_of_digitCount (Int.natAbs_pos.mpr hd)
  have hexp : d.magnitude - 1 = ((digitCount d.coeff.natAbs - 1 : Nat) : Int) + -d.scale := by
    rw [magnitude]
    omega
  have hcast : (10 : ℚ) ^ ((digitCount d.coeff.natAbs - 1 : Nat) : Int) ≤ d.coeff.natAbs := by
    rw [zpow_natCast]
    exact_mod_cast hdigits
  rw [abs_toRat, hexp, zpow_add₀ (by norm_num)]
  exact mul_le_mul_of_nonneg_right hcast (ten_zpow_pos _).le

/-- The powers of ten around a positive decimal. -/
theorem zpow_magnitude {d : Decimal} (hd : 0 < d.toRat) :
    (10 : ℚ) ^ (d.magnitude - 1) ≤ d.toRat ∧ d.toRat < 10 ^ d.magnitude := by
  have hlow := le_abs_toRat (toRat_pos.mp hd).ne'
  have hhigh := abs_toRat_lt d
  rw [abs_of_pos hd] at hlow hhigh
  exact ⟨hlow, hhigh⟩

theorem lt_magnitude {d : Decimal} {s : Int} (h : (10 : ℚ) ^ s ≤ d.toRat) : s < d.magnitude :=
  (zpow_lt_zpow_iff_right₀ (by norm_num : (1 : ℚ) < 10)).mp
    (h.trans_lt (zpow_magnitude ((ten_zpow_pos s).trans_le h)).2)

theorem magnitude_le {d : Decimal} (hd : 0 < d.toRat) {s : Int} (h : d.toRat < 10 ^ s) :
    d.magnitude ≤ s := by
  have hlt := (zpow_lt_zpow_iff_right₀ (by norm_num : (1 : ℚ) < 10)).mp
    ((zpow_magnitude hd).1.trans_lt h)
  omega

/-- A decimal of smaller magnitude is the smaller one in absolute value. -/
theorem abs_lt_of_magnitude {a b : Decimal} (hb : b.coeff ≠ 0) (h : a.magnitude < b.magnitude) :
    |a.toRat| < |b.toRat| :=
  calc |a.toRat| < 10 ^ a.magnitude := abs_toRat_lt a
    _ ≤ 10 ^ (b.magnitude - 1) := zpow_le_zpow_right₀ (by norm_num) (by omega)
    _ ≤ |b.toRat| := le_abs_toRat hb

/-! ### Order -/

theorem compare_eq_of_imp {α β : Type} [LinearOrder α] [LinearOrder β] {a b : α} {c d : β}
    (hlt : a < b → c < d) (heq : a = b → c = d) (hgt : b < a → d < c) :
    compare a b = compare c d := by
  rcases lt_trichotomy a b with h | h | h
  · rw [compare_lt_iff_lt.mpr h, compare_lt_iff_lt.mpr (hlt h)]
  · rw [compare_eq_iff_eq.mpr h, compare_eq_iff_eq.mpr (heq h)]
  · rw [compare_gt_iff_gt.mpr h, compare_gt_iff_gt.mpr (hgt h)]

theorem sign_cases (n : Int) :
    n < 0 ∧ n.sign = -1 ∨ n = 0 ∧ n.sign = 0 ∨ 0 < n ∧ n.sign = 1 := by
  rcases lt_trichotomy n 0 with h | h | h
  · exact .inl ⟨h, Int.sign_eq_neg_one_of_neg h⟩
  · exact .inr (.inl ⟨h, by rw [h, Int.sign_zero]⟩)
  · exact .inr (.inr ⟨h, Int.sign_eq_one_of_pos h⟩)

/-- Numbers of different signs are ordered by them. -/
theorem lt_of_sign_lt {a b : Decimal} (h : a.coeff.sign < b.coeff.sign) : a.toRat < b.toRat := by
  have hsigns : a.coeff < 0 ∧ 0 ≤ b.coeff ∨ a.coeff ≤ 0 ∧ 0 < b.coeff := by
    rcases sign_cases a.coeff with ha | ha | ha <;> rcases sign_cases b.coeff with hb | hb | hb <;>
      omega
  rcases hsigns with ⟨ha, hb⟩ | ⟨ha, hb⟩
  · exact (toRat_neg.mpr ha).trans_le (not_lt.mp fun hneg => hb.not_gt (toRat_neg.mp hneg))
  · exact (not_lt.mp fun hpos => ha.not_gt (toRat_pos.mp hpos)).trans_lt (toRat_pos.mpr hb)

/-- Numbers of one sign and different magnitudes are ordered by these. -/
theorem lt_of_magnitude {a b : Decimal} (hsign : a.coeff.sign = b.coeff.sign) (ha : a.coeff ≠ 0)
    (h : a.coeff.sign * a.magnitude < a.coeff.sign * b.magnitude) : a.toRat < b.toRat := by
  rcases sign_cases a.coeff with ⟨hneg, hs⟩ | ⟨hzero, -⟩ | ⟨hpos, hs⟩
  · -- of two negative numbers the one of larger magnitude is the smaller one
    have hb : b.coeff < 0 := Int.sign_neg_iff.mp (by rw [← hsign, hs]; decide)
    have habs := abs_lt_of_magnitude (a := b) ha (by rw [hs] at h; omega)
    rw [abs_of_neg (toRat_neg.mpr hneg), abs_of_neg (toRat_neg.mpr hb)] at habs
    exact neg_lt_neg_iff.mp habs
  · exact absurd hzero ha
  · have hb : 0 < b.coeff := Int.sign_pos_iff.mp (by rw [← hsign, hs]; decide)
    have habs := abs_lt_of_magnitude (a := a) hb.ne' (by rw [hs] at h; omega)
    rwa [abs_of_pos (toRat_pos.mpr hpos), abs_of_pos (toRat_pos.mpr hb)] at habs

/-- **The order of decimals is the order of their values.** -/
theorem order_eq_compare (a b : Decimal) : a.order b = compare a.toRat b.toRat := by
  rw [order]
  by_cases hsign : a.coeff.sign = b.coeff.sign
  · rw [if_neg (not_not.mpr hsign)]
    by_cases hzero : a.coeff = 0
    · have hb : b.coeff = 0 := Int.sign_eq_zero_iff_zero.mp (by rw [← hsign, hzero, Int.sign_zero])
      rw [if_pos hzero, toRat_eq_zero.mpr hzero, toRat_eq_zero.mpr hb, compare_eq_iff_eq.mpr rfl]
    · have hb : b.coeff ≠ 0 := fun e => hzero (Int.sign_eq_zero_iff_zero.mp (by simp [hsign, e]))
      rw [if_neg hzero]
      by_cases hmag : a.magnitude = b.magnitude
      · -- at one scale the coefficients are ordered as the values are
        have hscale := ten_zpow_pos (-(max a.scale b.scale))
        rw [if_neg (not_not.mpr hmag), toRat_eq_coeffAt (le_max_left a.scale b.scale),
          toRat_eq_coeffAt (le_max_right a.scale b.scale)]
        refine compare_eq_of_imp ?_ ?_ ?_
        · intro h
          exact mul_lt_mul_of_pos_right (Int.cast_lt.mpr h) hscale
        · intro h
          rw [h]
        · intro h
          exact mul_lt_mul_of_pos_right (Int.cast_lt.mpr h) hscale
      · rw [if_pos hmag]
        refine compare_eq_of_imp (lt_of_magnitude hsign hzero) ?_ ?_
        · intro h
          exact absurd (mul_left_cancel₀ (mt Int.sign_eq_zero_iff_zero.mp hzero) h) hmag
        · rw [hsign]
          exact lt_of_magnitude hsign.symm hb
  · rw [if_pos hsign]
    exact compare_eq_of_imp lt_of_sign_lt (fun h => absurd h hsign) lt_of_sign_lt

/-- Decimals are the same if their values are equal. -/
theorem same_iff {a b : Decimal} : a.same b = true ↔ a.toRat = b.toRat := by
  rw [same, beq_iff_eq, order_eq_compare, compare_eq_iff_eq]

end Decimal

end ListCalc
