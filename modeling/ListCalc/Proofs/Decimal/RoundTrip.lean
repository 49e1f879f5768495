import ListCalc.Proofs.Decimal.Exponential
import ListCalc.Proofs.Decimal.Logarithm

/-!
# Proofs — `exp` undoes `ln`

Errors of `ln` and of `exp` are added up as distances of logarithms (`abs_log_exp_sub_le`), and
turned into a relative error at the end (`abs_sub_le_of_abs_log_sub_le`).  `exp_ln_roundTrip` has
90 digits left of a number whose logarithm is at most ten million.
-/

namespace ListCalc

namespace Decimal

/-- Numbers whose logarithms are near are near. -/
theorem abs_sub_le_of_abs_log_sub_le {a x δ : ℝ} (ha : 0 < a) (hx : 0 < x) (hδ : δ ≤ 1)
    (h : |Real.log a - Real.log x| ≤ δ) : |a - x| ≤ (δ + δ ^ 2) * x := by
  generalize hd : Real.log a - Real.log x = d at h
  have hratio : a = x * Real.exp d := by
    rw [← hd, Real.exp_sub, Real.exp_log ha, Real.exp_log hx, mul_div_cancel₀ _ hx.ne']
  have hquadratic := Real.abs_exp_sub_one_sub_id_le (h.trans hδ)
  have hsquare : d ^ 2 ≤ δ ^ 2 :=
    sq_le_sq' (by linarith [neg_abs_le d]) (by linarith [le_abs_self d])
  have hfactor : |Real.exp d - 1| ≤ δ + δ ^ 2 := by
    have hsplit : Real.exp d - 1 = (Real.exp d - 1 - d) + d := by ring
    rw [hsplit]
    linarith [abs_add_le (Real.exp d - 1 - d) d]
  calc |a - x| = |Real.exp d - 1| * x := by
        rw [hratio, ← mul_sub_one, abs_mul, abs_of_pos hx, mul_comm]
    _ ≤ (δ + δ ^ 2) * x := by gcongr

theorem exp_pos {y : Decimal} (hy : |y.toRat| ≤ 10 ^ 8) : 0 < y.exp.toRat := by
  obtain ⟨k, -, hnear⟩ := near_exp hy
  exact_mod_cast hnear.pos (Real.exp_pos _)

/-- The logarithm of what `exp` answers. -/
theorem abs_log_exp_sub_le {y : Decimal} (hy : |y.toRat| ≤ 10 ^ 8) :
    |Real.log y.exp.toRat - y.toRat| ≤ (|(y.toRat : ℝ)| + 7) * (501 / 100 * roundoff) := by
  obtain ⟨k, hk, hnear⟩ := near_exp hy
  have hlog := abs_log_sub_le_of_near hnear (Real.exp_pos _)
  have hunit : (5 * roundoff : ℝ) / (1 - 5 * roundoff) ≤ 501 / 100 * roundoff := by
    norm_num [roundoff]
  have hcast : (k : ℝ) ≤ |(y.toRat : ℝ)| + 7 := by exact_mod_cast hk
  have hpos := cast_roundoff_pos
  rw [Real.log_exp] at hlog
  calc |Real.log y.exp.toRat - y.toRat| ≤ k * (5 * roundoff / (1 - 5 * roundoff)) := hlog
    _ ≤ k * (501 / 100 * roundoff) := by gcongr
    _ ≤ (|(y.toRat : ℝ)| + 7) * (501 / 100 * roundoff) := by gcongr

/-- The magnitude of a number between two powers of ten. -/
theorem abs_magnitude_sub_one_le {x : Decimal} {s : Int} (hlow : (10 : ℚ) ^ (-s) ≤ x.toRat)
    (hhigh : x.toRat ≤ 10 ^ s) : |x.magnitude - 1| ≤ s := by
  have hx : 0 < x.toRat := (ten_zpow_pos (-s)).trans_le hlow
  have hlower := lt_magnitude hlow
  have hupper := magnitude_le hx
    (hhigh.trans_lt (zpow_lt_zpow_right₀ (by norm_num) (by omega : s < s + 1)))
  rw [abs_le]
  constructor <;> omega

/-- The logarithm of a number between two powers of ten. -/
theorem abs_log_le {x : Decimal} {s : Int} (hs : 0 ≤ s) (hlow : (10 : ℚ) ^ (-s) ≤ x.toRat)
    (hhigh : x.toRat ≤ 10 ^ s) : |Real.log x.toRat| ≤ s * (12 / 5) := by
  have hx : 0 < x.toRat := (ten_zpow_pos (-s)).trans_le hlow
  have hlower := (Rat.cast_le (K := ℝ)).mpr hlow
  have hupper := (Rat.cast_le (K := ℝ)).mpr hhigh
  push_cast at hlower hupper
  have hdown := Real.log_le_log (by positivity) hlower
  have hup := Real.log_le_log (by exact_mod_cast hx) hupper
  have hten : (s : ℝ) * Real.log 10 ≤ s * (12 / 5) :=
    mul_le_mul_of_nonneg_left log_ten_bounds.2 (by exact_mod_cast hs)
  rw [Real.log_zpow] at hdown hup
  push_cast at hdown
  rw [abs_le]
  constructor <;> linarith

/-- **`exp` undoes `ln`** to 90 digits. -/
theorem exp_ln_roundTrip {x : Decimal} (hlow : (10 : ℚ) ^ (-4342944 : Int) ≤ x.toRat)
    (hhigh : x.toRat ≤ (10 : ℚ) ^ (4342944 : Int)) :
    |x.ln.exp.toRat - x.toRat| ≤ 1 / 10 ^ 90 * x.toRat := by
  have hx : 0 < x.toRat := (ten_zpow_pos _).trans_le hlow
  have hX : (0 : ℝ) < x.toRat := by exact_mod_cast hx
  have hlog : |Real.log x.toRat| ≤ 11 * 10 ^ 6 := by
    refine (abs_log_le (s := 4342944) (by norm_num) hlow hhigh).trans ?_
    norm_num
  have htens : |((x.magnitude - 1 : Int) : ℝ)| ≤ 4342944 := by
    exact_mod_cast abs_magnitude_sub_one_le hlow hhigh
  have hln := abs_ln_sub_log_le hx
  have hpos := cast_roundoff_pos
  -- the logarithm keeps its error below 10⁻⁹¹, and `exp` stays below ten million roundings
  have hargument : |(x.ln.toRat : ℝ) - Real.log x.toRat| ≤ 6 * 10 ^ 7 * roundoff := by
    refine hln.trans ?_
    gcongr
    linarith
  have hsize : |(x.ln.toRat : ℝ)| ≤ 2 * 10 ^ 7 := by
    have hunit : 6 * 10 ^ 7 * (roundoff : ℝ) ≤ 1 := by norm_num [roundoff]
    have htri := abs_sub_abs_le_abs_sub (x.ln.toRat : ℝ) (Real.log x.toRat)
    linarith
  have hsmall : |x.ln.toRat| ≤ 10 ^ 8 := by
    exact_mod_cast hsize.trans (by norm_num : (2 * 10 ^ 7 : ℝ) ≤ 10 ^ 8)
  have hexp := abs_log_exp_sub_le hsmall
  have hresult : |Real.log x.ln.exp.toRat - Real.log x.toRat| ≤ 2 / 10 ^ 91 := by
    have htri := abs_sub_le (Real.log x.ln.exp.toRat) x.ln.toRat (Real.log x.toRat)
    have hroundings : (|(x.ln.toRat : ℝ)| + 7) * (501 / 100 * roundoff) ≤
        (2 * 10 ^ 7 + 7) * (501 / 100 * roundoff) := by gcongr
    have hunit : (roundoff : ℝ) = 1 / 10 ^ 99 := by norm_num [roundoff]
    rw [hunit] at hexp hargument hroundings
    linarith
  have hnear := abs_sub_le_of_abs_log_sub_le (by exact_mod_cast exp_pos hsmall) hX
    (by norm_num) hresult
  have hcast : |(x.ln.exp.toRat : ℝ) - x.toRat| ≤ 1 / 10 ^ 90 * x.toRat := by
    refine hnear.trans ?_
    gcongr
    norm_num
  have hback : ((|x.ln.exp.toRat - x.toRat| : ℚ) : ℝ) ≤ ((1 / 10 ^ 90 * x.toRat : ℚ) : ℝ) := by
    push_cast
    exact hcast
  exact Rat.cast_le.mp hback

/-- The round trip of 123.456. -/
theorem exp_ln_roundTrip_thousandths :
    ((10 : ℚ) ^ (-4342944 : Int) ≤ (⟨123456, 3⟩ : Decimal).toRat ∧
      (⟨123456, 3⟩ : Decimal).toRat ≤ (10 : ℚ) ^ (4342944 : Int)) ∧
    |(⟨123456, 3⟩ : Decimal).ln.exp.toRat - (⟨123456, 3⟩ : Decimal).toRat| ≤
      1 / 10 ^ 90 * (⟨123456, 3⟩ : Decimal).toRat := by
  have hlow : (10 : ℚ) ^ (-4342944 : Int) ≤ (⟨123456, 3⟩ : Decimal).toRat := by
    calc (10 : ℚ) ^ (-4342944 : Int) ≤ 10 ^ (0 : Int) :=
          zpow_le_zpow_right₀ (by norm_num) (by norm_num)
      _ ≤ (⟨123456, 3⟩ : Decimal).toRat := by norm_num [toRat]
  have hhigh : (⟨123456, 3⟩ : Decimal).toRat ≤ (10 : ℚ) ^ (4342944 : Int) := by
    calc (⟨123456, 3⟩ : Decimal).toRat ≤ 10 ^ (3 : Int) := by norm_num [toRat]
      _ ≤ 10 ^ (4342944 : Int) := zpow_le_zpow_right₀ (by norm_num) (by norm_num)
  exact ⟨⟨hlow, hhigh⟩, exp_ln_roundTrip hlow hhigh⟩

end Decimal

end ListCalc
