import ListCalc.Proofs.Decimal.Mantissa
import ListCalc.Proofs.Decimal.Truncation
import Mathlib.Analysis.SpecialFunctions.Artanh
import Mathlib.Analysis.SpecialFunctions.Log.Deriv
import Mathlib.Analysis.Complex.ExponentialBounds

/-!
# Proofs — how far `ln` is from the logarithm

The errors of `ln`, over the real numbers and in units of `roundoff`: of the series
(`abs_atanh_sub_le`), of its argument (`abs_artanh_sub_le`), of the logarithms of two and of ten
(`abs_ln2_sub_le`, `abs_ln10_sub_le`), of the halvings (`Halved.abs_log_sub_le`) and of the sum.

`abs_ln_sub_log_le` is the bound for every positive number.  It is absolute; against the logarithm
itself it is small for a number far from one (`abs_ln_sub_log_le_of_far`) and just above one
(`abs_ln_sub_log_le_of_near_one`), but not just below.
-/

namespace ListCalc

namespace Decimal

/-! ### The area tangent -/

theorem artanh_eq_log_sub_log {Z : ℝ} (hZ : |Z| < 1) :
    Real.artanh Z = (Real.log (1 + Z) - Real.log (1 - Z)) / 2 := by
  obtain ⟨hlow, hhigh⟩ := abs_lt.mp hZ
  rw [Real.artanh_eq_half_log ⟨hlow.le, hhigh.le⟩, Real.log_div (by linarith) (by linarith)]
  ring

theorem hasSum_artanh {Z : ℝ} (hZ : |Z| < 1) :
    HasSum (fun j : ℕ => Z ^ (2 * j + 1) / (2 * j + 1)) (Real.artanh Z) := by
  have hsum := (Real.hasSum_log_sub_log_of_abs_lt_one hZ).div_const 2
  have hterm : ∀ j : ℕ,
      2 * (1 / (2 * j + 1)) * Z ^ (2 * j + 1) / 2 = Z ^ (2 * j + 1) / (2 * j + 1) :=
    fun j => by ring
  simpa only [hterm, ← artanh_eq_log_sub_log hZ] using hsum

/-- The area tangent of a number close to one. -/
theorem artanh_quotient {m : ℝ} (hm : 0 < m) :
    Real.artanh ((m - 1) / (m + 1)) = Real.log m / 2 := by
  have hpos : 0 < m + 1 := by linarith
  have hmem : (m - 1) / (m + 1) ∈ Set.Icc (-1) 1 := by
    rw [Set.mem_Icc, le_div_iff₀ hpos, div_le_iff₀ hpos]
    constructor <;> linarith
  have hquotient : (1 + (m - 1) / (m + 1)) / (1 - (m - 1) / (m + 1)) = m := by
    field_simp
    ring
  rw [Real.artanh_eq_half_log hmem, hquotient]
  ring

/-- A logarithm is nowhere steeper than at the smaller end. -/
theorem abs_log_sub_log_le {a b c : ℝ} (hc : 0 < c) (ha : c ≤ a) (hb : c ≤ b) :
    |Real.log a - Real.log b| ≤ |a - b| / c := by
  have hrise : ∀ {a b : ℝ}, c ≤ a → c ≤ b → Real.log a - Real.log b ≤ |a - b| / c := by
    intro a b ha hb
    have hb0 : 0 < b := hc.trans_le hb
    calc Real.log a - Real.log b = Real.log (a / b) := by
          rw [Real.log_div (hc.trans_le ha).ne' hb0.ne']
      _ ≤ a / b - 1 := Real.log_le_sub_one_of_pos (div_pos (hc.trans_le ha) hb0)
      _ = (a - b) / b := by rw [sub_div, div_self hb0.ne']
      _ ≤ |a - b| / b := div_le_div_of_nonneg_right (le_abs_self _) hb0.le
      _ ≤ |a - b| / c := div_le_div_of_nonneg_left (abs_nonneg _) hc hb
  rw [abs_le]
  constructor
  · have := hrise hb ha
    rw [abs_sub_comm] at this
    linarith
  · exact hrise ha hb

theorem abs_artanh_sub_le {y z : ℝ} (hy : |y| ≤ 7 / 20) (hz : |z| ≤ 7 / 20) :
    |Real.artanh y - Real.artanh z| ≤ 8 / 5 * |y - z| := by
  obtain ⟨hy1, hy2⟩ := abs_le.mp hy
  obtain ⟨hz1, hz2⟩ := abs_le.mp hz
  have hplus : |Real.log (1 + y) - Real.log (1 + z)| ≤ |y - z| / (13 / 20) := by
    have := abs_log_sub_log_le (a := 1 + y) (b := 1 + z) (c := 13 / 20) (by norm_num) (by linarith)
      (by linarith)
    rwa [add_sub_add_left_eq_sub] at this
  have hminus : |Real.log (1 - z) - Real.log (1 - y)| ≤ |y - z| / (13 / 20) := by
    have := abs_log_sub_log_le (a := 1 - z) (b := 1 - y) (c := 13 / 20) (by norm_num) (by linarith)
      (by linarith)
    rwa [sub_sub_sub_cancel_left] at this
  rw [artanh_eq_log_sub_log (by linarith), artanh_eq_log_sub_log (by linarith)]
  rw [abs_le] at hplus hminus ⊢
  have hnonneg := abs_nonneg (y - z)
  constructor <;> linarith

/-! ### The sum -/

/-- The odd powers in the series shrink by an eighth. -/
theorem pow_odd_succ_le {Z : ℝ} (hZ : |Z| ≤ 7 / 20) (j : ℕ) :
    |Z| ^ (2 * (j + 1) + 1) ≤ 1 / 8 * |Z| ^ (2 * j + 1) := by
  have hsquare : |Z| ^ 2 ≤ 1 / 8 := by nlinarith [abs_nonneg Z]
  calc |Z| ^ (2 * (j + 1) + 1) = |Z| ^ 2 * |Z| ^ (2 * j + 1) := by ring
    _ ≤ 1 / 8 * |Z| ^ (2 * j + 1) := by gcongr

theorem pow_odd_le {Z : ℝ} (hZ : |Z| ≤ 7 / 20) (j : ℕ) :
    |Z| ^ (2 * j + 1) ≤ |Z| * (1 / 8) ^ j := by
  induction j with
  | zero => simp
  | succ j ih =>
    calc |Z| ^ (2 * (j + 1) + 1) ≤ 1 / 8 * |Z| ^ (2 * j + 1) := pow_odd_succ_le hZ j
      _ ≤ 1 / 8 * (|Z| * (1 / 8) ^ j) := by gcongr
      _ = |Z| * (1 / 8) ^ (j + 1) := by ring

/-- All of the powers after the first one together. -/
theorem sum_pow_odd_le {Z : ℝ} (hZ : |Z| ≤ 7 / 20) (n : ℕ) :
    ∑ j ∈ Finset.range n, |Z| ^ (2 * (j + 1) + 1) ≤ |Z| / 7 := by
  have hgeometric : HasSum (fun j : ℕ => (1 / 8 : ℝ) ^ j) (8 / 7) := by
    have := hasSum_geometric_of_lt_one (r := (1 / 8 : ℝ)) (by norm_num) (by norm_num)
    norm_num at this ⊢
    exact this
  calc ∑ j ∈ Finset.range n, |Z| ^ (2 * (j + 1) + 1)
      ≤ ∑ j ∈ Finset.range n, |Z| / 8 * (1 / 8) ^ j :=
        Finset.sum_le_sum fun j _ => (pow_odd_le hZ (j + 1)).trans_eq (by ring)
    _ = |Z| / 8 * ∑ j ∈ Finset.range n, (1 / 8 : ℝ) ^ j := (Finset.mul_sum _ _ _).symm
    _ ≤ |Z| / 8 * (8 / 7) := by
        gcongr
        exact sum_le_hasSum _ (fun j _ => by positivity) hgeometric
    _ = |Z| / 7 := by ring

theorem abs_pow_odd_div (Z : ℝ) (j : ℕ) :
    |Z ^ (2 * j + 1) / (2 * j + 1)| = |Z| ^ (2 * j + 1) / (2 * j + 1) := by
  rw [abs_div, abs_pow, abs_of_pos (by positivity : (0 : ℝ) < 2 * j + 1)]

theorem cast_argument_le {Z : ℚ} (hZ : |Z| ≤ 7 / 20) : |(Z : ℝ)| ≤ 7 / 20 :=
  (abs_cast_le hZ).trans_eq (by norm_num)

theorem roundedSeries_atanh {z : Decimal} (hz : |z.toRat| ≤ 7 / 20) :
    RoundedSeries (atanhTerm z) (fun j => (z.toRat : ℝ) ^ (2 * j + 1) / (2 * j + 1))
      (fun j => 2 * j + 1) (Real.artanh z.toRat) (1 / 8) (|(z.toRat : ℝ)| / 7) 120 where
  hasSum := hasSum_artanh (by linarith [cast_argument_le hz])
  first := by simp [atanhTerm]
  near j := by
    have hnear := (near_atanhTerm z j).cast
    push_cast at hnear
    exact hnear
  count_le i hi := by omega
  weight_le n := by
    -- the divisor of a term is the number of its roundings
    have hterm : ∀ j : ℕ, ((2 * (j + 1) + 1 : ℕ) : ℝ) *
        |(z.toRat : ℝ) ^ (2 * (j + 1) + 1) / (2 * (j + 1 : ℕ) + 1)| =
          |(z.toRat : ℝ)| ^ (2 * (j + 1) + 1) := by
      intro j
      rw [abs_pow_odd_div]
      push_cast
      exact mul_div_cancel₀ _ (by positivity)
    simp only [hterm]
    exact sum_pow_odd_le (cast_argument_le hz) n
  ratio_nonneg := by norm_num
  ratio_lt_one := by norm_num
  ratio i := by
    rw [abs_pow_odd_div, abs_pow_odd_div, ← mul_div_assoc]
    refine div_le_div₀ (by positivity) (pow_odd_succ_le (cast_argument_le hz) (i + 1))
      (by positivity) ?_
    push_cast
    linarith
  pos := by decide
  le_limit := by decide
  small := negligible_atanhTerm hz

theorem abs_artanh_le {Z : ℝ} (hZ : |Z| ≤ 7 / 20) : |Real.artanh Z| ≤ 8 / 5 * |Z| := by
  have hzero := abs_artanh_sub_le hZ (z := 0) (by norm_num)
  simpa using hzero

/-- How far `atanh` is from the area tangent. -/
theorem abs_atanh_sub_le {z : Decimal} (hz : |z.toRat| ≤ 7 / 20) :
    |(z.atanh.toRat : ℝ) - Real.artanh z.toRat| ≤
      9 / 5 * (roundoff * |(z.toRat : ℝ)|) + 12 / 10 ^ 106 := by
  have hround := abs_round_sub_le (roundedSeries_atanh hz).abs_sub_le
  have hsize := mul_le_mul_of_nonneg_left (abs_artanh_le (cast_argument_le hz))
    cast_roundoff_pos.le
  have hnonneg := roundoff_mul_abs_nonneg z.toRat
  rw [atanh_eq_round]
  refine hround.trans ?_
  norm_num
  linarith

/-- Twice the sum as a logarithm, for an argument that is itself rounded. -/
theorem abs_two_mul_atanh_sub_log_le {z : Decimal} {Z : ℚ} {m : ℝ} (hz : |z.toRat| ≤ 7 / 20)
    (hZ : |Z| ≤ 7 / 20) (hnear : Near (roundoff / 2) 1 z.toRat Z) (hm : 0 < m)
    (hquotient : (Z : ℝ) = (m - 1) / (m + 1)) :
    |2 * (z.atanh.toRat : ℝ) - Real.log m| ≤
      53 / 10 * (roundoff * |(Z : ℝ)|) + 24 / 10 ^ 106 := by
  have hsum := abs_atanh_sub_le hz
  have hargument := hnear.cast.abs_sub_le_of_one
  have hmoved := abs_artanh_sub_le (cast_argument_le hz) (cast_argument_le hZ)
  have hsize := mul_le_mul_of_nonneg_left (abs_cast_le (abs_le_of_near hnear le_rfl))
    cast_roundoff_pos.le
  have hnonneg := roundoff_mul_abs_nonneg Z
  have hlog : Real.log m = 2 * Real.artanh Z := by
    rw [hquotient, artanh_quotient hm]
    ring
  have hsplit : |2 * (z.atanh.toRat : ℝ) - Real.log m| =
      2 * |(z.atanh.toRat : ℝ) - Real.artanh Z| := by
    rw [hlog, ← mul_sub, abs_mul, abs_two]
  have htri := abs_sub_le (z.atanh.toRat : ℝ) (Real.artanh z.toRat) (Real.artanh Z)
  push_cast at hargument hsize
  rw [hsplit]
  norm_num at hsize hsum ⊢
  linarith

/-! ### The logarithms of two and of ten -/

theorem abs_two_mul_atanh_inverse_sub_le {n : Int} {m : ℝ} (hn : 3 ≤ n) (hm : 0 < m)
    (hquotient : (1 / n : ℝ) = (m - 1) / (m + 1)) :
    |2 * (((ofInt 1).div (ofInt n)).atanh.toRat : ℝ) - Real.log m| ≤
      (53 / 10 / n + 1 / 1000) * roundoff := by
  have hn0 : (3 : ℝ) ≤ n := by exact_mod_cast hn
  have hsmall : |(1 : ℚ) / n| ≤ 7 / 20 := by
    have hcast : (3 : ℚ) ≤ n := by exact_mod_cast hn
    rw [abs_of_nonneg (by positivity), div_le_iff₀ (by linarith)]
    linarith
  have hsum := abs_two_mul_atanh_sub_log_le (abs_inverse_le hn) hsmall (near_inverse hn) hm
    (by push_cast; exact hquotient)
  have habs : |(((1 : ℚ) / n : ℚ) : ℝ)| = 1 / n := by
    push_cast
    exact abs_of_nonneg (by positivity)
  have hcut : (24 : ℝ) / 10 ^ 106 ≤ 1 / 1000 * roundoff := by norm_num [roundoff]
  rw [habs] at hsum
  calc |2 * (((ofInt 1).div (ofInt n)).atanh.toRat : ℝ) - Real.log m|
      ≤ 53 / 10 * (roundoff * (1 / n)) + 24 / 10 ^ 106 := hsum
    _ ≤ 53 / 10 * (roundoff * (1 / n)) + 1 / 1000 * roundoff := by linarith
    _ = (53 / 10 / n + 1 / 1000) * roundoff := by ring

theorem abs_ln2_sub_le : |(ln2.toRat : ℝ) - Real.log 2| ≤ 9 / 5 * roundoff := by
  have hthird := abs_two_mul_atanh_inverse_sub_le (n := 3) (m := 2) le_rfl (by norm_num)
    (by norm_num)
  have hvalue : (ln2.toRat : ℝ) = 2 * ((ofInt 1).div (ofInt 3)).atanh.toRat := by
    rw [ln2, toRat_mul, toRat_ofInt]
    push_cast
    rfl
  have hpos := cast_roundoff_pos
  rw [hvalue]
  push_cast at hthird
  linarith

theorem log_ten_eq : Real.log 10 = 3 * Real.log 2 + Real.log (5 / 4) := by
  have hten : (10 : ℝ) = 2 ^ 3 * (5 / 4) := by norm_num
  rw [hten, Real.log_mul (by norm_num) (by norm_num), Real.log_pow]
  norm_num

theorem log_ten_bounds : 2 ≤ Real.log 10 ∧ Real.log 10 ≤ 12 / 5 := by
  have htwo := Real.log_two_gt_d9
  have htwo' := Real.log_two_lt_d9
  have hlow := Real.one_sub_inv_le_log_of_pos (by norm_num : (0 : ℝ) < 5 / 4)
  have hhigh := Real.log_le_sub_one_of_pos (by norm_num : (0 : ℝ) < 5 / 4)
  rw [log_ten_eq]
  norm_num at hlow hhigh htwo htwo' ⊢
  constructor <;> linarith

theorem abs_ln10_sub_le : |(ln10.toRat : ℝ) - Real.log 10| ≤ 17 / 2 * roundoff := by
  have hninth := abs_two_mul_atanh_inverse_sub_le (n := 9) (m := 5 / 4) (by norm_num)
    (by norm_num) (by norm_num)
  have htwo := abs_ln2_sub_le
  have hsum : |((((ofInt 3).mulExact ln2).add
      ((ofInt 2).mul ((ofInt 1).div (ofInt 9)).atanh)).toRat : ℝ) - Real.log 10| ≤
        6 * roundoff := by
    rw [toRat_add, toRat_mulExact, toRat_mul, toRat_ofInt, toRat_ofInt, log_ten_eq]
    push_cast
    rw [abs_le] at htwo hninth ⊢
    have hpos := cast_roundoff_pos
    push_cast at hninth
    constructor <;> linarith
  have hround := abs_round_sub_le hsum
  have hsize : roundoff * |Real.log 10| ≤ roundoff * (12 / 5) := by
    rw [abs_of_nonneg (by linarith [log_ten_bounds.1])]
    exact mul_le_mul_of_nonneg_left log_ten_bounds.2 cast_roundoff_pos.le
  have hpos := cast_roundoff_pos
  rw [ln10]
  linarith

/-! ### The logarithm -/

/-- Roundings move a logarithm by as much as their errors add up to. -/
theorem abs_log_sub_le_of_near {u a x : ℝ} {n : ℕ} (h : Near u n a x) (hx : 0 < x) :
    |Real.log a - Real.log x| ≤ n * (u / (1 - u)) := by
  obtain ⟨hu, hu', t, hlow, hhigh, rfl⟩ := h
  have hpos : 0 < 1 - u := by linarith
  have ht : 0 < t := (pow_pos hpos n).trans_le hlow
  have hup : Real.log t ≤ n * u := by
    calc Real.log t ≤ Real.log ((1 + u) ^ n) := Real.log_le_log ht hhigh
      _ = n * Real.log (1 + u) := Real.log_pow _ _
      _ ≤ n * u := by
        gcongr
        linarith [Real.log_le_sub_one_of_pos (by linarith : 0 < 1 + u)]
  have hdown : -(n * (u / (1 - u))) ≤ Real.log t := by
    calc -(n * (u / (1 - u))) = n * (1 - (1 - u)⁻¹) := by
          field_simp
          ring
      _ ≤ n * Real.log (1 - u) := by
        gcongr
        exact Real.one_sub_inv_le_log_of_pos hpos
      _ = Real.log ((1 - u) ^ n) := (Real.log_pow _ _).symm
      _ ≤ Real.log t := Real.log_le_log (pow_pos hpos n) hlow
  have hratio : u ≤ u / (1 - u) := le_div_self hu hpos (by linarith)
  rw [Real.log_mul hx.ne' ht.ne', add_sub_cancel_left, abs_le]
  exact ⟨hdown, hup.trans (by gcongr)⟩

/-- The parts that a logarithm is added up from. -/
theorem ln_eq_parts {x m : Decimal} {h : Nat} (heq : halve halvingLimit x.mantissa 0 = (m, h)) :
    x.ln = ((((ofInt 2).mul m.argument.atanh).add ((ofInt h).mulExact ln2)).add
      ((ofInt (x.magnitude - 1)).mul ln10)).round := by
  have htens : (digitCount x.coeff.natAbs : Int) - 1 - x.scale = x.magnitude - 1 := by
    rw [magnitude]
    ring
  rw [mantissa] at heq
  simp only [ln, heq, htens]
  rfl

theorem log_eq_mantissa {x : Decimal} (hx : 0 < x.toRat) :
    Real.log x.toRat = Real.log x.mantissa.toRat + (x.magnitude - 1 : Int) * Real.log 10 := by
  have hpos : (0 : ℝ) < x.mantissa.toRat := by exact_mod_cast mantissa_pos hx
  have hcast : (x.toRat : ℝ) = x.mantissa.toRat * 10 ^ (x.magnitude - 1) := by
    rw [toRat_eq_mantissa]
    push_cast
    rfl
  rw [hcast, Real.log_mul hpos.ne' (by positivity), Real.log_zpow]

/-- Halvings take logarithms of two away from the logarithm of a mantissa. -/
theorem Halved.abs_log_sub_le {m m' : Decimal} {h : Nat} (hhalved : Halved m m' h)
    (hm : 0 < m.toRat) :
    |Real.log m'.toRat - (Real.log m.toRat - h * Real.log 2)| ≤ h * (11 / 20 * roundoff) := by
  have hpos : (0 : ℝ) < m.toRat := by exact_mod_cast hm
  have hnear := hhalved.near.cast
  push_cast at hnear
  have hlog := abs_log_sub_le_of_near hnear (by positivity)
  rw [Real.log_div hpos.ne' (by positivity), Real.log_pow] at hlog
  have hunit : (roundoff : ℝ) / 2 / (1 - roundoff / 2) ≤ 11 / 20 * roundoff := by
    norm_num [roundoff]
  exact hlog.trans (by gcongr)

/-- The logarithm of a mantissa that is halved enough. -/
theorem abs_two_mul_atanh_argument_sub_le {m : Decimal} (hlow : 13 / 20 < m.toRat)
    (hhigh : m.toRat ≤ 13 / 10) :
    |2 * (m.argument.atanh.toRat : ℝ) - Real.log m.toRat| ≤
      53 / 10 * (roundoff * |((m.toRat : ℝ) - 1) / (m.toRat + 1)|) + 24 / 10 ^ 106 := by
  have hm : 0 < m.toRat := by linarith
  have hargument : |m.argument.toRat| ≤ 7 / 20 := by linarith [abs_argument_lt hlow hhigh]
  have hquotient : |(m.toRat - 1) / (m.toRat + 1)| ≤ 7 / 20 := by
    linarith [abs_quotient_le hlow hhigh]
  have hsum := abs_two_mul_atanh_sub_log_le (m := m.toRat) hargument hquotient (near_argument hm)
    (by exact_mod_cast hm) (by push_cast; rfl)
  push_cast at hsum
  exact hsum

/-- **How far `ln` is from the logarithm.** -/
theorem abs_ln_sub_log_le {x : Decimal} (hx : 0 < x.toRat) :
    |(x.ln.toRat : ℝ) - Real.log x.toRat| ≤
      (9 + 9 * |((x.magnitude - 1 : Int) : ℝ)| + |Real.log x.toRat|) * roundoff := by
  obtain ⟨m, h, heq, hh, hhalved, hlow⟩ := halve_spec hx
  rw [ln_eq_parts heq]
  generalize htens : x.magnitude - 1 = t
  have hpos := cast_roundoff_pos
  have hmantissa :
      |2 * (m.argument.atanh.toRat : ℝ) - Real.log m.toRat| ≤ 113 / 100 * roundoff := by
    have hquotient := abs_cast_le (abs_quotient_le hlow hhalved.le_bound)
    push_cast at hquotient
    have hscaled := mul_le_mul_of_nonneg_left hquotient hpos.le
    have hcut : (24 : ℝ) / 10 ^ 106 ≤ 1 / 1000 * roundoff := by norm_num [roundoff]
    linarith [abs_two_mul_atanh_argument_sub_le hlow hhalved.le_bound]
  have hhalvings := hhalved.abs_log_sub_le (mantissa_pos hx)
  have htwos : |(h : ℝ) * (ln2.toRat - Real.log 2)| ≤ h * (9 / 5 * roundoff) := by
    rw [abs_mul, Nat.abs_cast]
    gcongr
    exact abs_ln2_sub_le
  have htenths : |(t : ℝ) * (ln10.toRat - Real.log 10)| ≤ |(t : ℝ)| * (17 / 2 * roundoff) := by
    rw [abs_mul]
    gcongr
    exact abs_ln10_sub_le
  have hcount : (h : ℝ) * (47 / 20 * roundoff) ≤ 3 * (47 / 20 * roundoff) := by
    gcongr
    exact_mod_cast hh
  have hsum : |(((((ofInt 2).mul m.argument.atanh).add ((ofInt h).mulExact ln2)).add
      ((ofInt t).mul ln10)).toRat : ℝ) - Real.log x.toRat| ≤
        (41 / 5 + 17 / 2 * |(t : ℝ)|) * roundoff := by
    simp only [toRat_add, toRat_mul, toRat_mulExact, toRat_ofInt]
    rw [log_eq_mantissa hx, htens]
    push_cast
    rw [abs_le] at hmantissa hhalvings htwos htenths ⊢
    constructor <;> linarith
  have hround := abs_round_sub_le hsum
  have hnonneg := mul_nonneg (abs_nonneg (t : ℝ)) hpos.le
  linarith

/-! ### The error against the logarithm -/

/-- The argument of the series is small against the logarithm. -/
theorem abs_quotient_le_log {x : ℝ} (hlow : 1 ≤ x) (hhigh : x ≤ 13 / 10) :
    |(x - 1) / (x + 1)| ≤ 3 / 5 * Real.log x := by
  have hx : 0 < x := by linarith
  have hdivided : (x - 1) / (x + 1) ≤ 3 / 5 * (1 - x⁻¹) := by
    have hfraction : 1 - x⁻¹ = (x - 1) / x := by field_simp
    rw [hfraction, mul_div_assoc', div_le_div_iff₀ (by linarith) hx]
    nlinarith
  rw [abs_of_nonneg (div_nonneg (by linarith) (by linarith))]
  linarith [Real.one_sub_inv_le_log_of_pos hx]

/-- A number just above one is its own mantissa. -/
theorem mantissa_of_near_one {x : Decimal} (hlow : 1 ≤ x.toRat) (hhigh : x.toRat ≤ 13 / 10) :
    x.magnitude = 1 ∧ x.mantissa.toRat = x.toRat := by
  have hmagnitude : x.magnitude = 1 := by
    have hlower := lt_magnitude (d := x) (s := 0) (by simpa using hlow)
    have hupper := magnitude_le (d := x) (s := 1) (by linarith) (by norm_num; linarith)
    omega
  refine ⟨hmagnitude, ?_⟩
  rw [toRat_eq_mantissa x, hmagnitude, sub_self, zpow_zero, mul_one]

/-- The logarithm of a number just above one is one series. -/
theorem ln_of_near_one {x : Decimal} (hlow : 1 ≤ x.toRat) (hhigh : x.toRat ≤ 13 / 10) :
    ∃ d : Decimal, x.ln = d.round ∧ d.toRat = 2 * x.mantissa.argument.atanh.toRat := by
  obtain ⟨hmagnitude, hmantissa⟩ := mantissa_of_near_one hlow hhigh
  refine ⟨_, ln_eq_parts (halve_of_le (hmantissa.trans_le hhigh)), ?_⟩
  simp [hmagnitude]

/-- Just above one the error is small against the logarithm, but for the series being cut off. -/
theorem abs_ln_sub_log_le_of_near_one {x : Decimal} (hlow : 1 ≤ x.toRat)
    (hhigh : x.toRat ≤ 13 / 10) :
    |(x.ln.toRat : ℝ) - Real.log x.toRat| ≤
      5 * (roundoff * Real.log x.toRat) + 3 / 10 ^ 105 := by
  obtain ⟨-, hmantissa⟩ := mantissa_of_near_one hlow hhigh
  obtain ⟨d, hln, hd⟩ := ln_of_near_one hlow hhigh
  have hone : (1 : ℝ) ≤ x.toRat := by exact_mod_cast hlow
  have hbound : (x.toRat : ℝ) ≤ 13 / 10 := by
    have := (Rat.cast_le (K := ℝ)).mpr hhigh
    norm_num at this ⊢
    exact this
  have hlog : 0 ≤ Real.log x.toRat := Real.log_nonneg hone
  have hnonneg := mul_nonneg cast_roundoff_pos.le hlog
  have hsum : |(d.toRat : ℝ) - Real.log x.toRat| ≤
      16 / 5 * (roundoff * Real.log x.toRat) + 24 / 10 ^ 106 := by
    have hseries :=
      abs_two_mul_atanh_argument_sub_le (m := x.mantissa) (by rw [hmantissa]; linarith)
      (by rw [hmantissa]; exact hhigh)
    have hscaled := mul_le_mul_of_nonneg_left (abs_quotient_le_log hone hbound)
      cast_roundoff_pos.le
    rw [hmantissa] at hseries
    rw [hd]
    push_cast
    linarith
  have hround := abs_round_sub_le hsum
  rw [abs_of_nonneg hlog] at hround
  rw [hln]
  norm_num at hround ⊢
  linarith

/-- The logarithms of the powers of ten around a number. -/
theorem log_magnitude {x : Decimal} (hx : 0 < x.toRat) :
    ((x.magnitude - 1 : Int) : ℝ) * Real.log 10 ≤ Real.log x.toRat ∧
      Real.log x.toRat ≤ (x.magnitude : ℝ) * Real.log 10 := by
  obtain ⟨hlow, hhigh⟩ := zpow_magnitude hx
  have hlower := (Rat.cast_le (K := ℝ)).mpr hlow
  have hupper := (Rat.cast_le (K := ℝ)).mpr hhigh.le
  push_cast at hlower hupper
  rw [← Real.log_zpow, ← Real.log_zpow]
  exact ⟨Real.log_le_log (by positivity) hlower, Real.log_le_log (by exact_mod_cast hx) hupper⟩

theorem log_thirteen_tenths : 6 / 25 ≤ Real.log (13 / 10) := by
  have hlow := Real.one_sub_inv_le_log_of_pos (by norm_num : (0 : ℝ) < 57 / 50)
  calc (6 / 25 : ℝ) ≤ 2 * Real.log (57 / 50) := by
        norm_num at hlow
        linarith
    _ = Real.log ((57 / 50) ^ 2) := by
        rw [Real.log_pow]
        norm_num
    _ ≤ Real.log (13 / 10) := Real.log_le_log (by norm_num) (by norm_num)

/-- A base far from one has a logarithm that is large against its error. -/
theorem abs_ln_sub_log_le_of_far {x : Decimal} (hx : 0 < x.toRat)
    (hfar : x.toRat ≤ 1 / 2 ∨ 13 / 10 ≤ x.toRat) :
    |(x.ln.toRat : ℝ) - Real.log x.toRat| ≤ 43 * (roundoff * |Real.log x.toRat|) := by
  have hX : (0 : ℝ) < x.toRat := by exact_mod_cast hx
  obtain ⟨hlow, hhigh⟩ := log_magnitude hx
  have hten := log_ten_bounds.1
  have hpos := cast_roundoff_pos
  have hparts : 9 + 9 * |((x.magnitude - 1 : Int) : ℝ)| + |Real.log x.toRat| ≤
      43 * |Real.log x.toRat| := by
    rcases hfar with hbelow | habove
    · have hmagnitude : (x.magnitude : ℝ) ≤ 0 := by
        exact_mod_cast magnitude_le hx (s := 0) (by norm_num; linarith)
      have hlog : Real.log x.toRat ≤ -(6 / 10) := by
        have hhalf := Real.log_le_log hX (by exact_mod_cast hbelow : (x.toRat : ℝ) ≤ (1 / 2 : ℚ))
        push_cast at hhalf
        rw [one_div, Real.log_inv] at hhalf
        linarith [Real.log_two_gt_d9]
      push_cast
      rw [abs_of_nonpos (by linarith : (x.magnitude : ℝ) - 1 ≤ 0), abs_of_nonpos (by linarith)]
      nlinarith
    · have hmagnitude : (1 : ℝ) ≤ x.magnitude := by
        have := lt_magnitude (d := x) (s := 0) (by norm_num; linarith)
        exact_mod_cast (by omega : 1 ≤ x.magnitude)
      have hlog : 6 / 25 ≤ Real.log x.toRat := by
        have hmono := Real.log_le_log (by norm_num)
          (by exact_mod_cast habove : ((13 / 10 : ℚ) : ℝ) ≤ x.toRat)
        push_cast at hmono
        linarith [log_thirteen_tenths]
      push_cast at hlow ⊢
      rw [abs_of_nonneg (by linarith : 0 ≤ (x.magnitude : ℝ) - 1), abs_of_nonneg (by linarith)]
      nlinarith
  calc |(x.ln.toRat : ℝ) - Real.log x.toRat|
      ≤ (9 + 9 * |((x.magnitude - 1 : Int) : ℝ)| + |Real.log x.toRat|) * roundoff :=
        abs_ln_sub_log_le hx
    _ ≤ 43 * |Real.log x.toRat| * roundoff := by gcongr
    _ = 43 * (roundoff * |Real.log x.toRat|) := by ring

theorem abs_ln_sub_log_le_below_one {x : Decimal} (hlow : 1 / 2 < x.toRat) (hhigh : x.toRat < 1) :
    |(x.ln.toRat : ℝ) - Real.log x.toRat| ≤ 19 * roundoff := by
  have hx : 0 < x.toRat := by linarith
  have hX : (0 : ℝ) < x.toRat := by exact_mod_cast hx
  have hmagnitude : x.magnitude = 0 := by
    have hlower := lt_magnitude (d := x) (s := -1) (by norm_num; linarith)
    have hupper := magnitude_le hx (s := 0) (by simpa using hhigh)
    omega
  have hlog : |Real.log x.toRat| ≤ 1 := by
    have hdown := Real.log_le_log (by norm_num)
      (by exact_mod_cast hlow.le : ((1 / 2 : ℚ) : ℝ) ≤ x.toRat)
    have hup := Real.log_nonpos hX.le (by exact_mod_cast hhigh.le)
    push_cast at hdown
    rw [one_div, Real.log_inv] at hdown
    rw [abs_of_nonpos hup]
    linarith [Real.log_two_lt_d9]
  refine (abs_ln_sub_log_le hx).trans ?_
  have hpos := cast_roundoff_pos
  rw [hmagnitude]
  gcongr
  norm_num
  linarith

end Decimal

end ListCalc
