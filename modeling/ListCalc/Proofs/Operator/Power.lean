import ListCalc.Operator.Power
import ListCalc.Proofs.Decimal.RoundTrip
import ListCalc.Proofs.Operator.WholePower

/-!
# Proofs — the digits of a power

A fractional power is the exponential of the logarithm times the exponent, so what the logarithm is
off by counts as often as the exponent says.  A base far from one has a logarithm large enough for
that, since their product is bounded; near one it is the exponent that has to be bounded
(`KeepsDigits`).

* `pow_digits_hold`: under that bound a power is within one unit of its 90th digit of the true
  power.
* `pow_loses_digits`: without it the digits need not hold.  Just above one, all terms but the first
  of the logarithm fall below the fixed bound at which the series is cut off, and a large exponent
  brings them back up.
-/

namespace ListCalc

namespace Decimal

/-! ### The exponent -/

/-- Exponents that keep the digits of a power: for a base near one they are not so large that they
bring up the error of its logarithm. -/
structure KeepsDigits (base exponent : Decimal) : Prop where
  below : 1 / 2 < base.toRat → base.toRat < 1 → |exponent.toRat| ≤ 10 ^ 7
  above : 1 ≤ base.toRat → base.toRat < 13 / 10 → |exponent.toRat| ≤ 10 ^ 14

/-- The error of the logarithm, times the exponent. -/
theorem abs_ln_mul_sub_le {base exponent : Decimal} (hbase : 0 < base.toRat)
    (hkeeps : KeepsDigits base exponent)
    (hproduct : |(base.ln.toRat : ℝ) * exponent.toRat| ≤ 101 / 100 * 10 ^ 7) :
    |(base.ln.toRat : ℝ) * exponent.toRat - Real.log base.toRat * exponent.toRat| ≤
      435 * 10 ^ 6 * roundoff := by
  have hpos := cast_roundoff_pos
  have hunit : (roundoff : ℝ) ≤ 1 / 10 ^ 12 := by norm_num [roundoff]
  have hsplit : |(base.ln.toRat : ℝ) * exponent.toRat - Real.log base.toRat * exponent.toRat| =
      |(base.ln.toRat : ℝ) - Real.log base.toRat| * |(exponent.toRat : ℝ)| := by
    rw [← abs_mul, sub_mul]
  -- the true product is as small as the computed one, up to this very error
  have hexact : |Real.log base.toRat| * |(exponent.toRat : ℝ)| ≤ 101 / 100 * 10 ^ 7 +
      |(base.ln.toRat : ℝ) * exponent.toRat - Real.log base.toRat * exponent.toRat| := by
    have htri := abs_sub_abs_le_abs_sub (Real.log base.toRat * exponent.toRat)
      ((base.ln.toRat : ℝ) * exponent.toRat)
    rw [abs_sub_comm, abs_mul (Real.log base.toRat)] at htri
    linarith
  have herror := abs_nonneg
    ((base.ln.toRat : ℝ) * exponent.toRat - Real.log base.toRat * exponent.toRat)
  generalize |(base.ln.toRat : ℝ) * exponent.toRat - Real.log base.toRat * exponent.toRat| = ε
    at hsplit hexact herror ⊢
  have hscaled := mul_le_mul_of_nonneg_left hexact hpos.le
  have hsecond : roundoff * ε ≤ 1 / 10 ^ 12 * ε := mul_le_mul_of_nonneg_right hunit herror
  have hfar : base.toRat ≤ 1 / 2 ∨ 13 / 10 ≤ base.toRat → ε ≤ 435 * 10 ^ 6 * roundoff := by
    intro hfar
    have hln := mul_le_mul_of_nonneg_right (abs_ln_sub_log_le_of_far hbase hfar)
      (abs_nonneg (exponent.toRat : ℝ))
    rw [← hsplit] at hln
    linarith
  by_cases hhalf : base.toRat ≤ 1 / 2
  · exact hfar (.inl hhalf)
  by_cases hone : base.toRat < 1
  · have hexponent := abs_cast_le (hkeeps.below (not_le.mp hhalf) hone)
    push_cast at hexponent
    rw [hsplit]
    calc |(base.ln.toRat : ℝ) - Real.log base.toRat| * |(exponent.toRat : ℝ)|
        ≤ 19 * roundoff * 10 ^ 7 := mul_le_mul
          (abs_ln_sub_log_le_below_one (not_le.mp hhalf) hone) hexponent (abs_nonneg _)
          (by positivity)
      _ ≤ 435 * 10 ^ 6 * roundoff := by linarith
  by_cases hnear : base.toRat < 13 / 10
  · have hexponent := abs_cast_le (hkeeps.above (not_lt.mp hone) hnear)
    have hlog : 0 ≤ Real.log base.toRat := Real.log_nonneg (by exact_mod_cast not_lt.mp hone)
    have hln := mul_le_mul_of_nonneg_right
      (abs_ln_sub_log_le_of_near_one (not_lt.mp hone) hnear.le) (abs_nonneg (exponent.toRat : ℝ))
    have hcut : 3 / 10 ^ 105 * |(exponent.toRat : ℝ)| ≤ 3 * 10 ^ 8 * (roundoff : ℝ) := by
      push_cast at hexponent
      calc 3 / 10 ^ 105 * |(exponent.toRat : ℝ)| ≤ 3 / 10 ^ 105 * 10 ^ 14 := by gcongr
        _ = 3 * 10 ^ 8 * (roundoff : ℝ) := by norm_num [roundoff]
    rw [← hsplit] at hln
    rw [abs_of_nonneg hlog] at hscaled
    linarith
  · exact hfar (.inr (not_lt.mp hnear))

/-! ### The power -/

/-- How far the exponential of the rounded product is from the power. -/
theorem abs_log_exp_sub_log_le {base exponent : Decimal} (hbase : 0 < base.toRat)
    (hkeeps : KeepsDigits base exponent)
    (hargument : |((base.ln.mulExact exponent).round).toRat| ≤ 10 ^ 7) :
    |Real.log (base.ln.mulExact exponent).round.exp.toRat - Real.log base.toRat * exponent.toRat| ≤
      496 * 10 ^ 6 * roundoff := by
  have hexp := abs_log_exp_sub_le (hargument.trans (by norm_num))
  have hround := (near_round (base.ln.mulExact exponent)).cast.abs_sub_le_of_one
  have hsize := abs_cast_le hargument
  rw [toRat_mulExact] at hround
  push_cast at hround hsize
  generalize (base.ln.mulExact exponent).round = y at hexp hround hsize
  have hpos := cast_roundoff_pos
  have hproduct : |(base.ln.toRat : ℝ) * exponent.toRat| ≤ 101 / 100 * 10 ^ 7 := by
    have htri := abs_sub_abs_le_abs_sub ((base.ln.toRat : ℝ) * exponent.toRat) y.toRat
    have hunit : (roundoff : ℝ) ≤ 1 / 10 ^ 12 := by norm_num [roundoff]
    have hsecond := mul_le_mul_of_nonneg_right hunit
      (abs_nonneg ((base.ln.toRat : ℝ) * exponent.toRat))
    rw [abs_sub_comm] at htri
    linarith
  have hlog := abs_ln_mul_sub_le hbase hkeeps hproduct
  have hrounded := mul_le_mul_of_nonneg_left hproduct hpos.le
  have hroundings := mul_le_mul_of_nonneg_right hsize hpos.le
  have htri := abs_sub_le (Real.log y.exp.toRat) y.toRat (Real.log base.toRat * exponent.toRat)
  have htri' := abs_sub_le (y.toRat : ℝ) ((base.ln.toRat : ℝ) * exponent.toRat)
    (Real.log base.toRat * exponent.toRat)
  linarith

/-- The digits kept of a number hold for every number that is near in logarithm. -/
theorem digits_hold {d : Decimal} {v : ℝ} (hd : 0 < d.toRat) (hv : 0 < v)
    (hnear : |Real.log d.toRat - Real.log v| ≤ 496 * 10 ^ 6 * roundoff) :
    0 < (d.withPrec powerDigits).normalized.toRat ∧ ∃ s : Int,
      (10 : ℚ) ^ s ≤ (d.withPrec powerDigits).normalized.toRat ∧
      (d.withPrec powerDigits).normalized.toRat < 10 ^ (s + 1) ∧
      |((d.withPrec powerDigits).normalized.toRat : ℝ) - v| ≤ 10 ^ (s - 89) := by
  have hcoeff := toRat_pos.mp hd
  have hkept := abs_cast_le (abs_withPrec_sub_le_of_pos hcoeff powerDigits)
  have hfirst := le_withPrec_of_pos hcoeff (by decide : 0 < powerDigits)
  rw [← toRat_normalized (d.withPrec powerDigits)] at hkept hfirst
  generalize (d.withPrec powerDigits).normalized = r at hkept hfirst ⊢
  have hr : 0 < r.toRat := (ten_zpow_pos _).trans_le hfirst
  obtain ⟨hlow, hhigh⟩ := zpow_magnitude hr
  refine ⟨hr, r.magnitude - 1, hlow, by simpa using hhigh, ?_⟩
  have hmagnitude : d.magnitude ≤ r.magnitude := by
    have := lt_magnitude hfirst
    omega
  have hunit : (10 : ℝ) ^ r.magnitude = 10 ^ 90 * 10 ^ (r.magnitude - 1 - 89) := by
    rw [← zpow_natCast, ← zpow_add₀ (by norm_num)]
    congr 1
    push_cast
    ring
  have hpositive : (0 : ℝ) < 10 ^ (r.magnitude - 1 - 89) := by positivity
  have hrounded : |(r.toRat : ℝ) - d.toRat| ≤ 1 / 2 * 10 ^ (r.magnitude - 1 - 89) := by
    have hmono : (10 : ℝ) ^ (d.magnitude - powerDigits) ≤ 10 ^ (r.magnitude - 1 - 89) :=
      zpow_le_zpow_right₀ (by norm_num) (by rw [powerDigits]; omega)
    push_cast at hkept
    linarith
  have htrue : |v - d.toRat| ≤ 1 / 2 * 10 ^ (r.magnitude - 1 - 89) := by
    rw [abs_sub_comm] at hnear
    have hsize : (d.toRat : ℝ) ≤ 10 ^ r.magnitude := by
      have hlt := (Rat.cast_le (K := ℝ)).mpr (zpow_magnitude hd).2.le
      push_cast at hlt
      exact hlt.trans (zpow_le_zpow_right₀ (by norm_num) hmagnitude)
    calc |v - d.toRat| ≤ (496 * 10 ^ 6 * roundoff + (496 * 10 ^ 6 * roundoff) ^ 2) * d.toRat :=
          abs_sub_le_of_abs_log_sub_le hv (by exact_mod_cast hd) (by norm_num [roundoff]) hnear
      _ ≤ 1 / 2 / 10 ^ 90 * 10 ^ r.magnitude := by
          gcongr
          norm_num [roundoff]
      _ = 1 / 2 * 10 ^ (r.magnitude - 1 - 89) := by
          rw [hunit]
          ring
  rw [abs_sub_comm] at htrue
  linarith [abs_sub_le (r.toRat : ℝ) d.toRat v]

/-- A power of a fraction, raised to the denominator. -/
theorem exp_mul_pow_den {b : ℝ} (hb : 0 < b) (E : ℚ) :
    Real.exp (Real.log b * E) ^ E.den = b ^ E.num := by
  have hfraction : (E.den : ℝ) * E = E.num := by exact_mod_cast Rat.den_mul_eq_num E
  rw [← Real.exp_nat_mul, mul_left_comm, hfraction, mul_comm, ← Real.log_zpow,
    Real.exp_log (zpow_pos hb _)]

/-- A power of a positive base is worked out unless its logarithm is too large. -/
theorem pow_eq_ok_iff {base exponent r : Decimal} (hbase : 0 < base.toRat) :
    base.pow exponent = .ok r ↔ |(base.ln.mulExact exponent).round.toRat| ≤ 10 ^ 7 ∧
      r = ((base.ln.mulExact exponent).round.exp.withPrec powerDigits).normalized := by
  have hsign : ¬ base.coeff < 0 := by
    have := toRat_pos.mp hbase
    omega
  have hzero : ¬ base.isZero = true := by
    rw [isZero_iff]
    exact hbase.ne'
  rw [pow, if_neg hsign, if_neg hzero]
  generalize (base.ln.mulExact exponent).round = y
  dsimp only
  by_cases hlarge : (10 : ℚ) ^ 7 < |y.toRat|
  · rw [if_pos (maxExpArgument_lt_iff.mpr hlarge)]
    exact ⟨fun h => (nomatch h), fun h => absurd h.1 (not_le.mpr hlarge)⟩
  · rw [if_neg (mt maxExpArgument_lt_iff.mp hlarge)]
    exact ⟨fun h => ⟨not_lt.mp hlarge, (Except.ok.inj h).symm⟩, fun h => by rw [h.2]⟩

/-! ### An exponent too large for its base -/

/-- A small enough argument is the whole sum. -/
theorem atanh_of_tiny {z : Decimal} (hz : |z.toRat| ≤ 1 / 10 ^ 35) : z.atanh = z.round := by
  have hsmall : (atanhTerm z 1).abs.lt negligible = true := by
    have hterm := abs_le_two_mul_of_near (by norm_num) (near_atanhTerm z 1)
    have hcube : |z.toRat| ^ 3 ≤ (1 / 10 ^ 35) ^ 3 := pow_le_pow_left₀ (abs_nonneg _) hz 3
    rw [abs_div, abs_pow] at hterm
    rw [negligible_iff]
    norm_num at hterm hcube ⊢
    linarith
  rw [atanh_eq_round, seriesLimit, sumUntil, if_pos hsmall]

/-- The logarithm of a number that close to one is twice the argument. -/
theorem near_ln_of_tiny {x : Decimal} (hlow : 1 ≤ x.toRat) (hhigh : x.toRat ≤ 1 + 1 / 10 ^ 35) :
    Near roundoff 3 x.ln.toRat (2 * ((x.toRat - 1) / (x.toRat + 1))) := by
  have hbound : x.toRat ≤ 13 / 10 := by
    norm_num at hhigh
    linarith
  obtain ⟨-, hmantissa⟩ := mantissa_of_near_one hlow hbound
  obtain ⟨d, hln, hd⟩ := ln_of_near_one hlow hbound
  have hargument := near_argument (m := x.mantissa) (by rw [hmantissa]; linarith)
  rw [hmantissa] at hargument
  have hquotient : |(x.toRat - 1) / (x.toRat + 1)| ≤ 1 / 10 ^ 35 / 2 := by
    rw [abs_of_nonneg (div_nonneg (by linarith) (by linarith)), div_le_iff₀ (by linarith)]
    norm_num at hhigh ⊢
    linarith
  have htiny : |x.mantissa.argument.toRat| ≤ 1 / 10 ^ 35 :=
    (abs_le_of_near hargument hquotient).trans (by norm_num)
  have hsum := (near_round x.mantissa.argument).trans
    (hargument.mono (by linarith [roundoff_pos]) roundoff_lt_one le_rfl)
  have hdouble : Near roundoff 2 d.toRat (2 * ((x.toRat - 1) / (x.toRat + 1))) := by
    rw [hd, atanh_of_tiny htiny, mul_comm 2, mul_comm 2]
    exact hsum.mul_right 2
  rw [hln]
  exact (near_round d).trans hdouble

theorem abs_product_sub_le_of_tiny {x e : Decimal} {w : ℚ} (hlow : 1 ≤ x.toRat)
    (hhigh : x.toRat ≤ 1 + 1 / 10 ^ 35) (hw : 2 * ((x.toRat - 1) / (x.toRat + 1)) * e.toRat = w)
    (hw1 : |w| ≤ 1) : |(x.ln.mulExact e).round.toRat - w| ≤ 6 * roundoff := by
  have hproduct := (near_ln_of_tiny hlow hhigh).mul_right e.toRat
  have hround := near_round (x.ln.mulExact e)
  rw [toRat_mulExact] at hround
  rw [hw] at hproduct
  refine ((hround.trans hproduct).abs_sub_le (c := 6 * roundoff) (by norm_num [roundoff])
    (by norm_num [roundoff])).trans ?_
  exact mul_le_of_le_one_right (by linarith [roundoff_pos]) hw1

/-- The first two terms of the series are below the logarithm. -/
theorem two_mul_add_le_log {m : ℝ} (hm : 1 ≤ m) :
    2 * ((m - 1) / (m + 1) + ((m - 1) / (m + 1)) ^ 3 / 3) ≤ Real.log m := by
  have hZ : 0 ≤ (m - 1) / (m + 1) := div_nonneg (by linarith) (by linarith)
  have hZ1 : |(m - 1) / (m + 1)| < 1 := by
    rw [abs_of_nonneg hZ, div_lt_one (by linarith)]
    linarith
  have hsum := sum_le_hasSum (Finset.range 2) (fun j _ => by positivity) (hasSum_artanh hZ1)
  rw [artanh_quotient (by linarith)] at hsum
  norm_num [Finset.sum_range_succ] at hsum
  linarith

/-- The digits kept of a number, with one unit of the last one added. -/
theorem add_unit_le {d : Decimal} (hd : 0 < d.toRat) {s : Int}
    (hs : (10 : ℚ) ^ s ≤ (d.withPrec powerDigits).normalized.toRat) :
    (d.withPrec powerDigits).normalized.toRat + 10 ^ (s - 89) ≤
      (1 + 1 / 10 ^ 89) ^ 2 * d.toRat := by
  rw [toRat_normalized] at hs ⊢
  have hkept := abs_withPrec_sub_le_of_pos (toRat_pos.mp hd) powerDigits
  have hfirst := (zpow_magnitude hd).1
  have hunit : ∀ k : Int, (10 : ℚ) ^ (k - 89) = 1 / 10 ^ 89 * 10 ^ k := fun k => by
    rw [zpow_sub₀ (by norm_num)]
    norm_num
    ring
  have hlast : d.magnitude - (powerDigits : Int) = d.magnitude - 1 - 89 := by
    rw [powerDigits]
    omega
  rw [hlast, hunit] at hkept
  rw [hunit]
  have hupper := (abs_le.mp hkept).2
  generalize (10 : ℚ) ^ (d.magnitude - 1) = first at *
  generalize (10 : ℚ) ^ s = step at *
  generalize (d.withPrec powerDigits).toRat = r at *
  have hr : r ≤ (1 + 1 / 10 ^ 89) * d.toRat := by linarith
  nlinarith

/-- Digits of a number that is too small by more than a few of their units. -/
theorem digits_lt {d : Decimal} {l : ℝ} (hd : 0 < d.toRat)
    (hlog : Real.log d.toRat + 7 / 10 ^ 72 ≤ l) {s : Int}
    (hs : (10 : ℚ) ^ s ≤ (d.withPrec powerDigits).normalized.toRat) :
    (((d.withPrec powerDigits).normalized.toRat + 10 ^ (s - 89) : ℚ) : ℝ) < Real.exp l := by
  have hd' : (0 : ℝ) < d.toRat := by exact_mod_cast hd
  have hunit := (Rat.cast_le (K := ℝ)).mpr (add_unit_le hd hs)
  have hfactor : 1 + 7 / 10 ^ 72 ≤ Real.exp (7 / 10 ^ 72) := by
    linarith [Real.add_one_le_exp (7 / 10 ^ 72 : ℝ)]
  calc _ ≤ (((1 + 1 / 10 ^ 89) ^ 2 * d.toRat : ℚ) : ℝ) := hunit
    _ = (1 + 1 / 10 ^ 89) ^ 2 * (d.toRat : ℝ) := by push_cast; rfl
    _ < (1 + 7 / 10 ^ 72) * (d.toRat : ℝ) := mul_lt_mul_of_pos_right (by norm_num) hd'
    _ ≤ Real.exp (7 / 10 ^ 72) * d.toRat := mul_le_mul_of_nonneg_right hfactor hd'.le
    _ = Real.exp (Real.log d.toRat + 7 / 10 ^ 72) := by
        rw [Real.exp_add, Real.exp_log hd', mul_comm]
    _ ≤ Real.exp l := Real.exp_le_exp.mpr hlog

/-! ### The digits -/

/-- **The digits of a power hold.**  A power with a bounded exponent where the base is near one is
within one unit of its 90th digit of the true power. -/
theorem pow_digits_hold {base exponent r : Decimal} (hbase : 0 < base.toRat)
    (hpow : base.pow exponent = .ok r)
    (hbelow : 1 / 2 < base.toRat → base.toRat < 1 → |exponent.toRat| ≤ 10 ^ 7)
    (habove : 1 ≤ base.toRat → base.toRat < 13 / 10 → |exponent.toRat| ≤ 10 ^ 14) :
    0 < r.toRat ∧ ∃ s : Int, (10 : ℚ) ^ s ≤ r.toRat ∧ r.toRat < 10 ^ (s + 1) ∧
      (r.toRat - 10 ^ (s - 89)) ^ exponent.toRat.den ≤ base.toRat ^ exponent.toRat.num ∧
      base.toRat ^ exponent.toRat.num ≤ (r.toRat + 10 ^ (s - 89)) ^ exponent.toRat.den := by
  have hB : (0 : ℝ) < base.toRat := by exact_mod_cast hbase
  obtain ⟨hargument, hvalue⟩ := (pow_eq_ok_iff hbase).mp hpow
  have hnear := abs_log_exp_sub_log_le hbase ⟨hbelow, habove⟩ hargument
  rw [← Real.log_exp (Real.log base.toRat * exponent.toRat)] at hnear
  have hexp : 0 < (base.ln.mulExact exponent).round.exp.toRat :=
    exp_pos (hargument.trans (by norm_num))
  have hdigits := digits_hold hexp (Real.exp_pos _) hnear
  rw [← hvalue] at hdigits
  obtain ⟨hr, s, hlow, hhigh, hclose⟩ := hdigits
  refine ⟨hr, s, hlow, hhigh, ?_⟩
  have hunit : (10 : ℚ) ^ (s - 89) ≤ r.toRat :=
    (zpow_le_zpow_right₀ (by norm_num) (by omega)).trans hlow
  have hunit' : (0 : ℝ) ≤ r.toRat - 10 ^ (s - 89) := by
    have := (Rat.cast_le (K := ℝ)).mpr hunit
    push_cast at this
    linarith
  obtain ⟨hlower, hupper⟩ := abs_le.mp hclose
  have hpower := exp_mul_pow_den hB exponent.toRat
  have hbetween : ((r.toRat : ℝ) - 10 ^ (s - 89)) ^ exponent.toRat.den ≤
      (base.toRat : ℝ) ^ exponent.toRat.num ∧ (base.toRat : ℝ) ^ exponent.toRat.num ≤
        ((r.toRat : ℝ) + 10 ^ (s - 89)) ^ exponent.toRat.den := by
    rw [← hpower]
    exact ⟨pow_le_pow_left₀ hunit' (by linarith) _,
      pow_le_pow_left₀ (Real.exp_pos _).le (by linarith) _⟩
  constructor
  · rw [← Rat.cast_le (K := ℝ)]
    push_cast
    exact hbetween.1
  · rw [← Rat.cast_le (K := ℝ)]
    push_cast
    exact hbetween.2

/-- The power of 1.2 to -3.5. -/
theorem pow_digits_hold_above_one :
    ∃ r, (⟨12, 1⟩ : Decimal).pow ⟨-35, 1⟩ = .ok r ∧ 0 < r.toRat ∧
      ∃ s : Int, (10 : ℚ) ^ s ≤ r.toRat ∧ r.toRat < 10 ^ (s + 1) ∧
        (r.toRat - 10 ^ (s - 89)) ^ 2 ≤ (6 / 5) ^ (-7 : Int) ∧
        (6 / 5) ^ (-7 : Int) ≤ (r.toRat + 10 ^ (s - 89)) ^ 2 := by
  have hbase : (⟨12, 1⟩ : Decimal).toRat = 6 / 5 := by norm_num [toRat]
  have hexponent : (⟨-35, 1⟩ : Decimal).toRat = -7 / 2 := by norm_num [toRat]
  have hpos : 0 < (⟨12, 1⟩ : Decimal).toRat := by norm_num [hbase]
  have hln : |((⟨12, 1⟩ : Decimal).ln.toRat : ℝ)| ≤ 1 := by
    have hnear := abs_ln_sub_log_le_of_near_one (x := ⟨12, 1⟩) (by norm_num [hbase])
      (by norm_num [hbase])
    have hlow := Real.log_nonneg (by norm_num : (1 : ℝ) ≤ 6 / 5)
    have hhigh := Real.log_le_sub_one_of_pos (by norm_num : (0 : ℝ) < 6 / 5)
    have hunit : 5 * (roundoff * Real.log (6 / 5)) ≤ 1 / 2 := by
      have := mul_le_mul_of_nonneg_right (by norm_num [roundoff] : (roundoff : ℝ) ≤ 1 / 10) hlow
      linarith
    rw [hbase] at hnear
    push_cast at hnear
    have htri := abs_sub_abs_le_abs_sub ((⟨12, 1⟩ : Decimal).ln.toRat : ℝ) (Real.log (6 / 5))
    rw [abs_of_nonneg hlow] at htri
    norm_num at hnear hhigh
    linarith
  have hok : ∃ r, (⟨12, 1⟩ : Decimal).pow ⟨-35, 1⟩ = .ok r := by
    refine ⟨_, (pow_eq_ok_iff hpos).mpr ⟨?_, rfl⟩⟩
    have hround := (near_round ((⟨12, 1⟩ : Decimal).ln.mulExact ⟨-35, 1⟩)).abs_sub_le_of_one
    have hsize : |(⟨12, 1⟩ : Decimal).ln.toRat * (-7 / 2)| ≤ 7 / 2 := by
      have : |(⟨12, 1⟩ : Decimal).ln.toRat| ≤ 1 := by exact_mod_cast hln
      rw [abs_mul]
      norm_num
      linarith
    rw [toRat_mulExact, hexponent] at hround
    have htri := abs_sub_abs_le_abs_sub
      ((⟨12, 1⟩ : Decimal).ln.mulExact ⟨-35, 1⟩).round.toRat
      ((⟨12, 1⟩ : Decimal).ln.toRat * (-7 / 2))
    have hunit := mul_le_mul roundoff_lt_one.le hsize (abs_nonneg _) (by norm_num)
    linarith
  obtain ⟨r, hr⟩ := hok
  have hhold := pow_digits_hold hpos hr (by norm_num [hbase]) (by norm_num [hexponent, abs_le])
  have hnum : (-7 / 2 : ℚ).num = -7 := by decide +kernel
  have hden : (-7 / 2 : ℚ).den = 2 := by decide +kernel
  rw [hbase, hexponent, hnum, hden] at hhold
  exact ⟨r, hr, hhold⟩

/-- Just above one the sum is cut off after its first term, and a large exponent brings up the
rest. -/
theorem pow_loses_digits :
    ∃ r, (⟨10 ^ 35 + 1, 35⟩ : Decimal).pow ⟨10 ^ 36 + 5, 1⟩ = .ok r ∧
      ∀ s : Int, (10 : ℚ) ^ s ≤ r.toRat →
        (r.toRat + 10 ^ (s - 89)) ^ (⟨10 ^ 36 + 5, 1⟩ : Decimal).toRat.den <
          (⟨10 ^ 35 + 1, 35⟩ : Decimal).toRat ^ (⟨10 ^ 36 + 5, 1⟩ : Decimal).toRat.num := by
  have hbase : (⟨10 ^ 35 + 1, 35⟩ : Decimal).toRat = 1 + 1 / 10 ^ 35 := by norm_num [toRat]
  have hexponent : (⟨10 ^ 36 + 5, 1⟩ : Decimal).toRat = 10 ^ 35 + 1 / 2 := by norm_num [toRat]
  generalize (⟨10 ^ 35 + 1, 35⟩ : Decimal) = base at hbase ⊢
  generalize (⟨10 ^ 36 + 5, 1⟩ : Decimal) = exponent at hexponent ⊢
  have hpos : 0 < base.toRat := by norm_num [hbase]
  -- the first term gives one, and the second one is what is missing
  have hargument := abs_product_sub_le_of_tiny (e := exponent) (w := 1) (by norm_num [hbase])
    hbase.le (by norm_num [hbase, hexponent]) (by norm_num)
  have hlog : 1 + 8 / 10 ^ 72 ≤ Real.log base.toRat * exponent.toRat := by
    have hseries := two_mul_add_le_log (m := base.toRat) (by rw [hbase]; norm_num)
    rw [hexponent]
    rw [hbase] at hseries ⊢
    norm_num at hseries ⊢
    linarith
  generalize hy : (base.ln.mulExact exponent).round = y at hargument
  have hsize : |y.toRat| ≤ 2 := by
    have htri := abs_sub_abs_le_abs_sub y.toRat 1
    rw [abs_one] at htri
    linarith [roundoff_le]
  have hsmall : |y.toRat| ≤ 10 ^ 8 := hsize.trans (by norm_num)
  refine ⟨_, (pow_eq_ok_iff hpos).mpr ⟨by rw [hy]; linarith, rfl⟩, fun s hs => ?_⟩
  rw [hy] at hs ⊢
  have hmissing : Real.log y.exp.toRat + 7 / 10 ^ 72 ≤ Real.log base.toRat * exponent.toRat := by
    have hresult := (abs_le.mp (abs_log_exp_sub_le hsmall)).2
    have hupper := (abs_le.mp (abs_cast_le hargument)).2
    have hroundings := mul_le_mul_of_nonneg_right (abs_cast_le hsize) cast_roundoff_pos.le
    have hunit : 60 * (roundoff : ℝ) ≤ 1 / 10 ^ 72 := by norm_num [roundoff]
    push_cast at hupper hroundings
    linarith
  have hresult : 0 ≤ (y.exp.withPrec powerDigits).normalized.toRat + 10 ^ (s - 89) :=
    add_nonneg ((ten_zpow_pos s).le.trans hs) (ten_zpow_pos _).le
  rw [← Rat.cast_lt (K := ℝ), Rat.cast_pow, Rat.cast_zpow,
    ← exp_mul_pow_den (by exact_mod_cast hpos)]
  exact pow_lt_pow_left₀ (digits_lt (exp_pos hsmall) hmissing hs) (by exact_mod_cast hresult)
    exponent.toRat.den_nz

end Decimal

end ListCalc
