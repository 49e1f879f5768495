import ListCalc.Decimal.Power
import ListCalc.Proofs.Decimal.Exact
import ListCalc.Proofs.Decimal.Near
import Mathlib.Tactic.FieldSimp

/-!
# Proofs — how far a rounding goes

Keeping 100 significant digits and dividing are one rounding each.  `near_round` is for any sign:
the digits of a negative number are cut off, which may cost a whole unit of the last one.
`near_round_of_pos` and `near_div` have half of that error, since there the last digit is
rounded.  `abs_withPrec_sub_le_of_pos` says it in units of the last digit kept.
-/

namespace ListCalc

namespace Decimal

/-- The relative error of a number that is cut off after 100 digits. -/
def roundoff : ℚ := 1 / 10 ^ 99

theorem roundoff_pos : 0 < roundoff := by norm_num [roundoff]

theorem roundoff_lt_one : roundoff < 1 := by norm_num [roundoff]

theorem roundoff_le : roundoff ≤ 1 / 10 ^ 9 := by norm_num [roundoff]

/-- One rounding makes a number hardly larger. -/
theorem abs_le_of_near {a x c : ℚ} (h : Near (roundoff / 2) 1 a x) (hx : |x| ≤ c) :
    |a| ≤ c * (1 + 1 / 10 ^ 9) := by
  have hnear := h.abs_sub_le (c := roundoff) (by norm_num [roundoff]) (by norm_num [roundoff])
  have htri := abs_sub_abs_le_abs_sub a x
  have hprod : roundoff * |x| ≤ 1 / 10 ^ 9 * c :=
    mul_le_mul roundoff_le hx (abs_nonneg x) (by norm_num)
  linarith

/-! ### Keeping digits -/

/-- The digit after the ones kept is five or more exactly if what is dropped is half of a unit or
more. -/
theorem five_le_digit_iff (n k : Nat) :
    5 ≤ n / tenPow k % 10 ↔ tenPow (k + 1) ≤ 2 * (n % tenPow (k + 1)) := by
  have hpos : 0 < 10 ^ k := by positivity
  have hdigit : n / 10 ^ k % 10 = n % (10 ^ k * 10) / 10 ^ k := by rw [Nat.mod_mul_right_div_self]
  rw [tenPow_eq, tenPow_eq, hdigit, Nat.le_div_iff_mul_le hpos, Nat.pow_succ]
  omega

/-- The kept digits of a positive number, the last one rounded. -/
theorem abs_sub_rounded_le (n k : Nat) :
    |(n : ℚ) - ((if 5 ≤ n / tenPow k % 10 then n / tenPow (k + 1) + 1 else n / tenPow (k + 1) : Nat)
      : ℚ) * 10 ^ ((k + 1 : Nat) : Int)| ≤ 10 ^ ((k + 1 : Nat) : Int) / 2 := by
  have hpos : 0 < tenPow (k + 1) := by
    rw [tenPow_eq]
    positivity
  have hsplit : n = tenPow (k + 1) * (n / tenPow (k + 1)) + n % tenPow (k + 1) :=
    (Nat.div_add_mod n _).symm
  have hlt := Nat.mod_lt n hpos
  rw [← cast_tenPow]
  simp only [five_le_digit_iff]
  generalize n / tenPow (k + 1) = q at hsplit
  generalize n % tenPow (k + 1) = r at hsplit hlt
  generalize tenPow (k + 1) = t at hpos hsplit hlt
  have hcast : (n : ℚ) = t * q + r := by exact_mod_cast hsplit
  have hr : (r : ℚ) < t := by exact_mod_cast hlt
  have hr0 : (0 : ℚ) ≤ r := Nat.cast_nonneg r
  rw [hcast]
  by_cases hup : t ≤ 2 * r
  · have hhalf : (t : ℚ) ≤ 2 * r := by exact_mod_cast hup
    rw [if_pos hup, abs_le]
    push_cast
    constructor <;> linarith
  · have hhalf : 2 * (r : ℚ) < t := by exact_mod_cast not_le.mp hup
    rw [if_neg hup, abs_le]
    constructor <;> linarith

/-- A number with few digits is kept as it is. -/
theorem toRat_withPrec_of_le {d : Decimal} {p : Nat} (h : digitCount d.coeff.natAbs ≤ p) :
    (d.withPrec p).toRat = d.toRat := by
  have hscale : d.scale ≤ d.scale + (p - digitCount d.coeff.natAbs : Nat) := by omega
  rw [toRat_eq_coeffAt hscale, withPrec, if_pos h]
  simp [toRat, coeffAt]

theorem withPrec_of_pos {d : Decimal} {n p k : Nat} (hd : d.coeff = n) (hn : 0 < n)
    (h : digitCount n = p + (k + 1)) :
    d.withPrec p = ⟨((if 5 ≤ n / tenPow k % 10 then n / tenPow (k + 1) + 1
      else n / tenPow (k + 1) : Nat) : Int), d.scale - (k + 1 : Nat)⟩ := by
  have hup : (0 < (n : Int) ∧ 5 ≤ (n : Int) / tenPow k % 10) ↔ 5 ≤ n / tenPow k % 10 := by omega
  have hdropped : digitCount n - p = k + 1 := by omega
  rw [withPrec, hd, Int.natAbs_natCast, if_neg (by omega), hdropped]
  simp only [Nat.add_sub_cancel, hup, decide_eq_true_eq]
  congr 1
  split <;> push_cast <;> rfl

theorem withPrec_of_not_pos {d : Decimal} {p k : Nat} (hd : ¬ 0 < d.coeff)
    (h : digitCount d.coeff.natAbs = p + k) (hk : 0 < k) :
    d.withPrec p = ⟨d.coeff.tdiv (tenPow k), d.scale - k⟩ := by
  have hdropped : digitCount d.coeff.natAbs - p = k := by omega
  rw [withPrec, if_neg (by omega), hdropped]
  simp [hd]

/-- The difference of two numbers whose scales differ by `k`, in units of the finer one. -/
theorem abs_sub_toRat (d : Decimal) (c : Int) (k : Nat) :
    |(⟨c, d.scale - k⟩ : Decimal).toRat - d.toRat| =
      |(d.coeff : ℚ) - c * 10 ^ (k : Int)| * 10 ^ (-d.scale) := by
  have hscale : -(d.scale - (k : Int)) = k + -d.scale := by ring
  have hdiff : d.toRat - (⟨c, d.scale - k⟩ : Decimal).toRat =
      (d.coeff - c * 10 ^ (k : Int)) * 10 ^ (-d.scale) := by
    rw [toRat, toRat, hscale, zpow_add₀ (by norm_num)]
    ring
  rw [abs_sub_comm, hdiff, abs_mul, abs_of_pos (ten_zpow_pos _)]

theorem exists_dropped {n p : Nat} (h : p < digitCount n) : ∃ k, digitCount n = p + (k + 1) :=
  ⟨digitCount n - p - 1, by omega⟩

theorem ten_zpow_magnitude_sub {d : Decimal} {p k : Nat}
    (h : digitCount d.coeff.natAbs = p + k) :
    (10 : ℚ) ^ (d.magnitude - p) = 10 ^ (k : Int) * 10 ^ (-d.scale) := by
  rw [← zpow_add₀ (by norm_num), magnitude]
  congr 1
  omega

/-- Keeping `p` digits changes a number by at most one unit of the last digit kept. -/
theorem abs_withPrec_sub_le_of_not_pos {d : Decimal} (hd : ¬ 0 < d.coeff) (p : Nat) :
    |(d.withPrec p).toRat - d.toRat| ≤ 10 ^ (d.magnitude - p) := by
  by_cases hle : digitCount d.coeff.natAbs ≤ p
  · rw [toRat_withPrec_of_le hle, sub_self, abs_zero]
    exact (ten_zpow_pos _).le
  · obtain ⟨k, hk⟩ := exists_dropped (Nat.not_le.mp hle)
    rw [withPrec_of_not_pos hd hk (Nat.succ_pos k), abs_sub_toRat, ten_zpow_magnitude_sub hk]
    exact mul_le_mul_of_nonneg_right (abs_sub_tdiv_tenPow d.coeff (k + 1)).le (ten_zpow_pos _).le

/-- Keeping `p` digits changes a positive number by at most half of a unit of the last digit
kept. -/
theorem abs_withPrec_sub_le_of_pos {d : Decimal} (hd : 0 < d.coeff) (p : Nat) :
    |(d.withPrec p).toRat - d.toRat| ≤ 10 ^ (d.magnitude - p) / 2 := by
  by_cases hle : digitCount d.coeff.natAbs ≤ p
  · rw [toRat_withPrec_of_le hle, sub_self, abs_zero]
    exact (half_pos (ten_zpow_pos _)).le
  · obtain ⟨k, hk⟩ := exists_dropped (Nat.not_le.mp hle)
    have hn : d.coeff = d.coeff.natAbs := by omega
    rw [withPrec_of_pos hn (by omega) hk, abs_sub_toRat, ten_zpow_magnitude_sub hk,
      mul_div_right_comm]
    refine mul_le_mul_of_nonneg_right ?_ (ten_zpow_pos _).le
    have hround := abs_sub_rounded_le d.coeff.natAbs k
    rwa [← Int.cast_natCast d.coeff.natAbs, ← hn] at hround

/-- A positive number keeps its first digit or rounds up to more. -/
theorem le_withPrec_of_pos {d : Decimal} (hd : 0 < d.coeff) {p : Nat} (hp : 0 < p) :
    (10 : ℚ) ^ (d.magnitude - 1) ≤ (d.withPrec p).toRat := by
  by_cases hle : digitCount d.coeff.natAbs ≤ p
  · rw [toRat_withPrec_of_le hle, ← abs_of_pos (toRat_pos.mpr hd)]
    exact le_abs_toRat hd.ne'
  · obtain ⟨k, hk⟩ := exists_dropped (Nat.not_le.mp hle)
    have hn : d.coeff = d.coeff.natAbs := by omega
    have hkept : 10 ^ (p - 1) ≤ d.coeff.natAbs / tenPow (k + 1) := by
      have hfirst := pow_le_of_digitCount (n := d.coeff.natAbs) (by omega)
      have hexp : digitCount d.coeff.natAbs - 1 = (p - 1) + (k + 1) := by omega
      rw [hexp, pow_add] at hfirst
      rw [tenPow_eq, Nat.le_div_iff_mul_le (by positivity)]
      exact hfirst
    have hcoeff : 10 ^ (p - 1) ≤ (if 5 ≤ d.coeff.natAbs / tenPow k % 10
        then d.coeff.natAbs / tenPow (k + 1) + 1 else d.coeff.natAbs / tenPow (k + 1)) := by
      split <;> omega
    have hexp : d.magnitude - 1 = ((p - 1 : Nat) : Int) + -(d.scale - (k + 1 : Nat)) := by
      rw [magnitude]
      omega
    rw [withPrec_of_pos hn (by omega) hk, toRat, hexp, zpow_add₀ (by norm_num), zpow_natCast,
      Int.cast_natCast]
    exact mul_le_mul_of_nonneg_right (by exact_mod_cast hcoeff) (ten_zpow_pos _).le

/-- The unit of the 100th digit, as a part of the number. -/
theorem unit_le_roundoff {d : Decimal} (hd : d.coeff ≠ 0) :
    (10 : ℚ) ^ (d.magnitude - workingDigits) ≤ roundoff * |d.toRat| := by
  have hexp : d.magnitude - (workingDigits : Int) = -99 + (d.magnitude - 1) := by
    rw [workingDigits]
    omega
  have hunit : (10 : ℚ) ^ (-99 : Int) = roundoff := by norm_num [roundoff]
  rw [hexp, zpow_add₀ (by norm_num), hunit]
  exact mul_le_mul_of_nonneg_left (le_abs_toRat hd) roundoff_pos.le

/-- Keeping the working digits of a positive number is a rounding of half of the error. -/
theorem near_round_of_pos {d : Decimal} (hd : 0 < d.toRat) :
    Near (roundoff / 2) 1 d.round.toRat d.toRat := by
  have hcoeff := toRat_pos.mp hd
  have hunit := unit_le_roundoff hcoeff.ne'
  have hround := abs_withPrec_sub_le_of_pos hcoeff workingDigits
  refine .of_one (half_pos roundoff_pos).le (by linarith [roundoff_lt_one, roundoff_pos]) ?_
  rw [round]
  linarith

/-- Keeping the working digits is a rounding. -/
theorem near_round (d : Decimal) : Near roundoff 1 d.round.toRat d.toRat := by
  by_cases hpos : 0 < d.toRat
  · exact (near_round_of_pos hpos).mono (by linarith [roundoff_pos]) roundoff_lt_one le_rfl
  · have hcoeff : ¬ 0 < d.coeff := fun h => hpos (toRat_pos.mpr h)
    refine .of_one roundoff_pos.le roundoff_lt_one ?_
    by_cases hzero : d.coeff = 0
    · have hdigits : digitCount d.coeff.natAbs ≤ workingDigits := by
        rw [hzero, digitCount_le_iff (by decide)]
        positivity
      rw [round, toRat_withPrec_of_le hdigits, sub_self, abs_zero]
      exact mul_nonneg roundoff_pos.le (abs_nonneg _)
    · exact (abs_withPrec_sub_le_of_not_pos hcoeff workingDigits).trans (unit_le_roundoff hzero)

/-! ### Long division -/

/-- Scaling up multiplies by ten as often as it counts, until the divisor goes into the number. -/
theorem scaleUp_spec (num den k : Nat) (h : 0 < num) :
    (scaleUp num den k).1 * 10 ^ k = num * 10 ^ (scaleUp num den k).2 ∧
      den ≤ (scaleUp num den k).1 := by
  fun_induction scaleUp num den k with
  | case1 num k hlt ih =>
    obtain ⟨heq, hle⟩ := ih (by omega)
    refine ⟨Nat.eq_of_mul_eq_mul_right (by decide : 0 < 10) ?_, hle⟩
    rw [pow_succ] at heq
    linarith
  | case2 num k hnot => exact ⟨rfl, by omega⟩

namespace Partial

/-- The quotient and the remainder account for `num` with as many zeros as there are digits
appended. -/
structure Divides (num den : Nat) (p : Partial) : Prop where
  split : num * 10 ^ p.appended = p.quotient * den + p.remainder
  remainder_lt : p.remainder < den

/-- Appending digits keeps the account, and ends with a remainder of zero or with all of them. -/
theorem extend_spec {num den : Nat} (hden : 0 < den) (n : Nat) (p : Partial)
    (h : p.Divides num den) : (p.extend den n).Divides num den ∧
      ((p.extend den n).remainder = 0 ∨ p.quotient * 10 ^ n ≤ (p.extend den n).quotient) := by
  induction n generalizing p with
  | zero => exact ⟨h, .inr (by simp [extend])⟩
  | succ n ih =>
    rw [extend]
    split
    · rename_i hzero
      exact ⟨h, .inl hzero⟩
    · have hstep : Divides num den
          ⟨p.quotient * 10 + p.remainder * 10 / den, p.remainder * 10 % den, p.appended + 1⟩ := by
        refine ⟨?_, Nat.mod_lt _ hden⟩
        have hmod := Nat.div_add_mod (p.remainder * 10) den
        rw [pow_succ, ← mul_assoc, h.split]
        linarith
      obtain ⟨hdiv, hrest⟩ := ih _ hstep
      refine ⟨hdiv, hrest.imp_right fun hle => ?_⟩
      calc p.quotient * 10 ^ (n + 1) = p.quotient * 10 * 10 ^ n := by ring
        _ ≤ (p.quotient * 10 + p.remainder * 10 / den) * 10 ^ n := by
          gcongr
          exact Nat.le_add_right _ _
        _ ≤ _ := hle

variable {num den : Nat} {p : Partial}

/-- The exact quotient, split at the digits worked out. -/
theorem Divides.exact (h : p.Divides num den) :
    (num : ℚ) * 10 ^ p.appended / den = p.quotient + p.remainder / den := by
  have hden : (den : ℚ) ≠ 0 := by exact_mod_cast ((Nat.zero_le _).trans_lt h.remainder_lt).ne'
  rw [div_eq_iff hden, add_mul, div_mul_cancel₀ _ hden]
  exact_mod_cast h.split

/-- The digit that would come next is five or more exactly if the remainder is half of the divisor
or more. -/
theorem Divides.rounded_eq (h : p.Divides num den) :
    p.rounded den = if den ≤ 2 * p.remainder then p.quotient + 1 else p.quotient := by
  have hpos : 0 < den := (Nat.zero_le _).trans_lt h.remainder_lt
  have hnext : (p.remainder ≠ 0 ∧ 5 ≤ p.remainder * 10 / den) ↔ den ≤ 2 * p.remainder := by
    rw [Nat.le_div_iff_mul_le hpos]
    omega
  simp only [rounded, hnext]

/-- Rounding the quotient is rounding to the nearest. -/
theorem Divides.abs_rounded_sub_le (h : p.Divides num den) :
    |(p.rounded den : ℚ) - num * 10 ^ p.appended / den| ≤ 1 / 2 := by
  have hden : (0 : ℚ) < den := by exact_mod_cast (Nat.zero_le _).trans_lt h.remainder_lt
  have hlt : (p.remainder : ℚ) / den < 1 := by
    rw [div_lt_one hden]
    exact_mod_cast h.remainder_lt
  have hnonneg : (0 : ℚ) ≤ (p.remainder : ℚ) / den := by positivity
  rw [h.exact, h.rounded_eq, abs_le]
  by_cases hup : den ≤ 2 * p.remainder
  · have hhalf : 1 / 2 ≤ (p.remainder : ℚ) / den := by
      rw [div_le_div_iff₀ two_pos hden]
      exact_mod_cast (by omega : 1 * den ≤ p.remainder * 2)
    rw [if_pos hup]
    push_cast
    constructor <;> linarith
  · have hhalf : (p.remainder : ℚ) / den ≤ 1 / 2 := by
      rw [div_le_div_iff₀ hden two_pos]
      exact_mod_cast (by omega : p.remainder * 2 ≤ 1 * den)
    rw [if_neg hup]
    constructor <;> linarith

/-- Without a remainder the quotient is exact. -/
theorem Divides.rounded_of_remainder (h : p.Divides num den) (hzero : p.remainder = 0) :
    (p.rounded den : ℚ) = num * 10 ^ p.appended / den := by
  have hpos : 0 < den := (Nat.zero_le _).trans_lt h.remainder_lt
  rw [h.exact, h.rounded_eq, if_neg (by omega), hzero]
  simp

/-- A remainder of half of the divisor or more is rounded up. -/
theorem Divides.le_rounded (h : p.Divides num den) (hup : den ≤ 2 * p.remainder) :
    (num : ℚ) * 10 ^ p.appended / den ≤ p.rounded den := by
  have hden : (0 : ℚ) < den := by exact_mod_cast (Nat.zero_le _).trans_lt h.remainder_lt
  have hle : (p.remainder : ℚ) / den ≤ 1 := by
    rw [div_le_one hden]
    exact_mod_cast h.remainder_lt.le
  rw [h.exact, h.rounded_eq, if_pos hup]
  push_cast
  linarith

/-- The exact quotient is at least the digits worked out. -/
theorem Divides.le_exact (h : p.Divides num den) :
    (p.quotient : ℚ) ≤ num * 10 ^ p.appended / den := by
  rw [h.exact]
  exact le_add_of_nonneg_right (by positivity)

end Partial

/-- A number filled up to 100 digits has 100 digits. -/
theorem le_pow_digits {n : Nat} (hn : 0 < n) :
    10 ^ 99 ≤ n * 10 ^ (quotientDigits - digitCount n) := by
  have hpos := digitCount_pos n
  calc 10 ^ 99 ≤ 10 ^ (digitCount n - 1 + (quotientDigits - digitCount n)) :=
        Nat.pow_le_pow_right (by decide) (by rw [quotientDigits]; omega)
    _ = 10 ^ (digitCount n - 1) * 10 ^ (quotientDigits - digitCount n) := pow_add _ _ _
    _ ≤ n * 10 ^ (quotientDigits - digitCount n) :=
      Nat.mul_le_mul_right _ (pow_le_of_digitCount hn)

/-- A quotient is worked out to the last digit or to 100 of them. -/
theorem longDivision_spec {num den : Nat} (hnum : 0 < num) (hden : 0 < den) :
    ∃ p : Partial, p.Divides num den ∧ longDivision num den = (p.rounded den, p.appended) ∧
      (p.remainder = 0 ∨ 10 ^ 99 ≤ p.quotient) := by
  obtain ⟨hscale, hle⟩ := scaleUp_spec num den 0 hnum
  rw [longDivision]
  generalize scaleUp num den 0 = up at hscale hle ⊢
  obtain ⟨num', shift⟩ := up
  simp only [pow_zero, mul_one] at hscale hle ⊢
  have hfirst : Partial.Divides num' den ⟨num' / den, num' % den, 0⟩ :=
    ⟨by simpa [mul_comm] using (Nat.div_add_mod num' den).symm, Nat.mod_lt _ hden⟩
  obtain ⟨hdiv, hrest⟩ :=
    Partial.extend_spec hden (quotientDigits - digitCount (num' / den)) _ hfirst
  generalize Partial.extend den (quotientDigits - digitCount (num' / den))
    ⟨num' / den, num' % den, 0⟩ = p at hdiv hrest ⊢
  refine ⟨⟨p.quotient, p.remainder, shift + p.appended⟩, ⟨?_, hdiv.remainder_lt⟩, rfl, ?_⟩
  · rw [pow_add, ← mul_assoc, ← hscale, hdiv.split]
  · exact hrest.imp_right (le_pow_digits (Nat.div_pos hle hden)).trans

/-- A quotient of integers is that of their absolute values with the sign of the product. -/
theorem cast_div_eq_sign (m : Int) {n : Int} (hn : n ≠ 0) :
    (m : ℚ) / n = m.sign * n.sign * (m.natAbs / n.natAbs) := by
  have hcast : ∀ k : Int, (k : ℚ) = k.sign * k.natAbs := fun k => by
    rw [← Int.cast_natCast, ← Int.cast_mul, Int.sign_mul_natAbs]
  have hinv : ((n.sign : Int) : ℚ)⁻¹ = n.sign := by
    rcases sign_cases n with ⟨-, hs⟩ | ⟨hzero, -⟩ | ⟨-, hs⟩
    · norm_num [hs]
    · exact absurd hzero hn
    · norm_num [hs]
  rw [hcast m, hcast n, mul_div_mul_comm, div_eq_mul_inv (m.sign : ℚ), hinv]

/-- A quotient is exact, or it is worked out by long division. -/
theorem toRat_div (a : Decimal) {b : Decimal} (hb : b.toRat ≠ 0) :
    (a.div b).toRat = a.toRat / b.toRat ∨
      ∃ p : Partial, p.Divides a.coeff.natAbs b.coeff.natAbs ∧
        (p.remainder = 0 ∨ 10 ^ 99 ≤ p.quotient) ∧
        (a.div b).toRat = p.rounded b.coeff.natAbs *
          (a.coeff.sign * b.coeff.sign * (10 ^ (-(a.scale - b.scale)) / 10 ^ p.appended)) ∧
        a.toRat / b.toRat = a.coeff.natAbs * 10 ^ p.appended / b.coeff.natAbs *
          (a.coeff.sign * b.coeff.sign * (10 ^ (-(a.scale - b.scale)) / 10 ^ p.appended)) := by
  have hbc : b.coeff ≠ 0 := fun h => hb (toRat_eq_zero.mpr h)
  have hvalue : a.toRat / b.toRat = a.coeff / b.coeff * 10 ^ (-(a.scale - b.scale)) := by
    have hexp : -(a.scale - b.scale) = -a.scale - -b.scale := by ring
    rw [toRat, toRat, hexp, zpow_sub₀ (by norm_num)]
    field_simp
  rw [div]
  split
  · rename_i htrivial
    left
    rcases Bool.or_eq_true_iff.mp htrivial with hzero | hone
    · rw [isZero_iff.mp hzero, zero_div]
    · rw [toRat_of_isOne hone, div_one]
  · rename_i hplain
    simp only [Bool.or_eq_true, not_or] at hplain
    split
    · rename_i hsame
      left
      rw [hvalue, hsame, div_self (by exact_mod_cast hbc), toRat, Int.cast_one]
    · right
      have hac : a.coeff ≠ 0 := by simpa [isZero] using hplain.1
      obtain ⟨p, hdiv, hlong, hrest⟩ :=
        longDivision_spec (Int.natAbs_pos.mpr hac) (Int.natAbs_pos.mpr hbc)
      have hexp : (10 : ℚ) ^ (-(a.scale - b.scale + (p.appended : Int))) =
          10 ^ (-(a.scale - b.scale)) / 10 ^ p.appended := by
        rw [neg_add, zpow_add₀ (by norm_num), zpow_neg _ (p.appended : Int), zpow_natCast,
          div_eq_mul_inv]
      refine ⟨p, hdiv, hrest, ?_, ?_⟩
      · rw [hlong, toRat, hexp]
        push_cast
        ring
      · rw [hvalue, cast_div_eq_sign a.coeff hbc]
        field_simp

/-- A quotient is one rounding of half of the error. -/
theorem near_div (a : Decimal) {b : Decimal} (hb : b.toRat ≠ 0) :
    Near (roundoff / 2) 1 (a.div b).toRat (a.toRat / b.toRat) := by
  have hhalf : roundoff / 2 < 1 := by linarith [roundoff_lt_one, roundoff_pos]
  obtain heq | ⟨p, hdiv, hrest, hvalue, hexact⟩ := toRat_div a hb
  · exact (Near.of_eq (half_pos roundoff_pos).le hhalf heq).mono le_rfl hhalf (Nat.zero_le 1)
  · rw [hvalue, hexact]
    refine (Near.of_one (half_pos roundoff_pos).le hhalf ?_).mul_right _
    rcases hrest with hzero | hdigits
    · rw [hdiv.rounded_of_remainder hzero, sub_self, abs_zero]
      exact mul_nonneg (half_pos roundoff_pos).le (abs_nonneg _)
    · -- a quotient of 100 digits is so large that half of a unit is half of the error
      have hquotient : (10 : ℚ) ^ 99 ≤ a.coeff.natAbs * 10 ^ p.appended / b.coeff.natAbs :=
        (by exact_mod_cast hdigits : (10 : ℚ) ^ 99 ≤ p.quotient).trans hdiv.le_exact
      refine hdiv.abs_rounded_sub_le.trans ?_
      calc (1 : ℚ) / 2 = roundoff / 2 * 10 ^ 99 := by norm_num [roundoff]
        _ ≤ roundoff / 2 * |(a.coeff.natAbs : ℚ) * 10 ^ p.appended / b.coeff.natAbs| :=
          mul_le_mul_of_nonneg_left (hquotient.trans (le_abs_self _)) (half_pos roundoff_pos).le

/-- Half of a positive number is never rounded down. -/
theorem half_le_div_two {d : Decimal} (hd : 0 < d.toRat) :
    d.toRat / 2 ≤ (d.div (ofInt 2)).toRat := by
  have htwo : (ofInt 2).toRat = 2 := by simp
  obtain heq | ⟨p, hdiv, -, hvalue, hexact⟩ := toRat_div d (b := ofInt 2) (by simp)
  · rw [heq, htwo]
  · have hsign : d.coeff.sign = 1 := Int.sign_eq_one_of_pos (toRat_pos.mp hd)
    have hrounded : (d.coeff.natAbs : ℚ) * 10 ^ p.appended / (ofInt 2).coeff.natAbs ≤
        p.rounded (ofInt 2).coeff.natAbs := by
      have hlt : p.remainder < 2 := hdiv.remainder_lt
      by_cases hzero : p.remainder = 0
      · exact (hdiv.rounded_of_remainder hzero).ge
      · exact hdiv.le_rounded (by change 2 ≤ _; omega)
    rw [← htwo, hvalue, hexact, hsign]
    refine mul_le_mul_of_nonneg_right hrounded ?_
    have hten := ten_zpow_pos (-(d.scale - (ofInt 2).scale))
    have hsign2 : (ofInt 2).coeff.sign = 1 := rfl
    rw [hsign2]
    positivity

end Decimal

end ListCalc
