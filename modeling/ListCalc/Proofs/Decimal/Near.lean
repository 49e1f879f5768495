import Mathlib.Algebra.Order.Field.Basic
import Mathlib.Algebra.Order.Ring.Pow
import Mathlib.Data.Rat.Cast.Order
import Mathlib.Tactic.GCongr
import Mathlib.Tactic.Linarith
import Mathlib.Tactic.Positivity
import Mathlib.Tactic.Ring

/-!
# Proofs — counting roundings

`Near u n a x` says that `a` is `x` after `n` roundings of relative error `u`: their quotient lies
between `(1 - u) ^ n` and `(1 + u) ^ n`.  Products add the roundings up (`Near.mul`,
`Near.trans`), roundings of two kinds make one of a third (`Near.join`), and
`Near.abs_sub_le` turns them into one relative error.
-/

namespace ListCalc

section Counting

variable {K : Type} [Field K] [LinearOrder K]
variable {u v w a b c x y : K} {m n : ℕ}

/-- `a` is `x` after `n` roundings, each of a relative error of at most `u`. -/
structure Near (u : K) (n : ℕ) (a x : K) : Prop where
  nonneg : 0 ≤ u
  lt_one : u < 1
  factor : ∃ t, (1 - u) ^ n ≤ t ∧ t ≤ (1 + u) ^ n ∧ a = x * t

namespace Near

/-- No rounding at all. -/
theorem of_eq (hu : 0 ≤ u) (hu' : u < 1) (h : a = x) : Near u 0 a x :=
  ⟨hu, hu', 1, by simp, by simp, by simp [h]⟩

/-- Roundings of one kind as roundings of another, that allow for as much. -/
theorem regroup (hv : 0 ≤ v) (hv' : v < 1) (hlow : (1 - v) ^ n ≤ (1 - u) ^ m)
    (hhigh : (1 + u) ^ m ≤ (1 + v) ^ n) (h : Near u m a x) : Near v n a x := by
  obtain ⟨-, -, t, ht, ht', rfl⟩ := h
  exact ⟨hv, hv', t, hlow.trans ht, ht'.trans hhigh, rfl⟩

variable [IsStrictOrderedRing K]

theorem of_one (hu : 0 ≤ u) (hu' : u < 1) (h : |a - x| ≤ u * |x|) : Near u 1 a x := by
  by_cases hx : x = 0
  · have ha : a = 0 := by simpa [hx] using h
    exact ⟨hu, hu', 1, by simpa using hu, by simpa using hu, by simp [ha, hx]⟩
  · have hbound : |a / x - 1| ≤ u := by
      rw [div_sub_one hx, abs_div, div_le_iff₀ (abs_pos.mpr hx)]
      exact h
    obtain ⟨hlow, hhigh⟩ := abs_le.mp hbound
    exact ⟨hu, hu', a / x, by linarith, by linarith, (mul_div_cancel₀ a hx).symm⟩

/-- One rounding, as the error that it is. -/
theorem abs_sub_le_of_one (h : Near u 1 a x) : |a - x| ≤ u * |x| := by
  obtain ⟨-, -, t, hlow, hhigh, rfl⟩ := h
  have ht : |t - 1| ≤ u := by
    rw [abs_le]
    constructor <;> linarith
  rw [← mul_sub_one, abs_mul, mul_comm]
  exact mul_le_mul_of_nonneg_right ht (abs_nonneg x)

theorem pos (h : Near u n a x) (hx : 0 < x) : 0 < a := by
  obtain ⟨-, hu', t, hlow, -, rfl⟩ := h
  exact mul_pos hx ((pow_pos (by linarith) n).trans_le hlow)

/-- What a nonnegative number can become, from below and from above. -/
theorem between (h : Near u n a x) (hx : 0 ≤ x) : x * (1 - u) ^ n ≤ a ∧ a ≤ x * (1 + u) ^ n := by
  obtain ⟨-, -, t, hlow, hhigh, rfl⟩ := h
  exact ⟨mul_le_mul_of_nonneg_left hlow hx, mul_le_mul_of_nonneg_left hhigh hx⟩

theorem mul (h : Near u m a x) (h' : Near u n b y) : Near u (m + n) (a * b) (x * y) := by
  obtain ⟨hu, hu', s, hs, hs', rfl⟩ := h
  obtain ⟨-, -, t, ht, ht', rfl⟩ := h'
  have hm : 0 ≤ (1 - u) ^ m := pow_nonneg (by linarith) m
  have hn : 0 ≤ (1 - u) ^ n := pow_nonneg (by linarith) n
  refine ⟨hu, hu', s * t, ?_, ?_, by ring⟩
  · rw [pow_add]
    exact mul_le_mul hs ht hn (hm.trans hs)
  · rw [pow_add]
    exact mul_le_mul hs' ht' (hn.trans ht) (by positivity)

/-- Roundings one after the other. -/
theorem trans (h : Near u m a b) (h' : Near u n b x) : Near u (m + n) a x := by
  obtain ⟨hu, hu', s, hs, hs', rfl⟩ := h
  have hone : Near u m s 1 := ⟨hu, hu', s, hs, hs', (one_mul s).symm⟩
  rw [add_comm]
  simpa using h'.mul hone

theorem pow (h : Near u n a x) (k : ℕ) : Near u (n * k) (a ^ k) (x ^ k) := by
  induction k with
  | zero => simpa using of_eq h.nonneg h.lt_one (rfl : (1 : K) = 1)
  | succ k ih => simpa only [pow_succ, Nat.mul_succ] using ih.mul h

theorem mul_right (h : Near u n a x) (c : K) : Near u n (a * c) (x * c) := by
  simpa using h.mul (of_eq h.nonneg h.lt_one (rfl : c = c))

theorem div_right (h : Near u n a x) (c : K) : Near u n (a / c) (x / c) := by
  simpa only [div_eq_mul_inv] using h.mul_right c⁻¹

/-- A coarser rounding, done more often. -/
theorem mono (huv : u ≤ v) (hv : v < 1) (hmn : m ≤ n) (h : Near u m a x) :
    Near v n a x := by
  have hu := h.nonneg
  refine h.regroup (hu.trans huv) hv ?_ ?_
  · calc (1 - v) ^ n ≤ (1 - v) ^ m := pow_le_pow_of_le_one (by linarith) (by linarith) hmn
      _ ≤ (1 - u) ^ m := pow_le_pow_left₀ (by linarith) (by linarith) m
  · calc (1 + u) ^ m ≤ (1 + v) ^ m := pow_le_pow_left₀ (by linarith) (by linarith) m
      _ ≤ (1 + v) ^ n := pow_le_pow_right₀ (by linarith) hmn

/-- As many roundings of one kind as of another are as many of a kind that allows for both. -/
theorem join (hw : w < 1) (hlow : 1 - w ≤ (1 - u) * (1 - v)) (hhigh : (1 + u) * (1 + v) ≤ 1 + w)
    (h : Near u n a b) (h' : Near v n b x) : Near w n a x := by
  obtain ⟨hu, hu', s, hs, hs', rfl⟩ := h
  obtain ⟨hv, hv', t, ht, ht', rfl⟩ := h'
  have hs0 : 0 ≤ s := (pow_nonneg (by linarith) n : 0 ≤ (1 - u) ^ n).trans hs
  have ht0 : 0 ≤ t := (pow_nonneg (by linarith) n : 0 ≤ (1 - v) ^ n).trans ht
  refine ⟨by nlinarith, hw, t * s, ?_, ?_, by ring⟩
  · calc (1 - w) ^ n ≤ ((1 - u) * (1 - v)) ^ n := pow_le_pow_left₀ (by linarith) hlow n
      _ = (1 - v) ^ n * (1 - u) ^ n := by rw [mul_pow, mul_comm]
      _ ≤ t * s := mul_le_mul ht hs (pow_nonneg (by linarith) n) ht0
  · calc t * s ≤ (1 + v) ^ n * (1 + u) ^ n := mul_le_mul ht' hs' hs0 (by positivity)
      _ = ((1 + u) * (1 + v)) ^ n := by rw [mul_pow, mul_comm]
      _ ≤ (1 + w) ^ n := pow_le_pow_left₀ (by positivity) hhigh n

/-- The reciprocal has a slightly larger error. -/
theorem inv (hv : v < 1) (hlow : (1 - v) * (1 + u) ≤ 1) (hhigh : 1 ≤ (1 + v) * (1 - u))
    (h : Near u n a x) : Near v n a⁻¹ x⁻¹ := by
  obtain ⟨hu, hu', t, ht, ht', rfl⟩ := h
  have hpos : 0 < (1 - u) ^ n := pow_pos (by linarith) n
  have htpos : 0 < t := hpos.trans_le ht
  have hv0 : 0 ≤ v := by nlinarith
  refine ⟨hv0, hv, t⁻¹, ?_, ?_, by rw [mul_inv]⟩
  · rw [← one_div, le_div_iff₀ htpos]
    calc (1 - v) ^ n * t ≤ (1 - v) ^ n * (1 + u) ^ n :=
          mul_le_mul_of_nonneg_left ht' (pow_nonneg (by linarith) n)
      _ = ((1 - v) * (1 + u)) ^ n := (mul_pow _ _ n).symm
      _ ≤ 1 := pow_le_one₀ (mul_nonneg (by linarith) (by linarith)) hlow
  · rw [← one_div, div_le_iff₀ htpos]
    calc 1 ≤ ((1 + v) * (1 - u)) ^ n := one_le_pow₀ hhigh
      _ = (1 + v) ^ n * (1 - u) ^ n := mul_pow _ _ n
      _ ≤ (1 + v) ^ n * t := mul_le_mul_of_nonneg_left ht (by positivity)

/-- The roundings as one relative error. -/
theorem abs_sub_le (hn : n * u < 1) (hc : n * u ≤ c * (1 - n * u)) (h : Near u n a x) :
    |a - x| ≤ c * |x| := by
  obtain ⟨hu, hu', t, ht, ht', rfl⟩ := h
  have hlow : 1 - n * u ≤ (1 - u) ^ n := by
    simpa only [mul_neg, ← sub_eq_add_neg] using one_add_mul_le_pow (by linarith : -2 ≤ -u) n
  have hhigh : (1 + u) ^ n * (1 - n * u) ≤ 1 := by
    calc (1 + u) ^ n * (1 - n * u) ≤ (1 + u) ^ n * (1 - u) ^ n := by gcongr
      _ = (1 - u ^ 2) ^ n := by rw [← mul_pow]; ring
      _ ≤ 1 := pow_le_one₀ (by nlinarith) (by nlinarith)
  have hnu : 0 ≤ n * u := by positivity
  have hc0 : 0 ≤ c := by
    by_contra hneg
    nlinarith
  have hbound : |t - 1| ≤ c := by
    rw [abs_le]
    constructor
    · nlinarith
    · have : t * (1 - n * u) ≤ 1 := by nlinarith
      nlinarith
  calc |x * t - x| = |x| * |t - 1| := by rw [← abs_mul]; ring_nf
    _ ≤ |x| * c := by gcongr
    _ = c * |x| := mul_comm _ _

end Near

end Counting

end ListCalc
