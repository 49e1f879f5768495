import ListCalc.Decimal.Digits
import Mathlib.Algebra.Order.Ring.Nat
import Mathlib.Tactic.NormNum

/-!
# Proofs — the digits of a number

`digits_eq_toDigits`: writing by halving gives the usual digit string.  The string is compared with
`fixedDigits`, which writes the last `k` digits one by one: two neighbouring blocks of digits are
one block (`fixedDigits_add`), halving writes a block (`lastDigits_eq`), and a block that is wide
enough is the usual string behind its leading zeros (`dropWhile_fixedDigits`).

`digitCount_le_iff` is what the number of digits says about the number.
-/

namespace ListCalc

theorem tenPow_eq (k : Nat) : tenPow k = 10 ^ k := rfl

/-! ### Digit strings of a fixed width -/

/-- The last `k` digits of `n`, one by one. -/
def fixedDigits : Nat → Nat → List Char
  | 0,     _ => []
  | k + 1, n => fixedDigits k (n / 10) ++ [Nat.digitChar (n % 10)]

theorem fixedDigits_mod (k n : Nat) : fixedDigits k (n % 10 ^ k) = fixedDigits k n := by
  induction k generalizing n with
  | zero => rfl
  | succ k ih =>
    have hdiv : n % 10 ^ (k + 1) / 10 = n / 10 % 10 ^ k := by
      rw [Nat.pow_succ', Nat.mod_mul_right_div_self]
    have hmod : n % 10 ^ (k + 1) % 10 = n % 10 := by
      rw [Nat.pow_succ', Nat.mod_mul_right_mod]
    rw [fixedDigits, fixedDigits, hdiv, hmod, ih]

/-- The digits of a number are those of its quotient and then those of its remainder. -/
theorem fixedDigits_add (j k n : Nat) :
    fixedDigits (j + k) n = fixedDigits j (n / 10 ^ k) ++ fixedDigits k n := by
  induction k generalizing n with
  | zero => simp [fixedDigits]
  | succ k ih =>
    rw [← Nat.add_assoc, fixedDigits, ih, fixedDigits, Nat.div_div_eq_div_mul, Nat.pow_succ',
      List.append_assoc]

/-- Halving the width over and over gives the digits one by one. -/
theorem lastDigits_eq (l n : Nat) (rest : List Char) :
    lastDigits l n rest = fixedDigits (2 ^ l) n ++ rest := by
  induction l generalizing n rest with
  | zero => simp [lastDigits, fixedDigits]
  | succ l ih =>
    rw [lastDigits, tenPow_eq, Nat.pow_eq, ih, ih, fixedDigits_mod, Nat.pow_succ',
      Nat.two_mul, fixedDigits_add, List.append_assoc]

theorem fixedDigits_zero (k : Nat) : fixedDigits k 0 = List.replicate k '0' := by
  induction k with
  | zero => rfl
  | succ k ih => simp [fixedDigits, ih, List.replicate_succ', Nat.digitChar]

theorem digitChar_ne_zero {d : Nat} (h : 0 < d) (hd : d < 10) : Nat.digitChar d ≠ '0' := by
  have : d = 1 ∨ d = 2 ∨ d = 3 ∨ d = 4 ∨ d = 5 ∨ d = 6 ∨ d = 7 ∨ d = 8 ∨ d = 9 := by omega
  rcases this with rfl | rfl | rfl | rfl | rfl | rfl | rfl | rfl | rfl <;> decide

/-- Without its leading zeros, a digit string that is wide enough is the usual one. -/
theorem dropWhile_fixedDigits {k n : Nat} (hn : 0 < n) (h : n < 10 ^ k) :
    (fixedDigits k n).dropWhile (· == '0') = Nat.toDigits 10 n := by
  induction k generalizing n with
  | zero => omega
  | succ k ih =>
    rw [fixedDigits]
    by_cases hlt : n < 10
    · have hzero : n / 10 = 0 := Nat.div_eq_of_lt hlt
      have hne := digitChar_ne_zero hn hlt
      rw [hzero, fixedDigits_zero, Nat.mod_eq_of_lt hlt, Nat.toDigits_of_lt_base hlt,
        List.dropWhile_append_of_pos (by simp), List.dropWhile_cons_of_neg (by simpa using hne)]
    · have hpos : 0 < n / 10 := Nat.div_pos (by omega) (by decide)
      have hsmall : n / 10 < 10 ^ k := by
        rw [Nat.div_lt_iff_lt_mul (by decide), ← Nat.pow_succ]; exact h
      have hne : (Nat.toDigits 10 (n / 10)).isEmpty = false := by
        simp [Nat.toDigits_ne_nil]
      have hdigits : Nat.toDigits 10 n = Nat.toDigits 10 (n / 10) ++ [Nat.digitChar (n % 10)] :=
        Nat.toDigits_of_base_le (by decide) (Nat.le_of_not_lt hlt)
      rw [List.dropWhile_append, ih hpos hsmall, hne, hdigits]
      simp

/-- So many levels are enough for all digits of the number. -/
theorem lt_pow_levels (n : Nat) : n < 10 ^ 2 ^ ((n.log2 + 1).log2 + 1) := by
  have h₁ : n < 2 ^ (n.log2 + 1) := Nat.lt_log2_self
  have h₂ : n.log2 + 1 < 2 ^ ((n.log2 + 1).log2 + 1) := Nat.lt_log2_self
  calc n < 2 ^ (n.log2 + 1) := h₁
    _ ≤ 10 ^ (n.log2 + 1) := Nat.pow_le_pow_left (by decide) _
    _ ≤ 10 ^ 2 ^ ((n.log2 + 1).log2 + 1) := Nat.pow_le_pow_right (by decide) (Nat.le_of_lt h₂)

/-- Writing by halving gives the usual digit string. -/
theorem digits_eq_toDigits (n : Nat) : digits n = Nat.toDigits 10 n := by
  unfold digits
  split
  · rfl
  · rename_i h
    have hlong : 0 < longBound := by norm_num [longBound, tenPow_eq]
    have hpos : 0 < n := hlong.trans_le (Nat.le_of_not_lt h)
    rw [lastDigits_eq, List.append_nil, dropWhile_fixedDigits hpos (lt_pow_levels n)]

theorem digitCount_pos (n : Nat) : 0 < digitCount n := by
  rw [digitCount, digits_eq_toDigits]
  exact Nat.length_toDigits_pos

/-- A number has at most `k` digits if it is below `10 ^ k`. -/
theorem digitCount_le_iff {n k : Nat} (h : 0 < k) : digitCount n ≤ k ↔ n < 10 ^ k := by
  rw [digitCount, digits_eq_toDigits]
  exact Nat.length_toDigits_le_iff (by decide) h

end ListCalc
