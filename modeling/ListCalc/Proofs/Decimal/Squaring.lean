import ListCalc.Proofs.Decimal.Rounding

/-!
# Proofs — repeated squaring

The loop of `repeatedSquaring` keeps two numbers, what is multiplied up so far and a square, and
what each of them is a power of.  `repeatedSquaring_induction` says so for any multiplication: a
property of products that one product hands on holds of the whole power.

* `powInteger_eq` and `toRat_powNat`: without roundings the power is exact.
* `near_powRounded`: with a rounding after each product there is one rounding for each unit of the
  exponent.  `near_repeatedSquaring` is the count at any turn of the loop,
  `powRounded_within_roundings` the bounds that it gives.
* `toRat_powInt_of_nonneg` and `abs_powInt_mul_sub_le`: a power with an exponent of either sign.
-/

namespace ListCalc

section Loop

variable {α : Type} {mul : α → α → α}

/-- What holds of the products so far and of the squares, counted by their exponents, holds of the
power. -/
theorem repeatedSquaring_induction (Acc Square : ℕ → α → Prop)
    (multiply : ∀ {i k a s}, Acc i a → Square k s → Acc (i + k) (mul a s))
    (double : ∀ {k s}, Square k s → Square (k + k) (mul s s))
    {i k : ℕ} {acc square : α} (hacc : Acc i acc) (hsquare : Square k square) (n : ℕ) :
    Acc (i + n * k) (repeatedSquaring mul acc square n) := by
  induction n using Nat.strong_induction_on generalizing i k acc square with
  | _ n ih =>
    rw [repeatedSquaring]
    by_cases hzero : n = 0
    · simpa [hzero] using hacc
    · rw [dif_neg hzero]
      have hbit : Acc (i + n % 2 * k) (if n % 2 = 1 then mul acc square else acc) := by
        rcases Nat.mod_two_eq_zero_or_one n with hbit | hbit
        · simpa [hbit] using hacc
        · simpa [hbit] using multiply hacc hsquare
      generalize (if n % 2 = 1 then mul acc square else acc) = next at hbit
      by_cases hlast : n / 2 = 0
      · have hone : n % 2 = n := by omega
        rw [hone] at hbit
        simpa only [if_pos hlast] using hbit
      · have hrest := ih (n / 2) (by omega) hbit (double hsquare)
        have hcount : i + n % 2 * k + n / 2 * (k + k) = i + n * k := by
          calc i + n % 2 * k + n / 2 * (k + k) = i + (n % 2 + 2 * (n / 2)) * k := by ring
            _ = i + n * k := by rw [Nat.mod_add_div]
        rw [hcount] at hrest
        simpa only [if_neg hlast] using hrest

/-- A multiplication that is one of a commutative monoid in some view gives the power there. -/
theorem map_repeatedSquaring {M : Type} [CommMonoid M] (view : α → M)
    (hmul : ∀ a b, view (mul a b) = view a * view b) (acc square : α) (n : ℕ) :
    view (repeatedSquaring mul acc square n) = view acc * view square ^ n := by
  have hacc : view acc = view acc * view square ^ 0 := by simp
  have hsquare : view square = view square ^ 1 := by simp
  have hpower : view (repeatedSquaring mul acc square n) =
      view acc * view square ^ (0 + n * 1) := by
    refine repeatedSquaring_induction (fun i a => view a = view acc * view square ^ i)
      (fun k s => view s = view square ^ k) ?_ ?_ hacc hsquare n
    · intro i k a s ha hs
      rw [hmul, ha, hs, pow_add, mul_assoc]
    · intro k s hs
      rw [hmul, hs, pow_add]
  simpa using hpower

end Loop

/-- The power of an integer is the power. -/
theorem powInteger_eq (base : Int) (n : ℕ) : powInteger base n = base ^ n := by
  have hpower := map_repeatedSquaring (fun n : Int => n) (fun _ _ => rfl) 1 base n
  rw [powInteger]
  simpa using hpower

namespace Decimal

/-! ### Exact powers -/

/-- The exact power of a decimal, whatever scales its products have. -/
@[simp] theorem toRat_powNat (base : Decimal) (n : ℕ) :
    (base.powNat n).toRat = base.toRat ^ n := by
  rw [powNat, map_repeatedSquaring toRat toRat_mulTrimmed, toRat_one, one_mul]

theorem toRat_powInt_of_nonneg (base : Decimal) {n : Int} (hn : 0 ≤ n) :
    (base.powInt n).toRat = base.toRat ^ n.natAbs := by
  rw [powInt, if_neg (not_lt.mpr hn), toRat_powNat]

/-- A negative exponent takes one division, which is off by at most one rounding. -/
theorem abs_powInt_mul_sub_le {base : Decimal} {n : Int} (hn : n < 0) (hbase : base.toRat ≠ 0) :
    |(base.powInt n).toRat * base.toRat ^ n.natAbs - 1| ≤ roundoff / 2 := by
  have hpower : (base.powNat n.natAbs).toRat ≠ 0 := by
    rw [toRat_powNat]
    exact pow_ne_zero _ hbase
  have hdiv := (near_div one hpower).abs_sub_le_of_one
  rw [powInt, if_pos hn, ← toRat_powNat]
  generalize (one.div (base.powNat n.natAbs)).toRat = r at hdiv
  generalize (base.powNat n.natAbs).toRat = p at hdiv hpower
  rw [toRat_one] at hdiv
  calc |r * p - 1| = |(r - 1 / p) * p| := by rw [sub_mul, div_mul_cancel₀ _ hpower]
    _ = |r - 1 / p| * |p| := abs_mul _ _
    _ ≤ roundoff / 2 * |1 / p| * |p| := mul_le_mul_of_nonneg_right hdiv (abs_nonneg p)
    _ = roundoff / 2 := by rw [mul_assoc, ← abs_mul, div_mul_cancel₀ _ hpower, abs_one, mul_one]

/-! ### Rounded powers -/

/-- A rounded product of positive numbers. -/
theorem near_round_mul {a b : Decimal} {A B : ℚ} {i j : ℕ} (ha : Near (roundoff / 2) i a.toRat A)
    (hb : Near (roundoff / 2) j b.toRat B) (hA : 0 < A) (hB : 0 < B) :
    Near (roundoff / 2) (i + (j + 1)) (a.mulTrimmed b).round.toRat (A * B) := by
  have hpos : 0 < (a.mulTrimmed b).toRat := by
    rw [toRat_mulTrimmed]
    exact mul_pos (ha.pos hA) (hb.pos hB)
  have hround := near_round_of_pos hpos
  rw [toRat_mulTrimmed] at hround
  rw [← add_assoc, add_comm]
  exact hround.trans (ha.mul hb)

/-- The rest of the loop, from any product so far and any square: a square with `c` roundings brings
in `c + 1` of them for each unit of the exponent that is left. -/
theorem near_repeatedSquaring {acc square : Decimal} {A S : ℚ} {i c : ℕ}
    (hacc : Near (roundoff / 2) i acc.toRat A) (hsquare : Near (roundoff / 2) c square.toRat S)
    (hA : 0 < A) (hS : 0 < S) (n : ℕ) :
    Near (roundoff / 2) (i + n * (c + 1))
      (repeatedSquaring (fun a b => (a.mulTrimmed b).round) acc square n).toRat (A * S ^ n) := by
  have hstart : Near (roundoff / 2) (i + 0 * (c + 1)) acc.toRat (A * S ^ 0) := by simpa using hacc
  have hfirst : Near (roundoff / 2) c square.toRat (S ^ 1) := by simpa using hsquare
  have hpower : Near (roundoff / 2) (i + (0 + n * 1) * (c + 1))
      (repeatedSquaring (fun a b => (a.mulTrimmed b).round) acc square n).toRat
      (A * S ^ (0 + n * 1)) := by
    -- joining a square takes one rounding more, so the square has one fewer than its share
    refine repeatedSquaring_induction
      (fun m (a : Decimal) => Near (roundoff / 2) (i + m * (c + 1)) a.toRat (A * S ^ m))
      (fun k (s : Decimal) => ∃ d, d + 1 = k * (c + 1) ∧ Near (roundoff / 2) d s.toRat (S ^ k))
      ?multiply ?double hstart ⟨c, (one_mul _).symm, hfirst⟩ n
    case multiply =>
      rintro m k a s ha ⟨d, hd, hs⟩
      have hproduct := near_round_mul ha hs (by positivity) (by positivity)
      rwa [hd, add_assoc, ← add_mul, mul_assoc, ← pow_add] at hproduct
    case double =>
      rintro k s ⟨d, hd, hs⟩
      have hproduct := near_round_mul hs hs (by positivity) (by positivity)
      rw [← pow_add] at hproduct
      exact ⟨d + (d + 1), by rw [add_mul, ← hd]; ring, hproduct⟩
  simpa using hpower

/-- A rounded power has as many roundings as its exponent says. -/
theorem near_powRounded {base : Decimal} (hbase : 0 < base.toRat) (n : ℕ) :
    Near (roundoff / 2) n (base.powRounded n).toRat (base.toRat ^ n) := by
  have hhalf : roundoff / 2 < 1 := by linarith [roundoff_lt_one, roundoff_pos]
  have hexact : ∀ d : Decimal, Near (roundoff / 2) 0 d.toRat d.toRat :=
    fun d => .of_eq (half_pos roundoff_pos).le hhalf rfl
  have hpower := near_repeatedSquaring (hexact one) (hexact base) (by simp) hbase n
  rw [powRounded]
  simpa using hpower

/-- **A rounded power loses at most one rounding for each unit of its exponent.**  It is positive
and lies between `(1 - u) ^ n` and `(1 + u) ^ n` times the exact power, where `u` is half of a unit
of the 100th digit of one. -/
theorem powRounded_within_roundings {base : Decimal} (hbase : 0 < base.toRat) (n : ℕ) :
    0 < (base.powRounded n).toRat ∧
      base.toRat ^ n * (1 - 5 / 10 ^ 100) ^ n ≤ (base.powRounded n).toRat ∧
      (base.powRounded n).toRat ≤ base.toRat ^ n * (1 + 5 / 10 ^ 100) ^ n := by
  have hunit : roundoff / 2 = 5 / 10 ^ 100 := by norm_num [roundoff]
  have hpower : 0 < base.toRat ^ n := pow_pos hbase n
  have hnear := near_powRounded hbase n
  rw [hunit] at hnear
  exact ⟨hnear.pos hpower, hnear.between hpower.le⟩

/-- The third power of a number with 101 nines: the base and its square are rounded up to a one
with a digit more than the working digits. -/
theorem powRounded_within_roundings_nines :
    0 < (⟨10 ^ 101 - 1, 101⟩ : Decimal).toRat ∧
      (⟨10 ^ 101 - 1, 101⟩ : Decimal).round = ⟨10 ^ 100, 100⟩ ∧
      (⟨10 ^ 101 - 1, 101⟩ : Decimal).powRounded 3 = ⟨10 ^ 99, 99⟩ ∧
      (1 - 1 / 10 ^ 101 : ℚ) ^ 3 * (1 - 5 / 10 ^ 100) ^ 3 ≤ 1 ∧
      1 ≤ (1 - 1 / 10 ^ 101 : ℚ) ^ 3 * (1 + 5 / 10 ^ 100) ^ 3 := by
  have hbase : (⟨10 ^ 101 - 1, 101⟩ : Decimal).toRat = 1 - 1 / 10 ^ 101 := by norm_num [toRat]
  have hpos : 0 < (⟨10 ^ 101 - 1, 101⟩ : Decimal).toRat := toRat_pos.mpr (by decide)
  have hround : (⟨10 ^ 101 - 1, 101⟩ : Decimal).round = ⟨10 ^ 100, 100⟩ := by decide +kernel
  have hpower : (⟨10 ^ 101 - 1, 101⟩ : Decimal).powRounded 3 = ⟨10 ^ 99, 99⟩ := by decide +kernel
  have hone : (⟨10 ^ 99, 99⟩ : Decimal).toRat = 1 := by norm_num [toRat]
  obtain ⟨-, hlow, hhigh⟩ := powRounded_within_roundings hpos 3
  rw [hpower, hone, hbase] at hlow hhigh
  exact ⟨hpos, hround, hpower, hlow, hhigh⟩

end Decimal

end ListCalc
