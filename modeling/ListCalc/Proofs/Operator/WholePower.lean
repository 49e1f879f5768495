import ListCalc.Proofs.Decimal.Squaring
import ListCalc.Proofs.Operator.Scalar

/-!
# Proofs — powers with a whole exponent

A decimal exponent is whole if its value is, at whatever scale it is written.  `power_of_whole` and
`power_of_fraction` say which way a decimal power is worked out, and when it has no result.

`whole_powers_exact`: with a whole exponent that is not negative a power is exact, as an integer and
as a decimal alike; with a negative one it is the reciprocal up to one rounding.
-/

namespace ListCalc

/-! ### Whole exponents -/

theorem Arith.truncated_intCast (n : Int) : truncated n = n := by
  rw [truncated]
  split
  · exact Int.floor_intCast n
  · exact Int.ceil_intCast n

namespace Decimal

/-- A decimal cut at its point is what its value is without the fraction. -/
theorem coeff_withScale_zero (d : Decimal) : (d.withScale 0).coeff = Arith.truncated d.toRat := by
  rw [withScale]
  split
  · rename_i hzero
    simp [toRat_eq_zero.mpr hzero, Arith.truncated]
  · split
    · rename_i hscale
      have hvalue : d.toRat = (d.coeffAt 0 : Int) := by simpa using toRat_eq_coeffAt hscale
      rw [hvalue, Arith.truncated_intCast]
    · rename_i hscale
      have hplaces : (((d.scale - 0).toNat : Nat) : Int) = d.scale := by omega
      have htens : ((tenPow (d.scale - 0).toNat : Nat) : Int) ≠ 0 := by
        rw [tenPow_eq]
        positivity
      have hvalue : d.toRat = (d.coeff : ℚ) / ((tenPow (d.scale - 0).toNat : Nat) : Int) := by
        rw [Int.cast_natCast, cast_tenPow, hplaces, toRat, zpow_neg, div_eq_mul_inv]
      rw [hvalue, Arith.truncated_div _ htens]

/-- A number is the same without its fraction exactly if it is whole. -/
theorem same_withScale_zero_iff {d : Decimal} :
    (d.withScale 0).same d = true ↔ ∃ k : Int, d.toRat = k := by
  rw [same_iff, toRat_withScale_zero]
  constructor
  · intro h
    exact ⟨_, h.symm⟩
  · rintro ⟨k, hk⟩
    rw [coeff_withScale_zero, hk, Arith.truncated_intCast]

theorem fitsWord_iff {n : Int} : fitsWord n = true ↔ -2 ^ 63 ≤ n ∧ n < 2 ^ 63 := by
  rw [fitsWord, Bool.and_eq_true, decide_eq_true_eq, decide_eq_true_eq]
  norm_num [wordBound]

/-- A power with a whole exponent is worked out by products. -/
theorem power_of_whole (base : Decimal) {exponent : Decimal} {k : Int} (hk : exponent.toRat = k) :
    base.power exponent =
      if ¬ (-2 ^ 63 ≤ k ∧ k < 2 ^ 63) then .error (.exponentTooLarge (.decimal exponent))
      else if k < 0 ∧ base.toRat = 0 then .error .divisionByZero
      else .ok (base.powInt k) := by
  have hwhole : (exponent.withScale 0).coeff = k := by
    rw [coeff_withScale_zero, hk, Arith.truncated_intCast]
  have hzero : base.isZero = true ↔ base.toRat = 0 := isZero_iff
  rw [power, if_pos (same_withScale_zero_iff.mpr ⟨k, hk⟩), hwhole]
  simp only [Bool.not_eq_true', ← Bool.not_eq_true, fitsWord_iff, hzero]

/-- The bound on what the exponential is asked for. -/
theorem maxExpArgument_lt_iff {y : Decimal} :
    (ofInt maxExpArgument).lt y.abs = true ↔ 10 ^ 7 < |y.toRat| := by
  rw [lt_iff, toRat_abs, toRat_ofInt, maxExpArgument]
  norm_num

/-- A power with any other exponent is worked out by logarithm and exponential. -/
theorem power_of_fraction (base : Decimal) {exponent : Decimal}
    (hfraction : ∀ k : Int, exponent.toRat ≠ k) : base.power exponent = base.pow exponent := by
  have hdiffers : ¬ (exponent.withScale 0).same exponent = true := by
    rw [same_withScale_zero_iff]
    exact not_exists.mpr hfraction
  rw [power, if_neg hdiffers]

theorem power_eq_ok (base : Decimal) {exponent : Decimal} {k : Int} (hk : exponent.toRat = k)
    (hword : -2 ^ 63 ≤ k ∧ k < 2 ^ 63) (hdefined : 0 ≤ k ∨ base.toRat ≠ 0) :
    base.power exponent = .ok (base.powInt k) := by
  have hnot : ¬ (k < 0 ∧ base.toRat = 0) := by
    rintro ⟨hneg, hzero⟩
    rcases hdefined with h | h
    · exact not_lt.mpr h hneg
    · exact h hzero
  rw [power_of_whole base hk, if_neg (not_not.mpr hword), if_neg hnot]

end Decimal

/-! ### Powers of integers and of decimals -/

theorem integerPower_of_le (base : Int) {e : Int} (hlow : 0 ≤ e) (hhigh : e ≤ 2 ^ 32 - 1) :
    integerPower base e = .ok (base ^ e.toNat) := by
  have hlimit : ¬ e > maxIntegerExponent := by
    rw [maxIntegerExponent]
    omega
  rw [integerPower, if_neg (not_lt.mpr hlow), if_neg hlimit, powInteger_eq]

/-- Numbers of whole amounts have the power of these as their power, whichever kinds they are. -/
theorem Arith.map_pow_numbers {m n : Number} {x e : Int} (hm : m.toRat = x) (hn : n.toRat = e)
    (hlow : 0 ≤ e) (hhigh : e ≤ 2 ^ 32 - 1) :
    (pow.numbers m n).map Number.toRat = .ok ((x : ℚ) ^ e.toNat) := by
  have hdecimals : ((pow.decimals m.toDecimal n.toDecimal).map Number.decimal).map Number.toRat =
      .ok ((x : ℚ) ^ e.toNat) := by
    have hexponent : n.toDecimal.toRat = e := by rw [Number.toRat_toDecimal, hn]
    have habs : e.natAbs = e.toNat := by omega
    have hvalue : (m.toDecimal.powInt e).toRat = (x : ℚ) ^ e.toNat := by
      rw [Decimal.toRat_powInt_of_nonneg _ hlow, Number.toRat_toDecimal, hm, habs]
    rw [decimals, Decimal.power_eq_ok _ hexponent (by omega) (.inl hlow)]
    exact congrArg Except.ok hvalue
  cases m with
  | integer x' =>
    cases n with
    | integer e' =>
      obtain rfl : x' = x := Int.cast_injective hm
      obtain rfl : e' = e := Int.cast_injective hn
      simp [numbers, integers, integerPower_of_le x' hlow hhigh, Except.map, Number.toRat]
    | decimal d => exact hdecimals
  | decimal d => cases n <;> exact hdecimals

/-- **Powers with a whole exponent are exact.**  A decimal power is the power if the exponent is not
negative, and up to one rounding its reciprocal otherwise; every exponent that is a word has a
result, but for a negative one of zero.  So integers and the decimals that equal them have the same
powers. -/
theorem whole_powers_exact :
    (∀ (base : Decimal) (n : Int), 0 ≤ n → (base.powInt n).toRat = base.toRat ^ n.natAbs) ∧
    (∀ (base : Decimal) (n : Int), n < 0 → base.toRat ≠ 0 →
      |(base.powInt n).toRat * base.toRat ^ n.natAbs - 1| ≤ 5 / 10 ^ 100) ∧
    (∀ (base exponent : Decimal) (n : Int), exponent.toRat = n → -2 ^ 63 ≤ n → n < 2 ^ 63 →
      0 ≤ n ∨ base.toRat ≠ 0 → base.power exponent = .ok (base.powInt n)) ∧
    ∀ (h : Heap) (x e : Int) (dx de : Decimal), 0 ≤ e → e ≤ 2 ^ 32 - 1 → dx.toRat = x →
      de.toRat = e → ∀ a ∈ [Value.integer x, .decimal dx], ∀ b ∈ [Value.integer e, .decimal de],
        ∃ v, Arith.pow.apply h a b = .ok v ∧ v.amount h = (x : ℚ) ^ e.toNat := by
  refine ⟨fun base n hn => base.toRat_powInt_of_nonneg hn, fun base n hn hbase => ?_,
    fun base exponent n hn hlow hhigh hdefined =>
      base.power_eq_ok hn ⟨hlow, hhigh⟩ hdefined, ?_⟩
  · calc |(base.powInt n).toRat * base.toRat ^ n.natAbs - 1|
        ≤ Decimal.roundoff / 2 := Decimal.abs_powInt_mul_sub_le hn hbase
      _ = 5 / 10 ^ 100 := by norm_num [Decimal.roundoff]
  · intro h x e dx de hlow hhigh hx he a ha b hb
    obtain ⟨m, hm, hma⟩ : ∃ m, a.toNumber h = .ok m ∧ m.toRat = x := by
      simp only [List.mem_cons, List.not_mem_nil, or_false] at ha
      rcases ha with rfl | rfl
      · exact ⟨_, rfl, rfl⟩
      · exact ⟨_, rfl, hx⟩
    obtain ⟨n, hn, hnb⟩ : ∃ n, b.toNumber h = .ok n ∧ n.toRat = e := by
      simp only [List.mem_cons, List.not_mem_nil, or_false] at hb
      rcases hb with rfl | rfl
      · exact ⟨_, rfl, rfl⟩
      · exact ⟨_, rfl, he⟩
    obtain ⟨r, hr, hvalue⟩ := exists_of_map_eq_ok (Arith.map_pow_numbers hma hnb hlow hhigh)
    refine ⟨r.toValue, ?_, by rw [r.amount_toValue, hvalue]⟩
    rw [Arith.apply_eq (by simp) hm hn, hr]
    rfl

/-- The power of 0.5 to -3, and that of 2 to 10 with the numbers written as 2.0 and 10.00. -/
theorem whole_powers_exact_half :
    |((⟨5, 1⟩ : Decimal).powInt (-3)).toRat * (1 / 2) ^ 3 - 1| ≤ 5 / 10 ^ 100 ∧
    (⟨5, 1⟩ : Decimal).power ⟨-300, 2⟩ = .ok ((⟨5, 1⟩ : Decimal).powInt (-3)) ∧
    (∃ v, Arith.pow.apply .empty (.integer 2) (.integer 10) = .ok v ∧ v.amount .empty = 1024) ∧
    ∃ v, Arith.pow.apply .empty (.decimal ⟨20, 1⟩) (.decimal ⟨1000, 2⟩) = .ok v ∧
      v.amount .empty = 1024 := by
  have hhalf : (⟨5, 1⟩ : Decimal).toRat = 1 / 2 := by norm_num [Decimal.toRat]
  have hexponent : (⟨-300, 2⟩ : Decimal).toRat = (-3 : Int) := by norm_num [Decimal.toRat]
  have htwo : (⟨20, 1⟩ : Decimal).toRat = (2 : Int) := by norm_num [Decimal.toRat]
  have hten : (⟨1000, 2⟩ : Decimal).toRat = (10 : Int) := by norm_num [Decimal.toRat]
  obtain ⟨-, hnegative, hpower, hpowers⟩ := whole_powers_exact
  have hne : (⟨5, 1⟩ : Decimal).toRat ≠ 0 := by norm_num [hhalf]
  have hreciprocal := hnegative ⟨5, 1⟩ (-3) (by decide) hne
  have hthousand := hpowers .empty 2 10 _ _ (by decide) (by decide) htwo hten
  rw [hhalf] at hreciprocal
  have hvalue : ((2 : Int) : ℚ) ^ (10 : Int).toNat = 1024 := by norm_num [Int.toNat]
  rw [hvalue] at hthousand
  exact ⟨hreciprocal, hpower _ _ (-3) hexponent (by decide) (by decide) (.inr hne),
    hthousand _ (by simp) _ (by simp), hthousand _ (by simp) _ (by simp)⟩

end ListCalc
