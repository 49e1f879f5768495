import ListCalc.Decimal.Series
import ListCalc.Proofs.Decimal.Rounding

/-!
# Proofs — the mantissa of a logarithm

`ln` takes a positive number apart into a mantissa from one up to ten and a power of ten
(`toRat_eq_mantissa`), and halves the mantissa until it is at most 1.3.  `halve_spec` is what the
halvings do: there are at most three of them, they leave more than 0.65, and each of them is one
rounding.  `abs_argument_lt` bounds the argument that this leaves for `atanh`.
-/

namespace ListCalc

namespace Decimal

/-- The digits of a number with the point after the first one. -/
def mantissa (x : Decimal) : Decimal := ⟨x.coeff, digitCount x.coeff.natAbs - 1⟩

/-- A mantissa has one digit before the point. -/
theorem magnitude_mantissa (x : Decimal) : x.mantissa.magnitude = 1 := by
  simp [magnitude, mantissa]

theorem mantissa_pos {x : Decimal} (hx : 0 < x.toRat) : 0 < x.mantissa.toRat :=
  toRat_pos.mpr (toRat_pos.mp hx : 0 < x.coeff)

theorem one_le_mantissa {x : Decimal} (hx : 0 < x.toRat) : 1 ≤ x.mantissa.toRat := by
  have hle := (zpow_magnitude (mantissa_pos hx)).1
  rwa [magnitude_mantissa, sub_self, zpow_zero] at hle

theorem mantissa_lt_ten (x : Decimal) : x.mantissa.toRat < 10 := by
  have hlt := abs_toRat_lt x.mantissa
  rw [magnitude_mantissa, zpow_one] at hlt
  exact (le_abs_self _).trans_lt hlt

/-- A number is its mantissa times a power of ten. -/
theorem toRat_eq_mantissa (x : Decimal) :
    x.toRat = x.mantissa.toRat * 10 ^ (x.magnitude - 1) := by
  have hexp : -x.scale = -((digitCount x.coeff.natAbs : Int) - 1) + (x.magnitude - 1) := by
    rw [magnitude]
    ring
  rw [toRat, toRat, hexp, zpow_add₀ (by norm_num), mantissa]
  ring

/-! ### Halving -/

theorem toRat_mantissaBound : mantissaBound.toRat = 13 / 10 := by
  norm_num [mantissaBound, toRat]

/-- `m'` is left of `m` by `h` halvings down to the bound. -/
structure Halved (m m' : Decimal) (h : Nat) : Prop where
  le_bound : m'.toRat ≤ 13 / 10
  near : Near (roundoff / 2) h m'.toRat (m.toRat / 2 ^ h)
  above : h = 0 ∧ m' = m ∨ 13 / 20 < m'.toRat

/-- Halving is off by half a rounding at most. -/
theorem near_div_two (m : Decimal) :
    Near (roundoff / 2) 1 (m.div (ofInt 2)).toRat (m.toRat / 2) := by
  have hdiv := near_div m (b := ofInt 2) (by simp)
  rwa [toRat_ofInt, Int.cast_ofNat] at hdiv

/-- One halving brings a number under the bound for one halving less. -/
theorem div_two_le {m : Decimal} (hm : 0 < m.toRat) {steps : Nat} (hsteps : steps < 3)
    (hle : m.toRat ≤ 2 ^ (steps + 1) * (13 / 10 - (steps + 1 : Nat) / 100)) :
    (m.div (ofInt 2)).toRat ≤ 2 ^ steps * (13 / 10 - steps / 100) := by
  have hgrowth := abs_le_of_near (near_div_two m) (abs_of_pos (half_pos hm)).le
  have hupper := (le_abs_self _).trans hgrowth
  have hcases : steps = 0 ∨ steps = 1 ∨ steps = 2 := by omega
  rcases hcases with rfl | rfl | rfl <;> norm_num at hle ⊢ <;> linarith

/-- The halvings of a number that is not too large for them. -/
theorem halved_halve (steps : Nat) (hsteps : steps ≤ 3) {m : Decimal} (hm : 0 < m.toRat)
    (hle : m.toRat ≤ 2 ^ steps * (13 / 10 - steps / 100)) (h : Nat) :
    ∃ m' k, halve steps m h = (m', h + k) ∧ k ≤ steps ∧ Halved m m' k := by
  have hhalf : roundoff / 2 < 1 := by norm_num [roundoff]
  have hstop : ∀ {d : Decimal}, d.toRat ≤ 13 / 10 → Halved d d 0 := fun hd =>
    ⟨hd, .of_eq (half_pos roundoff_pos).le hhalf (by simp), .inl ⟨rfl, rfl⟩⟩
  induction steps generalizing m h with
  | zero => exact ⟨m, 0, rfl, le_rfl, hstop (by simpa using hle)⟩
  | succ steps ih =>
    rw [halve]
    split
    · rename_i habove
      rw [lt_iff, toRat_mantissaBound] at habove
      have hrest := div_two_le hm (by omega) hle
      have hlow := half_le_div_two hm
      obtain ⟨m', k, heq, hk, hm'⟩ := ih (by omega) (by linarith) hrest (h + 1)
      refine ⟨m', k + 1, by rw [heq]; congr 1; ring, by omega, hm'.le_bound, ?_, .inr ?_⟩
      · have hstep := hm'.near.trans ((near_div_two m).div_right (2 ^ k))
        have hpow : m.toRat / 2 / 2 ^ k = m.toRat / 2 ^ (k + 1) := by rw [div_div, pow_succ']
        rwa [hpow] at hstep
      · rcases hm'.above with ⟨-, rfl⟩ | habove'
        · linarith
        · exact habove'
    · rename_i hbelow
      rw [lt_iff, toRat_mantissaBound, not_lt] at hbelow
      exact ⟨m, 0, rfl, Nat.zero_le _, hstop hbelow⟩

/-- **The halvings of a mantissa.**  At most three, and they leave more than 0.65 and at most
1.3. -/
theorem halve_spec {x : Decimal} (hx : 0 < x.toRat) :
    ∃ m h, halve halvingLimit x.mantissa 0 = (m, h) ∧ h ≤ 3 ∧ Halved x.mantissa m h ∧
      13 / 20 < m.toRat := by
  have hlt := mantissa_lt_ten x
  obtain ⟨m, k, heq, hk, hm⟩ := halved_halve halvingLimit le_rfl (mantissa_pos hx)
    (by norm_num [halvingLimit]; linarith) 0
  refine ⟨m, k, by rw [heq, zero_add], hk, hm, ?_⟩
  rcases hm.above with ⟨-, rfl⟩ | habove
  · linarith [one_le_mantissa hx]
  · exact habove

/-- A mantissa of at most 1.3 is not halved. -/
theorem halve_of_le {x : Decimal} (hx : x.mantissa.toRat ≤ 13 / 10) :
    halve halvingLimit x.mantissa 0 = (x.mantissa, 0) := by
  have hstop : ¬ mantissaBound.lt x.mantissa = true := by
    rw [lt_iff, toRat_mantissaBound]
    linarith
  rw [halvingLimit, halve, if_neg hstop]

/-! ### The argument of the series -/

/-- What `atanh` is asked for a mantissa. -/
def argument (m : Decimal) : Decimal := (m.sub one).div (m.add one)

/-- The argument of the series is off by half a rounding at most. -/
theorem near_argument {m : Decimal} (hm : 0 < m.toRat) :
    Near (roundoff / 2) 1 m.argument.toRat ((m.toRat - 1) / (m.toRat + 1)) := by
  have hsum : (m.add one).toRat = m.toRat + 1 := by simp
  have hdiv := near_div (m.sub one) (b := m.add one) (by rw [hsum]; linarith)
  rwa [toRat_sub, hsum, toRat_one] at hdiv

/-- A mantissa near one has an argument near zero. -/
theorem abs_quotient_le {m : ℚ} (hlow : 13 / 20 < m) (hhigh : m ≤ 13 / 10) :
    |(m - 1) / (m + 1)| ≤ 7 / 33 := by
  have hpos : 0 < m + 1 := by linarith
  rw [abs_le, div_le_iff₀ hpos, le_div_iff₀ hpos]
  constructor <;> linarith

theorem abs_argument_lt {m : Decimal} (hlow : 13 / 20 < m.toRat) (hhigh : m.toRat ≤ 13 / 10) :
    |m.argument.toRat| < 11 / 50 := by
  have hle :=
    abs_le_of_near (near_argument (by linarith : 0 < m.toRat)) (abs_quotient_le hlow hhigh)
  norm_num at hle ⊢
  linarith

/-- The arguments that give the logarithms of two and of ten. -/
theorem near_inverse {n : Int} (hn : 3 ≤ n) :
    Near (roundoff / 2) 1 ((ofInt 1).div (ofInt n)).toRat (1 / n) := by
  have hne : (ofInt n).toRat ≠ 0 := by
    rw [toRat_ofInt]
    exact_mod_cast (by omega : n ≠ 0)
  have hdiv := near_div (ofInt 1) hne
  rwa [toRat_ofInt, toRat_ofInt, Int.cast_one] at hdiv

theorem abs_inverse_le {n : Int} (hn : 3 ≤ n) : |((ofInt 1).div (ofInt n)).toRat| ≤ 7 / 20 := by
  have hthree : |(1 : ℚ) / n| ≤ 1 / 3 := by
    have hcast : (3 : ℚ) ≤ n := by exact_mod_cast hn
    rw [abs_of_nonneg (by positivity)]
    exact one_div_le_one_div_of_le (by norm_num) hcast
  have hle := abs_le_of_near (near_inverse hn) hthree
  norm_num at hle ⊢
  linarith

end Decimal

end ListCalc
