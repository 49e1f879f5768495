import ListCalc.Operator.Lists
import ListCalc.Proofs.Operator.WholePower

/-!
# Proofs — when an operator fails

An operator that coerces its operands fails in two ways.  An operand that is no data is not
coercible, and the fault names the left one if it is one (`Uncoercible`); that is all that can
happen to a comparison and to logic.  Numbers can be refused by division, remainder and power;
`Arith.Refuses` says which, with the fault that each gives, and `range` refuses to list too many.

* `coerced_eq_error_iff`: the step from operands to numbers, once for all the operators.
* `Decimal.power_eq_error_iff` and `Arith.numbers_eq_error_iff`: what is refused.
* `operators_fail_exactly`: both together.
-/

namespace ListCalc

/-! ### Operands that are no data -/

/-- An operand is no data, and the fault names the kind of the first that is none. -/
def Uncoercible (a b : Value) (fault : OperatorFault) : Prop :=
  ¬ a.IsData ∧ fault = .notCoercible a.kind ∨
    a.IsData ∧ ¬ b.IsData ∧ fault = .notCoercible b.kind

/-- What has a result of data only, and names the kind of anything else. -/
structure Coerces {α : Type} (coerce : Value → Except OperatorFault α) : Prop where
  data : ∀ v, v.IsData → ∃ x, coerce v = .ok x
  other : ∀ v, ¬ v.IsData → coerce v = .error (.notCoercible v.kind)

/-- What is data counts for a number. -/
theorem Value.coerces_toNumber (h : Heap) : Coerces (Value.toNumber h) where
  data v hv := by
    obtain ⟨n, hn, -⟩ := toNumber_of_isData (h := h) hv
    exact ⟨n, hn⟩
  other v hv := by
    cases v with
    | symbol s => rfl
    | callable c => rfl
    | _ => exact absurd trivial hv

/-- What is data counts for a truth value. -/
theorem Value.coerces_isTruthy (h : Heap) : Coerces (Value.isTruthy h) where
  data v hv := ⟨_, isTruthy_eq hv⟩
  other v hv := by
    cases v with
    | symbol s => rfl
    | callable c => rfl
    | _ => exact absurd trivial hv

theorem Value.exists_of_kind_boolean {v : Value} (h : v.kind = "Boolean") :
    ∃ p, v = .boolean p := by
  cases v with
  | boolean p => exact ⟨p, rfl⟩
  | _ => simp [kind] at h

/-- What coerces both operands, the left one first, fails on one that is no data or after it has
coerced them. -/
theorem coerced_eq_error_iff {α β : Type} {coerce : Value → Except OperatorFault α}
    (hcoerce : Coerces coerce) {work : α → α → Except OperatorFault β} {a b : Value}
    {fault : OperatorFault} :
    (coerce a >>= fun m => coerce b >>= fun n => work m n) = .error fault ↔
      Uncoercible a b fault ∨
      ∃ m n, coerce a = .ok m ∧ coerce b = .ok n ∧ work m n = .error fault := by
  by_cases ha : a.IsData
  · obtain ⟨m, hm⟩ := hcoerce.data a ha
    by_cases hb : b.IsData
    · obtain ⟨n, hn⟩ := hcoerce.data b hb
      simp [Uncoercible, ha, hb, hm, hn, bind, Except.bind]
    · have hn := hcoerce.other b hb
      simp [Uncoercible, ha, hb, hm, hn, bind, Except.bind, eq_comm]
  · have hm := hcoerce.other a ha
    simp [Uncoercible, ha, hm, bind, Except.bind, eq_comm]

theorem Except.map_eq_error_iff {ε α β : Type} {x : Except ε α} {f : α → β} {e : ε} :
    x.map f = .error e ↔ x = .error e := by
  cases x with
  | error e' => simp [Except.map]
  | ok a => exact ⟨nofun, nofun⟩

/-! ### Powers -/

/-- A guard fails with its own fault, or else the result does. -/
theorem guarded_eq_error_iff {α : Type} {c : Prop} [Decidable c] {e fault : OperatorFault}
    {result : Except OperatorFault α} :
    (if c then .error e else result) = .error fault ↔
      fault = e ∧ c ∨ ¬ c ∧ result = .error fault := by
  by_cases hc : c <;> simp [hc, eq_comm]

theorem guarded_ok_eq_error_iff {α : Type} {c : Prop} [Decidable c] {e fault : OperatorFault}
    {x : α} :
    (if c then .error e else .ok x : Except OperatorFault α) = .error fault ↔ fault = e ∧ c := by
  rw [guarded_eq_error_iff]
  exact or_iff_left fun h => nomatch h.2

/-- A power of integers fails for its exponent only. -/
theorem integerPower_eq_error_iff {x e : Int} {fault : OperatorFault} :
    integerPower x e = .error fault ↔ fault = .negativeExponent ∧ e < 0 ∨
      fault = .exponentTooLarge (.integer e) ∧ 2 ^ 32 - 1 < e := by
  have hlimit : e > maxIntegerExponent ↔ 2 ^ 32 - 1 < e := by
    rw [maxIntegerExponent]
    omega
  rw [integerPower, guarded_eq_error_iff, guarded_ok_eq_error_iff, hlimit]
  refine or_congr_right ⟨And.right, fun h => ⟨by omega, h⟩⟩

namespace Decimal

/-- The power with a whole exponent is refused: the exponent is no word, whatever the base is, or
the power of zero would be a reciprocal. -/
def RefusesWhole (base exponent : Decimal) (fault : OperatorFault) : Prop :=
  ∃ k : Int, exponent.toRat = k ∧
    (fault = .exponentTooLarge (.decimal exponent) ∧ (k < -2 ^ 63 ∨ 2 ^ 63 ≤ k) ∨
      fault = .divisionByZero ∧ -2 ^ 63 ≤ k ∧ k < 0 ∧ base.toRat = 0)

/-- The power with an exponent that is not whole is refused: it is no real number, or the power of
zero would be a reciprocal, or the exponential would be asked for too much. -/
def RefusesFraction (base exponent : Decimal) (fault : OperatorFault) : Prop :=
  (∀ k : Int, exponent.toRat ≠ k) ∧
    (fault = .notReal ∧ base.toRat < 0 ∨
      fault = .divisionByZero ∧ base.toRat = 0 ∧ exponent.toRat < 0 ∨
      fault = .exponentTooLarge (.decimal exponent) ∧ 0 < base.toRat ∧
        10 ^ 7 < |(base.ln.mulExact exponent).round.toRat|)

/-- A power by logarithm fails for its base, or for an exponent that is too large. -/
theorem pow_eq_error_iff {base exponent : Decimal} {fault : OperatorFault} :
    base.pow exponent = .error fault ↔
      fault = .notReal ∧ base.toRat < 0 ∨
      fault = .divisionByZero ∧ base.toRat = 0 ∧ exponent.toRat < 0 ∨
      fault = .exponentTooLarge (.decimal exponent) ∧ 0 < base.toRat ∧
        10 ^ 7 < |(base.ln.mulExact exponent).round.toRat| := by
  rw [pow, guarded_eq_error_iff, ← toRat_neg]
  rcases lt_trichotomy base.toRat 0 with hneg | hzero | hpos
  · simp [hneg, hneg.ne, hneg.le.not_gt]
  · rw [if_pos (isZero_iff.mpr hzero), guarded_eq_error_iff, ← toRat_neg]
    have hok : (if exponent.isZero then .ok one else .ok zero : Except OperatorFault Decimal) ≠
        .error fault := by
      split <;> exact nofun
    simp [hzero, hok]
  · rw [if_neg (mt isZero_iff.mp hpos.ne'), guarded_ok_eq_error_iff, maxExpArgument_lt_iff]
    simp [hpos, hpos.ne', hpos.le.not_gt]

/-- A power of decimals, by whether the exponent is whole. -/
theorem power_eq_error_iff {base exponent : Decimal} {fault : OperatorFault} :
    base.power exponent = .error fault ↔
      base.RefusesWhole exponent fault ∨ base.RefusesFraction exponent fault := by
  by_cases hwhole : ∃ k : Int, exponent.toRat = k
  · obtain ⟨k, hk⟩ := hwhole
    have hfraction : ¬ base.RefusesFraction exponent fault := fun h => h.1 k hk
    rw [power_of_whole base hk, guarded_eq_error_iff, guarded_ok_eq_error_iff,
      or_iff_left hfraction]
    constructor
    · rintro (⟨rfl, hout⟩ | ⟨hword, rfl, hneg, hzero⟩)
      · exact ⟨k, hk, .inl ⟨rfl, by omega⟩⟩
      · exact ⟨k, hk, .inr ⟨rfl, by omega, hneg, hzero⟩⟩
    · rintro ⟨k', hk', hreason⟩
      obtain rfl : k' = k := Int.cast_injective (hk'.symm.trans hk)
      rcases hreason with ⟨rfl, hout⟩ | ⟨rfl, hlow, hneg, hzero⟩
      · exact .inl ⟨rfl, by omega⟩
      · exact .inr ⟨by omega, rfl, hneg, hzero⟩
  · have hfraction : ∀ k : Int, exponent.toRat ≠ k := not_exists.mp hwhole
    have hnot : ¬ base.RefusesWhole exponent fault := fun ⟨k, hk, _⟩ => hwhole ⟨k, hk⟩
    rw [power_of_fraction base hfraction, pow_eq_error_iff, or_iff_right hnot, RefusesFraction]
    exact (and_iff_right hfraction).symm

end Decimal

/-! ### Arithmetic -/

namespace Arith

/-- The operation refuses two numbers with this fault. -/
def Refuses : Arith → Number → Number → OperatorFault → Prop
  | sum, _, _, _ | sub, _, _, _ | mul, _, _, _ => False
  | div, _, n, fault | mod, _, n, fault        => fault = .divisionByZero ∧ n.toRat = 0
  | pow, .integer _, .integer e, fault         =>
    fault = .negativeExponent ∧ e < 0 ∨ fault = .exponentTooLarge (.integer e) ∧ 2 ^ 32 - 1 < e
  | pow, m, n, fault                           =>
    m.toDecimal.RefusesWhole n.toDecimal fault ∨ m.toDecimal.RefusesFraction n.toDecimal fault

/-- Arithmetic on integers fails exactly where the operation refuses. -/
theorem integers_eq_error_iff {op : Arith} {x y : Int} {fault : OperatorFault} :
    op.integers x y = .error fault ↔ op.Refuses (.integer x) (.integer y) fault := by
  have hzero : (Number.integer y).toRat = 0 ↔ y = 0 := Int.cast_eq_zero
  cases op with
  | sum | sub | mul => exact ⟨nofun, nofun⟩
  | div | mod => rw [integers, guarded_ok_eq_error_iff, Refuses, hzero]
  | pow => exact integerPower_eq_error_iff

/-- Arithmetic on decimals fails exactly where the operation refuses. -/
theorem decimals_eq_error_iff {op : Arith} {m n : Number} {fault : OperatorFault}
    (hdecimal : ∀ x y, m = .integer x → n = .integer y → False) :
    op.decimals m.toDecimal n.toDecimal = .error fault ↔ op.Refuses m n fault := by
  have hzero : n.toDecimal.isZero = true ↔ n.toRat = 0 := by
    rw [Decimal.isZero_iff, Number.toRat_toDecimal]
  cases op with
  | sum | sub | mul => exact ⟨nofun, nofun⟩
  | div | mod => rw [decimals, guarded_ok_eq_error_iff, Refuses, hzero]
  | pow =>
    rw [decimals, Decimal.power_eq_error_iff, Refuses]
    exact hdecimal

/-- An operation on numbers fails exactly if it refuses them. -/
theorem numbers_eq_error_iff {op : Arith} {m n : Number} {fault : OperatorFault} :
    op.numbers m n = .error fault ↔ op.Refuses m n fault := by
  cases m with
  | integer x =>
    cases n with
    | integer y => exact Except.map_eq_error_iff.trans integers_eq_error_iff
    | decimal e => exact Except.map_eq_error_iff.trans (decimals_eq_error_iff nofun)
  | decimal d => cases n <;> exact Except.map_eq_error_iff.trans (decimals_eq_error_iff nofun)

/-- An operation fails on operands that are no data and on numbers that it refuses; the conjunction
of two truth values never fails. -/
theorem apply_eq_error_iff {op : Arith} {h : Heap} {a b : Value} {fault : OperatorFault} :
    op.apply h a b = .error fault ↔
      Uncoercible a b fault ∨
      ¬ (op = mod ∧ a.kind = "Boolean" ∧ b.kind = "Boolean") ∧
        ∃ m n, a.toNumber h = .ok m ∧ b.toNumber h = .ok n ∧ op.Refuses m n fault := by
  by_cases hmod : op = mod ∧ a.kind = "Boolean" ∧ b.kind = "Boolean"
  · obtain ⟨rfl, ha, hb⟩ := hmod
    obtain ⟨p, rfl⟩ := Value.exists_of_kind_boolean ha
    obtain ⟨q, rfl⟩ := Value.exists_of_kind_boolean hb
    simp [apply, Uncoercible, Value.IsData, Value.kind]
  · rw [apply]
    · rw [coerced_eq_error_iff (Value.coerces_toNumber h)]
      simp only [hmod, not_false_eq_true, true_and, ← numbers_eq_error_iff]
      refine or_congr_right ?_
      refine exists_congr fun m => exists_congr fun n => and_congr_right fun _ =>
        and_congr_right fun _ => ?_
      exact Except.map_eq_error_iff
    · rintro p q rfl rfl rfl
      exact hmod ⟨rfl, rfl, rfl⟩

end Arith

/-! ### Comparison, logic and ranges -/

/-- A comparison fails only for operands that are no data. -/
theorem Comparison.apply_eq_error_iff {op : Comparison} {h : Heap} {a b : Value}
    {fault : OperatorFault} : op.apply h a b = .error fault ↔ Uncoercible a b fault := by
  rw [apply, coerced_eq_error_iff (Value.coerces_toNumber h)]
  refine or_iff_left ?_
  rintro ⟨m, n, -, -, hok⟩
  cases hok

/-- Logic fails only for operands that are no data. -/
theorem Logic.apply_eq_error_iff {op : Logic} {h : Heap} {a b : Value} {fault : OperatorFault} :
    op.apply h a b = .error fault ↔ Uncoercible a b fault := by
  rw [apply, coerced_eq_error_iff (Value.coerces_isTruthy h)]
  refine or_iff_left ?_
  rintro ⟨m, n, -, -, hok⟩
  cases hok

/-- The number of whole steps from one decimal up to another. -/
theorem toInteger_difference {low high : Decimal} (hle : low.toRat ≤ high.toRat) :
    (Number.decimal (high.difference low)).toInteger = ⌊high.toRat - low.toRat⌋ := by
  rw [Number.toInteger, Decimal.coeff_withScale_zero, Decimal.toRat_difference, Arith.truncated,
    if_pos (sub_nonneg.mpr hle)]

/-- A range is refused exactly if it would be longer than `maxRangeLength`. -/
theorem rangeItems?_eq_none_iff {m n : Number} :
    rangeItems? m n = none ↔ 2 ^ 20 ≤ ⌊n.toRat - m.toRat⌋ := by
  have hdecimals (low high : Decimal) :
      (if high.lt low then some #[]
        else if (Number.decimal (high.difference low)).toInteger + 1 ≤ (maxRangeLength : Int) then
          some (decimalSteps low ((Number.decimal (high.difference low)).toInteger + 1).toNat)
        else none) = none ↔ 2 ^ 20 ≤ ⌊high.toRat - low.toRat⌋ := by
    by_cases hempty : high.lt low = true
    · have hneg : ⌊high.toRat - low.toRat⌋ < 0 :=
        Int.floor_lt.mpr (by simpa using Decimal.lt_iff.mp hempty)
      rw [if_pos hempty]
      exact ⟨nofun, fun h => by omega⟩
    · have hle : low.toRat ≤ high.toRat := not_lt.mp (mt Decimal.lt_iff.mpr hempty)
      rw [if_neg hempty, toInteger_difference hle, maxRangeLength]
      split <;> simp <;> omega
  cases m with
  | integer low =>
    cases n with
    | integer high =>
      have hfloor : ⌊(Number.integer high).toRat - (Number.integer low).toRat⌋ = high - low := by
        simp only [Number.toRat, ← Int.cast_sub, Int.floor_intCast]
      rw [rangeItems?, hfloor, maxRangeLength]
      dsimp only
      split
      · simp
        omega
      · split <;> simp <;> omega
    | decimal high =>
      rw [← Number.toRat_toDecimal (.integer low)]
      exact hdecimals _ high
  | decimal low =>
    rw [← Number.toRat_toDecimal n]
    cases n <;> exact hdecimals low _

/-- A range fails for operands that are no data, and for bounds that are too far apart. -/
theorem range_eq_error_iff {h : Heap} {a b : Value} {fault : OperatorFault} :
    range h a b = .error fault ↔
      Uncoercible a b fault ∨
      ∃ m n, a.toNumber h = .ok m ∧ b.toNumber h = .ok n ∧ 2 ^ 20 ≤ ⌊n.toRat - m.toRat⌋ ∧
        fault = .rangeTooLarge (a.shown h) (b.shown h) := by
  rw [range, coerced_eq_error_iff (Value.coerces_toNumber h)]
  refine or_congr_right ?_
  refine exists_congr fun m => exists_congr fun n => and_congr_right fun _ =>
    and_congr_right fun _ => ?_
  rw [← rangeItems?_eq_none_iff]
  cases rangeItems? m n with
  | some items => exact ⟨nofun, fun h => nomatch h.1⟩
  | none => exact ⟨fun h => ⟨rfl, (Except.error.inj h).symm⟩, fun h => congrArg _ h.2.symm⟩

/-! ### All of them -/

/-- **The operators fail exactly when they should.**  Arithmetic, comparison, logic and ranges fail
on operands that are no data, and name the kind of the left one if it is one.  Beyond that
arithmetic fails on the numbers that the operation refuses, a range if it would be too long, and
comparison and logic never. -/
theorem operators_fail_exactly (h : Heap) (a b : Value) (fault : OperatorFault) :
    (∀ op : Arith, op.apply h a b = .error fault ↔
      Uncoercible a b fault ∨
      ¬ (op = .mod ∧ a.kind = "Boolean" ∧ b.kind = "Boolean") ∧
        ∃ m n, a.toNumber h = .ok m ∧ b.toNumber h = .ok n ∧ op.Refuses m n fault) ∧
    (∀ op : Comparison, op.apply h a b = .error fault ↔ Uncoercible a b fault) ∧
    (∀ op : Logic, op.apply h a b = .error fault ↔ Uncoercible a b fault) ∧
    (range h a b = .error fault ↔
      Uncoercible a b fault ∨
      ∃ m n, a.toNumber h = .ok m ∧ b.toNumber h = .ok n ∧ 2 ^ 20 ≤ ⌊n.toRat - m.toRat⌋ ∧
        fault = .rangeTooLarge (a.shown h) (b.shown h)) :=
  ⟨fun _ => Arith.apply_eq_error_iff, fun _ => Comparison.apply_eq_error_iff,
    fun _ => Logic.apply_eq_error_iff, range_eq_error_iff⟩

/-- A zero that is written as a decimal has no reciprocal, one that is an integer no power with a
negative exponent. -/
example : Arith.pow.apply .empty (.decimal ⟨0, 1⟩) (.integer (-1)) = .error .divisionByZero ∧
    Arith.pow.apply .empty (.integer 0) (.integer (-1)) = .error .negativeExponent :=
  ⟨rfl, rfl⟩

end ListCalc
