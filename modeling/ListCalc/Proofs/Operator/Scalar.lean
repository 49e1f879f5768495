import ListCalc.Operator.Scalar
import ListCalc.Proofs.Decimal.Exact
import ListCalc.Proofs.Value.Bisimilar
import Mathlib.Data.Rat.Floor
import Mathlib.Data.Sign.Basic

/-!
# Proofs — arithmetic and comparison over the rational numbers

Data of every kind has an `amount`, the rational number that it counts for.  `Arith.meaning` and
`Comparison.relates` say what an operator does with amounts, whether its operands are integers or
decimals: `Arith.map_apply` and `Comparison.apply_eq` are the step from values to amounts.

`coerced_arithmetic_exact` collects what follows for two operands of any kind.
-/

namespace ListCalc

/-! ### Amounts -/

/-- The value of a number. -/
def Number.toRat : Number → ℚ
  | .integer n => n
  | .decimal d => d.toRat

/-- The rational number that a value counts for; symbols and operators count for nothing. -/
def Value.amount (h : Heap) : Value → ℚ
  | .decimal d => d.toRat
  | .integer n => n
  | .boolean b => if b then 1 else 0
  | .text s    => s.length
  | .list r    => (h.get r).size
  | .symbol _ | .callable _ => 0

namespace Number

@[simp] theorem toRat_toDecimal (n : Number) : n.toDecimal.toRat = n.toRat := by
  cases n with
  | integer n => exact Decimal.toRat_ofInt n
  | decimal d => rfl

@[simp] theorem amount_toValue (h : Heap) (n : Number) : n.toValue.amount h = n.toRat := by
  cases n <;> rfl

/-- The order of numbers is that of their amounts. -/
theorem order_eq (a b : Number) : a.order b = compare a.toRat b.toRat := by
  have hdecimals : a.toDecimal.order b.toDecimal = compare a.toRat b.toRat := by
    rw [Decimal.order_eq_compare, toRat_toDecimal, toRat_toDecimal]
  cases a with
  | integer a =>
    cases b with
    | integer b =>
      exact Decimal.compare_eq_of_imp Int.cast_lt.mpr (fun h => h ▸ rfl) Int.cast_lt.mpr
    | decimal b => exact hdecimals
  | decimal a => cases b <;> exact hdecimals

end Number

/-- A value that is data counts for a number of its amount, and for a decimal only if it is one. -/
theorem Value.toNumber_of_isData {h : Heap} {v : Value} (hv : v.IsData) :
    ∃ n, v.toNumber h = .ok n ∧ n.toRat = v.amount h ∧
      (n.toValue.kind = "Decimal" ↔ v.kind = "Decimal") := by
  cases v with
  | decimal d => exact ⟨_, rfl, rfl, by simp [Number.toValue, kind]⟩
  | integer n => exact ⟨_, rfl, rfl, by simp [Number.toValue, kind]⟩
  | boolean b => exact ⟨_, rfl, by cases b <;> rfl, by simp [Number.toValue, kind]⟩
  | text s => exact ⟨_, rfl, by simp [Number.toRat, amount], by simp [Number.toValue, kind]⟩
  | list r => exact ⟨_, rfl, by simp [Number.toRat, amount], by simp [Number.toValue, kind]⟩
  | symbol s => exact hv.elim
  | callable c => exact hv.elim

/-- A value counts as true unless its amount is zero. -/
theorem Value.isTruthy_eq {h : Heap} {v : Value} (hv : v.IsData) :
    v.isTruthy h = .ok (decide (v.amount h ≠ 0)) := by
  cases v with
  | decimal d =>
    exact congrArg Except.ok
      (Bool.eq_iff_iff.mpr (by simp [amount, Decimal.isZero, Decimal.toRat_eq_zero]))
  | integer n => exact congrArg Except.ok (Bool.eq_iff_iff.mpr (by simp [amount]))
  | boolean b => exact congrArg Except.ok (by cases b <;> simp [amount])
  | text s => exact congrArg Except.ok (Bool.eq_iff_iff.mpr (by simp [amount]))
  | list r => exact congrArg Except.ok (Bool.eq_iff_iff.mpr (by simp [amount]))
  | symbol s => exact hv.elim
  | callable c => exact hv.elim

/-! ### Arithmetic -/

namespace Arith

/-- What an operation means for amounts, if it is exact there. -/
def meaning : Arith → Option (ℚ → ℚ → Except OperatorFault ℚ)
  | sum => some fun x y => .ok (x + y)
  | sub => some fun x y => .ok (x - y)
  | mul => some fun x y => .ok (x * y)
  | mod => some fun x y => if y = 0 then .error .divisionByZero else .ok (x - y * ⌊x / y⌋)
  | div | pow => none

variable {op : Arith} {f : ℚ → ℚ → Except OperatorFault ℚ}

theorem map_integers (hop : op.meaning = some f) (a b : Int) :
    (op.integers a b).map (fun n : Int => (n : ℚ)) = f a b := by
  cases op with
  | sum | sub | mul =>
    simp only [meaning, Option.some.injEq] at hop
    simp [← hop, integers, Except.map]
  | mod =>
    simp only [meaning, Option.some.injEq] at hop
    by_cases hb : b = 0
    · simp [← hop, integers, hb, Except.map]
    · simp [← hop, integers, hb, Except.map, Decimal.cast_fmod]
  | div | pow => simp [meaning] at hop

theorem map_decimals (hop : op.meaning = some f) (a b : Decimal) :
    (op.decimals a b).map Decimal.toRat = f a.toRat b.toRat := by
  cases op with
  | sum | sub | mul =>
    simp only [meaning, Option.some.injEq] at hop
    simp [← hop, decimals, Except.map]
  | mod =>
    simp only [meaning, Option.some.injEq] at hop
    by_cases hb : b.toRat = 0
    · simp [← hop, decimals, hb, Decimal.isZero_iff, Except.map]
    · simp [← hop, decimals, hb, Decimal.isZero_iff, Except.map, Decimal.toRat_modFloor]
  | div | pow => simp [meaning] at hop

/-- Both ways to work out two numbers do to their amounts what the operation means. -/
theorem map_numbers (hop : op.meaning = some f) (a b : Number) :
    (op.numbers a b).map Number.toRat = f a.toRat b.toRat := by
  have hdecimals : ((op.decimals a.toDecimal b.toDecimal).map Number.decimal).map Number.toRat =
      f a.toRat b.toRat := by
    rw [← a.toRat_toDecimal, ← b.toRat_toDecimal, ← map_decimals hop]
    cases op.decimals a.toDecimal b.toDecimal <;> rfl
  cases a with
  | integer a =>
    cases b with
    | integer b =>
      rw [numbers]
      refine Eq.trans ?_ (map_integers hop a b)
      cases op.integers a b <;> rfl
    | decimal b => exact hdecimals
  | decimal a => cases b <;> exact hdecimals

/-- The kind of the result of an operation on numbers. -/
theorem kind_of_numbers {op : Arith} {a b n : Number} (h : op.numbers a b = .ok n) :
    n.toValue.kind = if a.toValue.kind = "Decimal" ∨ b.toValue.kind = "Decimal" then "Decimal"
      else "Integer" := by
  have hdecimals : ∀ {x : Except OperatorFault Decimal}, x.map Number.decimal = .ok n →
      n.toValue.kind = "Decimal" := by
    intro x hx
    cases x with
    | error e => cases hx
    | ok d =>
      obtain rfl := Except.ok.inj hx
      rfl
  cases a with
  | integer a =>
    cases b with
    | integer b =>
      rw [numbers] at h
      cases hx : op.integers a b with
      | error e =>
        rw [hx] at h
        cases h
      | ok m =>
        rw [hx] at h
        obtain rfl := Except.ok.inj h
        rfl
    | decimal b => exact hdecimals h
  | decimal a => cases b <;> exact hdecimals h

/-- But for `%` of two truth values an operation works on what its operands count for. -/
theorem apply_eq {op : Arith} {h : Heap} {a b : Value} {m n : Number}
    (hmod : op = mod → ¬ (a.kind = "Boolean" ∧ b.kind = "Boolean")) (ha : a.toNumber h = .ok m)
    (hb : b.toNumber h = .ok n) : op.apply h a b = (op.numbers m n).map Number.toValue := by
  rw [apply]
  · rw [ha, hb]
    change (op.numbers m n >>= fun r => pure r.toValue) = _
    cases op.numbers m n <;> rfl
  · rintro p q rfl rfl rfl
    exact hmod rfl ⟨rfl, rfl⟩

/-- Arithmetic on values is arithmetic on their amounts. -/
theorem map_apply {h : Heap} {a b : Value} (hop : op.meaning = some f) (ha : a.IsData)
    (hb : b.IsData) (hmod : op = mod → ¬ (a.kind = "Boolean" ∧ b.kind = "Boolean")) :
    (op.apply h a b).map (Value.amount h) = f (a.amount h) (b.amount h) := by
  obtain ⟨m, hm, hma, -⟩ := Value.toNumber_of_isData (h := h) ha
  obtain ⟨n, hn, hna, -⟩ := Value.toNumber_of_isData (h := h) hb
  rw [apply_eq hmod hm hn, ← hma, ← hna, ← map_numbers hop]
  cases op.numbers m n with
  | error e => rfl
  | ok r => exact congrArg Except.ok (r.amount_toValue h)

/-- A result is a decimal exactly if an operand is one, and otherwise an integer. -/
theorem kind_of_apply {op : Arith} {h : Heap} {a b v : Value} (ha : a.IsData) (hb : b.IsData)
    (hmod : op = mod → ¬ (a.kind = "Boolean" ∧ b.kind = "Boolean")) (hv : op.apply h a b = .ok v) :
    v.kind = if a.kind = "Decimal" ∨ b.kind = "Decimal" then "Decimal" else "Integer" := by
  obtain ⟨m, hm, -, hma⟩ := Value.toNumber_of_isData (h := h) ha
  obtain ⟨n, hn, -, hna⟩ := Value.toNumber_of_isData (h := h) hb
  rw [apply_eq hmod hm hn] at hv
  cases hr : op.numbers m n with
  | error e =>
    rw [hr] at hv
    cases hv
  | ok r =>
    rw [hr] at hv
    obtain rfl := Except.ok.inj hv
    simp only [kind_of_numbers hr, hma, hna]

/-! ### Division and remainder -/

/-- A number without its fraction. -/
def truncated (x : ℚ) : Int := if 0 ≤ x then ⌊x⌋ else ⌈x⌉

/-- Two numbers of one sign are divided alike toward zero and down. -/
theorem fdiv_eq_tdiv {a b : Int} (hb : b ≠ 0) (h : 0 ≤ (a : ℚ) / b) : a.fdiv b = a.tdiv b := by
  rcases lt_or_gt_of_ne hb with hneg | hpos
  · have ha : a ≤ 0 := by
      have hb' : (b : ℚ) < 0 := by exact_mod_cast hneg
      exact_mod_cast not_lt.mp fun ha => not_lt.mpr h (div_neg_of_pos_of_neg ha hb')
    rw [← Int.neg_fdiv_neg, ← Int.neg_tdiv_neg, Int.fdiv_eq_ediv_of_nonneg _ (by omega),
      Int.tdiv_eq_ediv_of_nonneg (by omega)]
  · have ha : 0 ≤ a := by
      have hb' : (0 : ℚ) < b := by exact_mod_cast hpos
      exact_mod_cast not_lt.mp fun ha => not_lt.mpr h (div_neg_of_neg_of_pos ha hb')
    rw [Int.fdiv_eq_ediv_of_nonneg _ hpos.le, Int.tdiv_eq_ediv_of_nonneg ha]

theorem truncated_div (a : Int) {b : Int} (hb : b ≠ 0) : truncated (a / b) = a.tdiv b := by
  rw [truncated]
  split
  · rename_i hnonneg
    rw [Decimal.floor_div_cast, fdiv_eq_tdiv hb hnonneg]
  · rename_i hneg
    have hflip : -((a : ℚ) / b) = ((-a : Int) : ℚ) / b := by
      push_cast
      rw [neg_div]
    have hnonneg : 0 ≤ ((-a : Int) : ℚ) / b := by
      rw [← hflip]
      linarith
    rw [← neg_neg ⌈(a : ℚ) / b⌉, ← Int.floor_neg, hflip, Decimal.floor_div_cast,
      fdiv_eq_tdiv hb hnonneg, Int.neg_tdiv, neg_neg]

/-- Integers are divided without a remainder. -/
theorem map_div_apply {h : Heap} {a b : Value} (ha : a.IsData) (hb : b.IsData)
    (hda : a.kind ≠ "Decimal") (hdb : b.kind ≠ "Decimal") (hne : b.amount h ≠ 0) :
    (div.apply h a b).map (Value.amount h) = .ok (truncated (a.amount h / b.amount h) : ℚ) := by
  obtain ⟨m, hm, hma, hmk⟩ := Value.toNumber_of_isData (h := h) ha
  obtain ⟨n, hn, hna, hnk⟩ := Value.toNumber_of_isData (h := h) hb
  rw [apply_eq (by simp) hm hn, ← hma, ← hna]
  rw [← hna] at hne
  cases m with
  | decimal d => exact absurd (hmk.mp rfl) hda
  | integer p =>
    cases n with
    | decimal d => exact absurd (hnk.mp rfl) hdb
    | integer q =>
      have hq : q ≠ 0 := fun h => hne (by simp [h, Number.toRat])
      simp only [numbers, integers, if_neg hq, Except.map, Number.toRat, truncated_div p hq]
      rfl

/-- The floored remainder is below the divisor and has its sign. -/
theorem floored_remainder (x : ℚ) {y : ℚ} (hy : y ≠ 0) :
    |x - y * ⌊x / y⌋| < |y| ∧
      (x - y * ⌊x / y⌋ = 0 ∨ SignType.sign (x - y * ⌊x / y⌋) = SignType.sign y) := by
  have hfract : x - y * ⌊x / y⌋ = y * Int.fract (x / y) := by
    rw [Int.fract, mul_sub, mul_div_cancel₀ _ hy]
  have hnonneg := Int.fract_nonneg (x / y)
  have hlt := Int.fract_lt_one (x / y)
  rw [hfract]
  constructor
  · rw [abs_mul, abs_of_nonneg hnonneg]
    exact mul_lt_of_lt_one_right (abs_pos.mpr hy) hlt
  · rcases hnonneg.eq_or_lt with hzero | hpos
    · exact .inl (by rw [← hzero, mul_zero])
    · exact .inr (by rw [sign_mul, sign_pos hpos, mul_one])

end Arith

/-! ### Comparison -/

namespace Comparison

/-- Whether the comparison holds of two amounts. -/
def relates : Comparison → ℚ → ℚ → Bool
  | gt, x, y => x > y
  | ge, x, y => x ≥ y
  | lt, x, y => x < y
  | le, x, y => x ≤ y
  | eq, x, y => x = y
  | ne, x, y => x ≠ y

theorem holds_compare (op : Comparison) (x y : ℚ) : op.holds (compare x y) = op.relates x y := by
  rcases lt_trichotomy x y with h | h | h
  · rw [compare_lt_iff_lt.mpr h]
    cases op <;> simp [holds, relates, h, h.le, h.ne]
  · rw [compare_eq_iff_eq.mpr h]
    cases op <;> simp [holds, relates, h]
  · rw [compare_gt_iff_gt.mpr h]
    cases op <;> simp [holds, relates, h, h.le, h.ne']

/-- Comparison of values is comparison of their amounts. -/
theorem apply_eq (op : Comparison) {h : Heap} {a b : Value} (ha : a.IsData) (hb : b.IsData) :
    op.apply h a b = .ok (.boolean (op.relates (a.amount h) (b.amount h))) := by
  obtain ⟨m, hm, hma, -⟩ := Value.toNumber_of_isData (h := h) ha
  obtain ⟨n, hn, hna, -⟩ := Value.toNumber_of_isData (h := h) hb
  rw [← hma, ← hna, ← holds_compare, ← Number.order_eq, apply, hm, hn]
  rfl

end Comparison

/-! ### Both together -/

theorem exists_of_map_eq_ok {ε α β : Type} {x : Except ε α} {f : α → β} {y : β}
    (h : x.map f = .ok y) : ∃ v, x = .ok v ∧ f v = y := by
  cases x with
  | error e => cases h
  | ok v => exact ⟨v, rfl, Except.ok.inj h⟩

/-- An integer and the decimal that equals it are alike for arithmetic and comparison. -/
theorem integer_as_decimal {h : Heap} {a : Value} (ha : a.IsData) {n : Int} {d : Decimal}
    (hd : d.toRat = n) :
    (∀ op ∈ [Arith.sum, .sub, .mul, .mod],
      (op.apply h (.integer n) a).map (Value.amount h) =
        (op.apply h (.decimal d) a).map (Value.amount h) ∧
      (op.apply h a (.integer n)).map (Value.amount h) =
        (op.apply h a (.decimal d)).map (Value.amount h)) ∧
    ∀ op : Comparison, op.apply h (.integer n) a = op.apply h (.decimal d) a ∧
      op.apply h a (.integer n) = op.apply h a (.decimal d) := by
  have hamount : (Value.integer n).amount h = (Value.decimal d).amount h := hd.symm
  have hinteger : (Value.integer n).IsData := trivial
  have hdecimal : (Value.decimal d).IsData := trivial
  constructor
  · intro op hop
    obtain ⟨f, hf⟩ : ∃ f, op.meaning = some f := by
      simp only [List.mem_cons, List.not_mem_nil, or_false] at hop
      rcases hop with rfl | rfl | rfl | rfl <;> exact ⟨_, rfl⟩
    rw [Arith.map_apply hf hinteger ha (by simp [Value.kind]),
      Arith.map_apply hf hdecimal ha (by simp [Value.kind]),
      Arith.map_apply hf ha hinteger (by simp [Value.kind]),
      Arith.map_apply hf ha hdecimal (by simp [Value.kind]), hamount]
    exact ⟨rfl, rfl⟩
  · intro op
    rw [op.apply_eq hinteger ha, op.apply_eq hdecimal ha, op.apply_eq ha hinteger,
      op.apply_eq ha hdecimal, hamount]
    exact ⟨rfl, rfl⟩

/-- **Coerced arithmetic and comparison are exact over the rational numbers**, whichever kinds of
data the operands are. -/
theorem coerced_arithmetic_exact (h : Heap) {a b : Value} (ha : a.IsData) (hb : b.IsData) :
    (∃ v, Arith.sum.apply h a b = .ok v ∧ v.amount h = a.amount h + b.amount h) ∧
    (∃ v, Arith.sub.apply h a b = .ok v ∧ v.amount h = a.amount h - b.amount h) ∧
    (∃ v, Arith.mul.apply h a b = .ok v ∧ v.amount h = a.amount h * b.amount h) ∧
    (b.amount h ≠ 0 → ¬ (a.kind = "Boolean" ∧ b.kind = "Boolean") →
      ∃ v, Arith.mod.apply h a b = .ok v ∧
        (∃ k : Int, a.amount h - v.amount h = k * b.amount h) ∧
        |v.amount h| < |b.amount h| ∧
        (v.amount h = 0 ∨ SignType.sign (v.amount h) = SignType.sign (b.amount h))) ∧
    (b.amount h ≠ 0 → a.kind ≠ "Decimal" → b.kind ≠ "Decimal" →
      ∃ v, Arith.div.apply h a b = .ok v ∧
        v.amount h = Arith.truncated (a.amount h / b.amount h)) ∧
    (∀ (op : Arith) (v : Value), (op = .mod → ¬ (a.kind = "Boolean" ∧ b.kind = "Boolean")) →
      op.apply h a b = .ok v →
        v.kind = if a.kind = "Decimal" ∨ b.kind = "Decimal" then "Decimal" else "Integer") ∧
    (∀ op : Comparison,
      op.apply h a b = .ok (.boolean (op.relates (a.amount h) (b.amount h)))) ∧
    a.isTruthy h = .ok (decide (a.amount h ≠ 0)) ∧
    ∀ (n : Int) (d : Decimal), d.toRat = n →
      (∀ op ∈ [Arith.sum, .sub, .mul, .mod],
        (op.apply h (.integer n) a).map (Value.amount h) =
          (op.apply h (.decimal d) a).map (Value.amount h) ∧
        (op.apply h a (.integer n)).map (Value.amount h) =
          (op.apply h a (.decimal d)).map (Value.amount h)) ∧
      ∀ op : Comparison, op.apply h (.integer n) a = op.apply h (.decimal d) a ∧
        op.apply h a (.integer n) = op.apply h a (.decimal d) := by
  refine ⟨exists_of_map_eq_ok (Arith.map_apply (rfl : Arith.sum.meaning = _) ha hb (by simp)),
    exists_of_map_eq_ok (Arith.map_apply (rfl : Arith.sub.meaning = _) ha hb (by simp)),
    exists_of_map_eq_ok (Arith.map_apply (rfl : Arith.mul.meaning = _) ha hb (by simp)),
    fun hne hbool => ?_,
    fun hne hda hdb => exists_of_map_eq_ok (Arith.map_div_apply ha hb hda hdb hne),
    fun op v hmod hv => Arith.kind_of_apply ha hb hmod hv, fun op => op.apply_eq ha hb,
    Value.isTruthy_eq ha, fun n d hd => integer_as_decimal ha hd⟩
  have hmod := Arith.map_apply (h := h) (rfl : Arith.mod.meaning = _) ha hb (fun _ => hbool)
  rw [if_neg hne] at hmod
  obtain ⟨v, hv, hamount⟩ := exists_of_map_eq_ok hmod
  refine ⟨v, hv, ⟨⌊a.amount h / b.amount h⌋, by rw [hamount]; ring⟩, ?_⟩
  rw [hamount]
  exact Arith.floored_remainder (a.amount h) hne

/-- A list of three elements and -2.5. -/
theorem coerced_arithmetic_exact_list :
    let h : Heap := ⟨#[#[.integer 7, .text "x", .boolean true]]⟩
    let a : Value := .list ⟨0⟩
    let b : Value := .decimal ⟨-25, 1⟩
    (a.IsData ∧ b.IsData) ∧ (∃ v, Arith.sum.apply h a b = .ok v ∧ v.amount h = 1 / 2) ∧
      (∃ v, Arith.mod.apply h a b = .ok v ∧ v.kind = "Decimal" ∧
        (∃ k : Int, 3 - v.amount h = k * (-5 / 2)) ∧ |v.amount h| < 5 / 2) ∧
      Comparison.gt.apply h a b = .ok (.boolean true) ∧ a.isTruthy h = .ok true := by
  intro h a b
  have hamount : a.amount h = 3 := by norm_num [a, h, Value.amount, Heap.get]
  have hamount' : b.amount h = -5 / 2 := by norm_num [b, Value.amount, Decimal.toRat]
  obtain ⟨hsum, -, -, hmod, -, hkind, hcompare, htruthy, -⟩ :=
    coerced_arithmetic_exact h (a := a) (b := b) trivial trivial
  rw [hamount, hamount'] at hsum
  rw [hamount'] at hmod
  obtain ⟨v, hv, hwhole, hlt, -⟩ := hmod (by norm_num) (by simp [a, Value.kind])
  refine ⟨⟨trivial, trivial⟩, ?_, ⟨v, hv, ?_, ?_, ?_⟩, ?_, ?_⟩
  · norm_num at hsum ⊢
    exact hsum
  · rw [hkind .mod v (by simp [a, Value.kind]) hv]
    simp [b, Value.kind]
  · rwa [hamount] at hwhole
  · norm_num [abs_div] at hlt ⊢
    exact hlt
  · rw [hcompare, hamount, hamount']
    norm_num [Comparison.relates]
  · rw [htruthy, hamount]
    norm_num

end ListCalc
