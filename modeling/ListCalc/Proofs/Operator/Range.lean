import ListCalc.Proofs.Operator.Faults
import ListCalc.Proofs.Value.Growth

/-!
# Proofs — what a range holds

A range is listed in one of two ways, over integers or over decimals.  Both work out the number of
elements first, and then step on in the same loop without another look at the upper bound.
`stepsBetween low high` are the amounts that should come out, and `amounts_of_rangeItems?` says that
in both ways they do.

* `mem_stepsBetween`: a number is one of the steps exactly if it is between the bounds and a whole
  number of steps above the lower one.
* `toList_steps`: the loop in closed form, by induction on the steps that are left.
* `range_holds_steps`: what follows for the list that a range gives, for operands of any kind.
-/

namespace ListCalc

/-! ### Steps of one -/

/-- The numbers from `low` up to `high`, in steps of one. -/
def stepsBetween (low high : ℚ) : List ℚ :=
  (List.range (⌊high - low⌋ + 1).toNat).map fun i : Nat => low + i

section

variable {low high x : ℚ}

/-- How many steps of one lie between two bounds. -/
theorem length_stepsBetween (low high : ℚ) :
    ((stepsBetween low high).length : Int) = if high < low then 0 else ⌊high - low⌋ + 1 := by
  rw [stepsBetween, List.length_map, List.length_range]
  split
  · rename_i hlt
    have hneg : ⌊high - low⌋ < 0 := Int.floor_lt.mpr (by simpa using hlt)
    omega
  · rename_i hle
    have hnonneg : 0 ≤ ⌊high - low⌋ := Int.floor_nonneg.mpr (sub_nonneg.mpr (not_lt.mp hle))
    omega

/-- There are no steps down. -/
theorem stepsBetween_of_lt (h : high < low) : stepsBetween low high = [] := by
  have hlength := length_stepsBetween low high
  rw [if_pos h] at hlength
  exact List.length_eq_zero_iff.mp (by exact_mod_cast hlength)

/-- The steps go up by one. -/
theorem eq_of_getElem?_stepsBetween {i : Nat} (hx : (stepsBetween low high)[i]? = some x) :
    x = low + i := by
  rw [stepsBetween, List.getElem?_map, Option.map_eq_some_iff] at hx
  obtain ⟨j, hj, rfl⟩ := hx
  rw [(List.getElem?_eq_some_iff.mp hj).2.symm, List.getElem_range]

/-- One step more would be too far. -/
theorem lt_next_step (low high : ℚ) : high < low + (stepsBetween low high).length := by
  rw [stepsBetween, List.length_map, List.length_range]
  have hfloor : high - low < ⌊high - low⌋ + 1 := Int.lt_floor_add_one _
  have hcast : ((⌊high - low⌋ + 1 : Int) : ℚ) ≤ ((⌊high - low⌋ + 1).toNat : ℚ) := by
    exact_mod_cast Int.self_le_toNat _
  push_cast at hcast
  linarith

/-- The steps are what lies between the bounds a whole number above the lower one. -/
theorem mem_stepsBetween :
    x ∈ stepsBetween low high ↔ low ≤ x ∧ x ≤ high ∧ ∃ k : Int, x - low = k := by
  rw [stepsBetween, List.mem_map]
  constructor
  · rintro ⟨i, hi, rfl⟩
    have hle : (i : Int) ≤ ⌊high - low⌋ := by
      have := List.mem_range.mp hi
      omega
    have hhigh : (i : ℚ) ≤ high - low := by exact_mod_cast Int.le_floor.mp hle
    exact ⟨le_add_of_nonneg_right (Nat.cast_nonneg i), by linarith, i, by simp⟩
  · rintro ⟨hlow, hhigh, k, hk⟩
    have hnonneg : 0 ≤ k := by
      have hcast : (0 : ℚ) ≤ k := by linarith
      exact_mod_cast hcast
    have hle : k ≤ ⌊high - low⌋ := Int.le_floor.mpr (by linarith)
    lift k to Nat using hnonneg
    refine ⟨k, List.mem_range.mpr (by omega), ?_⟩
    rw [Int.cast_natCast] at hk
    linarith

end

/-! ### The loop -/

/-- The loop in closed form: the values of `current` and of all that comes next, in order. -/
theorem toList_steps {α : Type} (value : α → Value) (next : α → α) (items : Array Value)
    (current : α) (count : Nat) :
    (steps value next items current count).toList =
      items.toList ++ (List.range count).map fun i => value (next^[i] current) := by
  induction count generalizing items current with
  | zero => simp [steps]
  | succ count ih =>
    rw [steps, ih, List.range_succ_eq_map]
    simp

/-- The integers `low`, `low + 1`, … , `count` of them. -/
theorem toList_integerSteps (low : Int) (count : Nat) :
    (integerSteps low count).toList =
      (List.range count).map fun i : Nat => .integer (low + i) := by
  have hnext (i : Nat) : (fun n : Int => n + 1)^[i] low = low + i := by
    rw [add_right_iterate, nsmul_one]
  simp only [integerSteps, toList_steps, hnext, List.nil_append]

/-- The loop over integers goes up by one. -/
theorem amounts_integerSteps (h : Heap) (low : Int) (count : Nat) :
    (integerSteps low count).toList.map (Value.amount h) =
      (List.range count).map fun i : Nat => (low : ℚ) + i := by
  rw [toList_integerSteps, List.map_map]
  exact List.map_congr_left fun i _ => by simp [Value.amount]

/-- Each turn of the loop adds one to the value, whatever the scale. -/
theorem toRat_iterate_add_one (d : Decimal) (i : Nat) :
    ((fun d : Decimal => d.add .one)^[i] d).toRat = d.toRat + i := by
  induction i generalizing d with
  | zero => simp
  | succ i ih =>
    rw [Function.iterate_succ_apply, ih, Decimal.toRat_add, Decimal.toRat_one]
    push_cast
    ring

/-- The loop over decimals goes up by one. -/
theorem amounts_decimalSteps (h : Heap) (low : Decimal) (count : Nat) :
    (decimalSteps low count).toList.map (Value.amount h) =
      (List.range count).map fun i : Nat => low.toRat + i := by
  rw [decimalSteps, toList_steps, List.nil_append, List.map_map]
  exact List.map_congr_left fun i _ => toRat_iterate_add_one low i

/-! ### Both ways -/

/-- The kind of the steps between two bounds of the given kinds. -/
def stepKind (left right : String) : String :=
  if left = "Decimal" ∨ right = "Decimal" then "Decimal" else "Integer"

/-- How a range comes by its elements: there are none, or it lists integers, or decimals. -/
inductive Listed (m n : Number) : Array Value → Prop where
  | none : n.toRat < m.toRat → Listed m n #[]
  | integers (low : Int) : m.toRat = low → stepKind m.toValue.kind n.toValue.kind = "Integer" →
      Listed m n (integerSteps low (⌊n.toRat - m.toRat⌋ + 1).toNat)
  | decimals (low : Decimal) : m.toRat = low.toRat →
      stepKind m.toValue.kind n.toValue.kind = "Decimal" →
      Listed m n (decimalSteps low (⌊n.toRat - m.toRat⌋ + 1).toNat)

theorem listed_of_integers {low high : Int} {items : Array Value}
    (hitems : rangeItems? (.integer low) (.integer high) = some items) :
    Listed (.integer low) (.integer high) items := by
  have hfloor : ⌊(Number.integer high).toRat - (Number.integer low).toRat⌋ = high - low := by
    simp only [Number.toRat, ← Int.cast_sub, Int.floor_intCast]
  rw [rangeItems?] at hitems
  dsimp only at hitems
  split_ifs at hitems with hlt hcount
  · cases hitems
    exact .none (Int.cast_lt.mpr hlt)
  · cases hitems
    rw [← hfloor]
    exact .integers low rfl rfl

/-- Unless both bounds are integers, a range is listed over decimals. -/
theorem listed_of_decimals {m n : Number} {items : Array Value}
    (hkind : m.toValue.kind = "Decimal" ∨ n.toValue.kind = "Decimal")
    (hitems : rangeItems? m n = some items) : Listed m n items := by
  rw [rangeItems?] at hitems
  · dsimp only at hitems
    split_ifs at hitems with hlt hcount
    · cases hitems
      exact .none (by simpa using Decimal.lt_iff.mp hlt)
    · cases hitems
      have hle : m.toDecimal.toRat ≤ n.toDecimal.toRat := not_lt.mp (mt Decimal.lt_iff.mpr hlt)
      rw [toInteger_difference hle, m.toRat_toDecimal, n.toRat_toDecimal]
      exact .decimals _ m.toRat_toDecimal.symm (if_pos hkind)
  · rintro low high rfl rfl
    simp [Number.toValue, Value.kind] at hkind

/-- The elements of a range are the steps between its bounds. -/
theorem listed_of_rangeItems? {m n : Number} {items : Array Value}
    (hitems : rangeItems? m n = some items) : Listed m n items := by
  cases m with
  | decimal d => exact listed_of_decimals (.inl rfl) hitems
  | integer low =>
    cases n with
    | decimal d => exact listed_of_decimals (.inr rfl) hitems
    | integer high => exact listed_of_integers hitems

namespace Listed

variable {m n : Number} {items : Array Value}

/-- The elements have the amounts that lie between the bounds. -/
theorem amounts (hl : Listed m n items) (h : Heap) :
    items.toList.map (Value.amount h) = stepsBetween m.toRat n.toRat := by
  cases hl with
  | none hlt => rw [stepsBetween_of_lt hlt, List.map_nil]
  | integers low hlow _ => rw [amounts_integerSteps, stepsBetween, hlow]
  | decimals low hlow _ => rw [amounts_decimalSteps, stepsBetween, hlow]

/-- The elements of a range are integers if both bounds are, and decimals otherwise. -/
theorem kind (hl : Listed m n items) {v : Value} (hv : v ∈ items) :
    v.kind = stepKind m.toValue.kind n.toValue.kind := by
  cases hl with
  | none _ => exact absurd hv (Array.not_mem_empty v)
  | integers low _ hkind =>
    obtain ⟨i, rfl⟩ := mem_integerSteps hv
    exact hkind.symm
  | decimals low _ hkind =>
    obtain ⟨d, rfl⟩ := mem_decimalSteps hv
    exact hkind.symm

end Listed

/-! ### The list -/

/-- The amounts of the elements of the list that an operator gives. -/
def amounts (out : Value × Heap) : List ℚ :=
  (elements out.2 out.1).map (Value.amount out.2)

/-- What a range gives: a new list of the numbers from `low` up to `high` in steps of one, all of
the given kind. -/
structure HoldsSteps (h : Heap) (low high : ℚ) (kind : String) (out : Value × Heap) : Prop where
  isNew : IsNew h out
  length : ((amounts out).length : Int) = if high < low then 0 else ⌊high - low⌋ + 1
  nth : ∀ (i : Nat) (x : ℚ), (amounts out)[i]? = some x → x = low + i
  between : ∀ x ∈ amounts out, low ≤ x ∧ x ≤ high
  next : high < low + (amounts out).length
  mem_iff : ∀ x : ℚ, x ∈ amounts out ↔ low ≤ x ∧ x ≤ high ∧ ∃ k : Int, x - low = k
  kind : ∀ v ∈ elements out.2 out.1, v.kind = kind

theorem amounts_newList (h : Heap) (items : Array Value) :
    amounts (h.newList items) = items.toList.map (Value.amount (h.newList items).2) := by
  rw [amounts, elements_newList]

/-- A range of two numbers is a new list of its elements. -/
theorem range_eq {h : Heap} {a b : Value} {m n : Number} (ha : a.toNumber h = .ok m)
    (hb : b.toNumber h = .ok n) :
    range h a b = match rangeItems? m n with
      | some items => .ok (h.newList items)
      | none       => .error (.rangeTooLarge (a.shown h) (b.shown h)) := by
  rw [range, ha, hb]
  cases hitems : rangeItems? m n <;> simp [bind, Except.bind, hitems] <;> rfl

/-- A range that succeeds is a new list, listed in one of the two ways. -/
theorem range_listed {h : Heap} {a b : Value} {out : Value × Heap} (ha : a.IsData) (hb : b.IsData)
    (hout : range h a b = .ok out) : ∃ items, out = h.newList items ∧
      (∀ v ∈ items, v.kind = stepKind a.kind b.kind) ∧
      items.toList.map (Value.amount out.2) = stepsBetween (a.amount h) (b.amount h) := by
  obtain ⟨m, hm, hma, hmk⟩ := Value.toNumber_of_isData (h := h) ha
  obtain ⟨n, hn, hnb, hnk⟩ := Value.toNumber_of_isData (h := h) hb
  rw [range_eq hm hn] at hout
  cases hitems : rangeItems? m n with
  | none =>
    rw [hitems] at hout
    cases hout
  | some items =>
    rw [hitems] at hout
    cases hout
    have hl := listed_of_rangeItems? hitems
    refine ⟨items, rfl, fun v hv => ?_, ?_⟩
    · rw [hl.kind hv]
      simp only [stepKind, hmk, hnk]
    · rw [hl.amounts, hma, hnb]

/-- A range of data fails only if its bounds are too far apart. -/
theorem range_ok_iff {h : Heap} {a b : Value} (ha : a.IsData) (hb : b.IsData) :
    (∃ out, range h a b = .ok out) ↔ ⌊b.amount h - a.amount h⌋ < 2 ^ 20 := by
  obtain ⟨m, hm, hma, -⟩ := Value.toNumber_of_isData (h := h) ha
  obtain ⟨n, hn, hnb, -⟩ := Value.toNumber_of_isData (h := h) hb
  rw [range_eq hm hn, ← hma, ← hnb, ← not_le, ← rangeItems?_eq_none_iff]
  cases rangeItems? m n <;> simp

/-- **A range holds exactly the steps between its bounds.**  It has a result unless that would have
more than `2 ^ 20` elements.  The result depends on the amounts of the operands only, but for the
kind of the elements: an integer may be given as a decimal of any scale. -/
theorem range_holds_steps (h : Heap) {a b : Value} (ha : a.IsData) (hb : b.IsData) :
    ((∃ out, range h a b = .ok out) ↔ ⌊b.amount h - a.amount h⌋ < 2 ^ 20) ∧
    (∀ out, range h a b = .ok out →
      HoldsSteps h (a.amount h) (b.amount h) (stepKind a.kind b.kind) out) ∧
    ∀ out a' b', range h a b = .ok out → a'.IsData → b'.IsData →
      a'.amount h = a.amount h → b'.amount h = b.amount h →
      ∃ out', range h a' b' = .ok out' ∧ amounts out' = amounts out := by
  have hamounts {a b : Value} {out : Value × Heap} (ha : a.IsData) (hb : b.IsData)
      (hout : range h a b = .ok out) : amounts out = stepsBetween (a.amount h) (b.amount h) := by
    obtain ⟨items, rfl, -, hitems⟩ := range_listed ha hb hout
    rw [amounts_newList, hitems]
  refine ⟨range_ok_iff ha hb, fun out hout => ?_, fun out a' b' hout ha' hb' hlow hhigh => ?_⟩
  · obtain ⟨items, hnew, hkind, -⟩ := range_listed ha hb hout
    refine ⟨.range hout, ?_, ?_, ?_, ?_, ?_, fun v hv => hkind v ?_⟩
    · rw [hamounts ha hb hout, length_stepsBetween]
    · rw [hamounts ha hb hout]
      exact fun i x hx => eq_of_getElem?_stepsBetween hx
    · rw [hamounts ha hb hout]
      exact fun x hx => ⟨(mem_stepsBetween.mp hx).1, (mem_stepsBetween.mp hx).2.1⟩
    · rw [hamounts ha hb hout]
      exact lt_next_step _ _
    · rw [hamounts ha hb hout]
      exact fun x => mem_stepsBetween
    · rw [hnew, elements_newList] at hv
      exact Array.mem_toList_iff.mp hv
  · have hlength := (range_ok_iff ha hb).mp ⟨out, hout⟩
    rw [← hlow, ← hhigh, ← range_ok_iff ha' hb'] at hlength
    obtain ⟨out', hout'⟩ := hlength
    exact ⟨out', hout', by rw [hamounts ha' hb' hout', hamounts ha hb hout, hlow, hhigh]⟩

/-- From one half up to a list of three elements there are three steps, and they are decimals. -/
theorem range_holds_steps_half :
    let h : Heap := ⟨#[#[.integer 7, .text "x", .boolean true]]⟩
    let a : Value := .decimal ⟨50, 2⟩
    let b : Value := .list ⟨0⟩
    (a.IsData ∧ b.IsData) ∧ ∃ out, range h a b = .ok out ∧ (amounts out).length = 3 ∧
      (∀ x ∈ amounts out, 1 / 2 ≤ x ∧ x ≤ 3) ∧ ∀ v ∈ elements out.2 out.1, v.kind = "Decimal" := by
  intro h a b
  have ha : a.amount h = 1 / 2 := by norm_num [a, Value.amount, Decimal.toRat]
  have hb : b.amount h = 3 := by norm_num [b, h, Value.amount, Heap.get]
  obtain ⟨hok, hholds, -⟩ := range_holds_steps h (a := a) (b := b) trivial trivial
  rw [ha, hb] at hok hholds
  have hfloor : ⌊(3 : ℚ) - 1 / 2⌋ = 2 := by norm_num
  obtain ⟨out, hout⟩ := hok.mpr (by rw [hfloor]; norm_num)
  have hsteps := hholds out hout
  have hlength := hsteps.length
  rw [hfloor, if_neg (by norm_num)] at hlength
  exact ⟨⟨trivial, trivial⟩, out, hout, by omega, hsteps.between, hsteps.kind⟩

end ListCalc
