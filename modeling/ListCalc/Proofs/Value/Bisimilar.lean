import ListCalc.Operator.Scalar
import ListCalc.Proofs.Decimal.Value
import ListCalc.Value.Same
import Mathlib.Data.List.Forall2

/-!
# Proofs — structural equality and bisimilarity

A value over a heap unfolds to a tree that is infinite if a list contains itself.  The tree is given
by its paths: `Value.unfolding` says what stands at the end of each.  Two values are `Bisimilar` if
some relation holds of them that is kept by looking inside once.

* `bisimilar_iff`: values are bisimilar exactly if they have one unfolding.
* `agree_of_sameWithin`: a comparison that answers yes is right up to any depth up to which the
  pairs that it is inside of agree.  That is the induction: a pair that is met again agrees one
  level less deep than it is asked for.
* `sameWithin_of_unfolding_eq`: values with one unfolding are the same, whatever is opened.
* `same_decides_bisimilarity`: the two together, with what follows for equality.
-/

namespace ListCalc

/-- What is seen of a value without looking inside of it. -/
inductive Label where
  | decimal (value : ℚ)
  | integer (n : Int)
  | boolean (b : Bool)
  | text (s : String)
  | list (length : Nat)
  | symbol (name : String)
  | callable (ident : Nat)
deriving DecidableEq

namespace Value

/-- What can be told of a value without looking into lists. -/
def label (h : Heap) : Value → Label
  | decimal d  => .decimal d.toRat
  | integer n  => .integer n
  | boolean b  => .boolean b
  | text s     => .text s
  | list r     => .list (h.get r).size
  | symbol s   => .symbol s
  | callable c => .callable c.ident

/-- The values that are directly inside of a value. -/
def inside (h : Heap) : Value → Array Value
  | list r => h.get r
  | _      => #[]

/-- The value at the end of a path, which is the position to take at each level. -/
def follow? (h : Heap) : List Nat → Value → Option Value
  | [],        v => some v
  | i :: path, v => (v.inside h)[i]?.bind (follow? h path)

/-- The possibly infinite tree of a value: what is seen at the end of each path. -/
def unfolding (h : Heap) (v : Value) (path : List Nat) : Option Label :=
  (v.follow? h path).map (label h)

/-- One look at two values: they are of one kind and equal in it, with `R` for what is inside. -/
inductive Matches (h : Heap) (R : Value → Value → Prop) : Value → Value → Prop where
  | decimal {a b : Decimal} (hv : a.toRat = b.toRat) : Matches h R (.decimal a) (.decimal b)
  | integer (n : Int) : Matches h R (.integer n) (.integer n)
  | boolean (b : Bool) : Matches h R (.boolean b) (.boolean b)
  | text (s : String) : Matches h R (.text s) (.text s)
  | list {a b : ListRef} (hin : List.Forall₂ R (h.get a).toList (h.get b).toList) :
      Matches h R (.list a) (.list b)
  | symbol (s : String) : Matches h R (.symbol s) (.symbol s)
  | callable {a b : Callable} (hc : a.ident = b.ident) : Matches h R (.callable a) (.callable b)

/-- No look, however deep, tells the two values apart. -/
def Bisimilar (h : Heap) (v w : Value) : Prop :=
  ∃ R : Value → Value → Prop, (∀ v w, R v w → Matches h R v w) ∧ R v w

/-! ### Unfoldings -/

variable {h : Heap} {v w : Value}

theorem unfolding_cons (h : Heap) (v : Value) (i : Nat) (path : List Nat) :
    v.unfolding h (i :: path) = (v.inside h)[i]?.bind fun x => x.unfolding h path := by
  rw [unfolding, follow?]
  cases (v.inside h)[i]? <;> rfl

/-- The unfoldings of two values agree on the paths shorter than `n`. -/
def Agree (h : Heap) (n : Nat) (v w : Value) : Prop :=
  ∀ path : List Nat, path.length < n → v.unfolding h path = w.unfolding h path

/-- What agrees down to one depth agrees down to any smaller one. -/
theorem Agree.mono {m n : Nat} (hmn : m ≤ n) (ha : Agree h n v w) : Agree h m v w :=
  fun path hlen => ha path (hlen.trans_le hmn)

theorem agree_of_unfolding_eq (heq : v.unfolding h = w.unfolding h) (n : Nat) : Agree h n v w :=
  fun path _ => congrFun heq path

/-- What agrees down to every depth has one unfolding. -/
theorem unfolding_eq_of_agree (ha : ∀ n, Agree h n v w) : v.unfolding h = w.unfolding h := by
  funext path
  exact ha (path.length + 1) path (Nat.lt_succ_self _)

theorem size_inside_of_label (hl : v.label h = w.label h) :
    (v.inside h).size = (w.inside h).size := by
  cases v <;> cases w <;> simp_all [label, inside]

/-- Agreeing one level deeper is looking the same and agreeing inside. -/
theorem agree_succ {n : Nat} : Agree h (n + 1) v w ↔ v.label h = w.label h ∧
    List.Forall₂ (Agree h n) (v.inside h).toList (w.inside h).toList := by
  constructor
  · intro ha
    have hl : v.label h = w.label h := Option.some.inj (ha [] (Nat.succ_pos n))
    refine ⟨hl, List.forall₂_iff_get.mpr ⟨size_inside_of_label hl, fun i hi hj path hlen => ?_⟩⟩
    have hpath := ha (i :: path) (Nat.succ_lt_succ hlen)
    simp only [Array.length_toList] at hi hj
    simpa [unfolding_cons, hi, hj] using hpath
  · rintro ⟨hl, hin⟩ path hlen
    cases path with
    | nil => exact congrArg some hl
    | cons i path =>
      obtain ⟨hsize, hget⟩ := List.forall₂_iff_get.mp hin
      rw [unfolding_cons, unfolding_cons]
      by_cases hi : i < (v.inside h).size
      · have hj : i < (w.inside h).size := hi.trans_eq hsize
        have hx := hget i hi hj path (Nat.lt_of_succ_lt_succ hlen)
        simpa [hi, hj] using hx
      · have hj : ¬ i < (w.inside h).size := fun e => hi (e.trans_eq hsize.symm)
        rw [Array.getElem?_eq_none (Nat.le_of_not_lt hi),
          Array.getElem?_eq_none (Nat.le_of_not_lt hj)]

/-! ### Bisimilarity -/

theorem matches_iff {R : Value → Value → Prop} : Matches h R v w ↔ v.label h = w.label h ∧
    List.Forall₂ R (v.inside h).toList (w.inside h).toList := by
  constructor
  · intro hm
    cases hm with
    | decimal hv  => exact ⟨congrArg Label.decimal hv, .nil⟩
    | list hin    => exact ⟨congrArg Label.list hin.length_eq, hin⟩
    | callable hc => exact ⟨congrArg Label.callable hc, .nil⟩
    | _           => exact ⟨rfl, .nil⟩
  · rintro ⟨hl, hin⟩
    cases v <;> cases w <;> simp only [label, reduceCtorEq] at hl
    case decimal.decimal a b => exact .decimal (Label.decimal.inj hl)
    case integer.integer a b => exact Label.integer.inj hl ▸ .integer a
    case boolean.boolean a b => exact Label.boolean.inj hl ▸ .boolean a
    case text.text a b => exact Label.text.inj hl ▸ .text a
    case list.list a b => exact .list hin
    case symbol.symbol a b => exact Label.symbol.inj hl ▸ .symbol a
    case callable.callable a b => exact .callable (Label.callable.inj hl)

theorem inside_of_unfolding_eq (heq : v.unfolding h = w.unfolding h) :
    v.label h = w.label h ∧ List.Forall₂ (fun x y => x.unfolding h = y.unfolding h)
      (v.inside h).toList (w.inside h).toList := by
  have hsucc (n : Nat) := agree_succ.mp (agree_of_unfolding_eq heq (n + 1))
  refine ⟨(hsucc 0).1, List.forall₂_iff_zip.mpr ⟨(hsucc 0).2.length_eq, ?_⟩⟩
  intro x y hxy
  exact unfolding_eq_of_agree fun n => (List.forall₂_iff_zip.mp (hsucc n).2).2 hxy

/-- Values are bisimilar if they have one unfolding. -/
theorem bisimilar_iff : Bisimilar h v w ↔ v.unfolding h = w.unfolding h := by
  constructor
  · rintro ⟨R, hR, hvw⟩
    refine unfolding_eq_of_agree fun n => ?_
    induction n generalizing v w with
    | zero => exact fun path hlen => absurd hlen (Nat.not_lt_zero _)
    | succ n ih =>
      obtain ⟨hl, hin⟩ := matches_iff.mp (hR v w hvw)
      exact agree_succ.mpr ⟨hl, hin.imp fun x y => ih⟩
  · intro heq
    exact ⟨fun v w => v.unfolding h = w.unfolding h,
      fun v w e => matches_iff.mpr (inside_of_unfolding_eq e), heq⟩

/-! ### One comparison -/

/-- A comparison of two values inside of the pairs of lists `opened`. -/
structure Comparing where
  opened : List (ListRef × ListRef)
  left : Value
  right : Value

/-- The comparisons that a comparison asks for: of two lists that are not one list and not yet
opened, and of one length, the elements at each position. -/
inductive Asks (h : Heap) : Comparing → Comparing → Prop where
  | element {opened : List (ListRef × ListRef)} {a b : ListRef} {x y : Value} (hne : a ≠ b)
      (hopen : (a, b) ∉ opened) (hsize : (h.get a).size = (h.get b).size)
      (hxy : (x, y) ∈ (h.get a).toList.zip (h.get b).toList) :
      Asks h ⟨(a, b) :: opened, x, y⟩ ⟨opened, .list a, .list b⟩

/-- Comparing ends: there is no infinite chain of comparisons that ask for each other. -/
theorem asks_wellFounded (h : Heap) : WellFounded (Asks h) := by
  refine Subrelation.wf ?_
    (InvImage.wf (fun c => (Heap.unopened h.refPairs c.opened).length) Nat.lt_wfRel.wf)
  rintro _ _ ⟨-, hopen, -, hxy⟩
  obtain ⟨hx, hy⟩ := List.of_mem_zip hxy
  rw [Array.mem_toList_iff] at hx hy
  exact Heap.unopened_cons_lt (Heap.mem_refPairs.mpr ⟨Heap.has_of_mem hx, Heap.has_of_mem hy⟩) hopen

variable {opened : List (ListRef × ListRef)}

/-- The comparison of two lists.  That the lists are lists of the heap makes no difference. -/
theorem sameWithin_list {a b : ListRef} : sameWithin h opened (.list a) (.list b) = true ↔
    a = b ∨ (a, b) ∈ opened ∨ List.Forall₂ (fun x y => sameWithin h ((a, b) :: opened) x y = true)
      (h.get a).toList (h.get b).toList := by
  rw [sameWithin, List.forall₂_iff_zip]
  by_cases hab : a = b
  · simp [hab]
  by_cases hopen : (a, b) ∈ opened
  · simp [hopen]
  by_cases hsize : (h.get a).size = (h.get b).size
  · by_cases hhas : h.Has a ∧ h.Has b
    · simp [hab, hopen, hsize, hhas]
    · -- both are empty then, and there is nothing to compare
      have hzip (x y : Value) : (x, y) ∉ (h.get a).toList.zip (h.get b).toList := by
        intro hxy
        obtain ⟨hx, hy⟩ := List.of_mem_zip hxy
        rw [Array.mem_toList_iff] at hx hy
        exact hhas ⟨Heap.has_of_mem hx, Heap.has_of_mem hy⟩
      simp [hab, hopen, hsize, hhas, hzip]
  · simp [hab, hopen, hsize]

/-- Any other comparison is settled by what is seen of the values. -/
theorem sameWithin_other (hother : ¬ ∃ a b, v = .list a ∧ w = .list b) :
    sameWithin h opened v w = true ↔ v.label h = w.label h := by
  cases v <;> cases w <;> simp [sameWithin, label, Decimal.same_iff, Callable.same]
  case list.list a b => exact absurd ⟨a, b, rfl, rfl⟩ hother

theorem inside_of_other (hother : ¬ ∃ a b, v = .list a ∧ w = .list b)
    (hl : v.label h = w.label h) : v.inside h = #[] ∧ w.inside h = #[] := by
  cases v <;> cases w <;> simp only [label, reduceCtorEq] at hl
  case list.list a b => exact absurd ⟨a, b, rfl, rfl⟩ hother
  all_goals exact ⟨rfl, rfl⟩

/-! ### Soundness and completeness -/

/-- **A comparison that answers yes is right** as deep as the pairs it is inside of agree. -/
theorem agree_of_sameWithin (n : Nat)
    (hopened : ∀ p ∈ opened, Agree h n (.list p.1) (.list p.2))
    (hsame : sameWithin h opened v w = true) : Agree h n v w := by
  induction n generalizing opened v w with
  | zero => exact fun path hlen => absurd hlen (Nat.not_lt_zero _)
  | succ n ih =>
    by_cases hlists : ∃ a b, v = .list a ∧ w = .list b
    · obtain ⟨a, b, rfl, rfl⟩ := hlists
      have hshallow : ∀ p ∈ opened, Agree h n (.list p.1) (.list p.2) :=
        fun p hp => (hopened p hp).mono (Nat.le_succ n)
      -- the pair itself agrees one level less deep, which is all that its elements need of it
      have hpair : Agree h n (.list a) (.list b) := ih hshallow hsame
      rcases sameWithin_list.mp hsame with rfl | hmem | hin
      · exact agree_of_unfolding_eq rfl _
      · exact hopened _ hmem
      · refine agree_succ.mpr ⟨congrArg Label.list hin.length_eq, hin.imp fun x y hxy => ?_⟩
        exact ih (List.forall_mem_cons.mpr ⟨hpair, hshallow⟩) hxy
    · have hl := (sameWithin_other hlists).mp hsame
      obtain ⟨hv, hw⟩ := inside_of_other hlists hl
      refine agree_succ.mpr ⟨hl, ?_⟩
      rw [hv, hw]
      exact .nil

/-- Values with one unfolding are the same, whatever pairs are opened. -/
theorem sameWithin_of_unfolding_eq (c : Comparing)
    (heq : c.left.unfolding h = c.right.unfolding h) :
    sameWithin h c.opened c.left c.right = true := by
  induction c using (asks_wellFounded h).induction with
  | _ c ih =>
    -- a comparison of elements has one more pair opened, which is what the induction is on
    obtain ⟨opened, v, w⟩ := c
    obtain ⟨hl, hin⟩ := inside_of_unfolding_eq heq
    by_cases hlists : ∃ a b, v = .list a ∧ w = .list b
    · obtain ⟨a, b, rfl, rfl⟩ := hlists
      by_cases hab : a = b
      · exact sameWithin_list.mpr (.inl hab)
      by_cases hopen : (a, b) ∈ opened
      · exact sameWithin_list.mpr (.inr (.inl hopen))
      obtain ⟨hsize, helem⟩ := List.forall₂_iff_zip.mp hin
      refine sameWithin_list.mpr (.inr (.inr (List.forall₂_iff_zip.mpr ⟨hsize, ?_⟩)))
      intro x y hxy
      exact ih ⟨(a, b) :: opened, x, y⟩ (.element hab hopen hsize hxy) (helem hxy)
    · exact (sameWithin_other hlists).mpr hl

/-- The comparison finds out exactly whether the unfoldings are equal. -/
theorem same_iff_unfolding_eq : same h v w = true ↔ v.unfolding h = w.unfolding h := by
  constructor
  · intro hsame
    exact unfolding_eq_of_agree fun n => agree_of_sameWithin n (by simp) hsame
  · intro heq
    exact sameWithin_of_unfolding_eq ⟨[], v, w⟩ heq

/-! ### Numbers and truth values -/

/-- The value is no symbol and no operator. -/
def IsData : Value → Prop
  | symbol _ | callable _ => False
  | _                     => True

/-- The truth value of a value is in its label. -/
theorem isTruthy_eq_of_label (hl : v.label h = w.label h) : v.isTruthy h = w.isTruthy h := by
  cases v <;> cases w <;> simp only [label, reduceCtorEq] at hl
  case decimal.decimal a b =>
    have hzero : a.coeff = 0 ↔ b.coeff = 0 := by
      rw [← Decimal.toRat_eq_zero, ← Decimal.toRat_eq_zero, Label.decimal.inj hl]
    simp [isTruthy, Decimal.isZero, hzero]
  case list.list a b => simp only [isTruthy, Array.isEmpty, Label.list.inj hl]
  all_goals first | rfl | (cases hl; rfl)

theorem isTruthy_of_isData (hv : v.IsData) : ∃ b, v.isTruthy h = .ok b := by
  cases v <;> first | exact hv.elim | exact ⟨_, rfl⟩

/-- The number of a value is in its label. -/
theorem toNumber_of_label (hl : v.label h = w.label h) (hv : v.IsData) :
    ∃ a b, v.toNumber h = .ok a ∧ w.toNumber h = .ok b ∧ a.order b = .eq := by
  have hint (n : Int) : (Number.integer n).order (.integer n) = .eq := compare_eq_iff_eq.mpr rfl
  cases v <;> cases w <;> simp only [label, reduceCtorEq] at hl
  case decimal.decimal a b =>
    refine ⟨_, _, rfl, rfl, ?_⟩
    rw [Number.order]
    · exact (Decimal.order_eq_compare a b).trans (compare_eq_iff_eq.mpr (Label.decimal.inj hl))
    · simp
  case list.list a b => exact ⟨_, _, rfl, rfl, by rw [Label.list.inj hl]; exact hint _⟩
  case symbol.symbol => exact hv.elim
  case callable.callable => exact hv.elim
  all_goals
    cases hl
    exact ⟨_, _, rfl, rfl, hint _⟩

/-- **Structural equality decides bisimilarity.**  The comparison ends, and two values are the same
exactly if they are bisimilar, which is that they have one unfolding.  So it is an equivalence, and
data that is the same is equal as numbers and as truth values. -/
theorem same_decides_bisimilarity (h : Heap) :
    WellFounded (Asks h) ∧
    (∀ v w, same h v w = true ↔ Bisimilar h v w) ∧
    (∀ v w, Bisimilar h v w ↔ v.unfolding h = w.unfolding h) ∧
    Equivalence (fun v w => same h v w = true) ∧
    ∀ v w, same h v w = true → v.IsData →
      Comparison.eq.apply h v w = .ok (.boolean true) ∧
        ∃ b, v.isTruthy h = .ok b ∧ w.isTruthy h = .ok b := by
  refine ⟨asks_wellFounded h, ?_, ?_, ⟨?_, ?_, ?_⟩, ?_⟩
  · intro v w
    rw [same_iff_unfolding_eq, bisimilar_iff]
  · intro v w
    exact bisimilar_iff
  · intro v
    exact same_iff_unfolding_eq.mpr rfl
  · intro v w hvw
    exact same_iff_unfolding_eq.mpr (same_iff_unfolding_eq.mp hvw).symm
  · intro u v w huv hvw
    exact same_iff_unfolding_eq.mpr
      ((same_iff_unfolding_eq.mp huv).trans (same_iff_unfolding_eq.mp hvw))
  · intro v w hsame hv
    obtain ⟨hl, -⟩ := inside_of_unfolding_eq (same_iff_unfolding_eq.mp hsame)
    obtain ⟨b, hb⟩ := @isTruthy_of_isData h v hv
    obtain ⟨m, n, hm, hn, hmn⟩ := toNumber_of_label hl hv
    refine ⟨?_, b, hb, (isTruthy_eq_of_label hl).symm.trans hb⟩
    rw [Comparison.apply, hm, hn]
    show Except.ok (boolean (m.order n == .eq)) = _
    rw [hmn]
    rfl

end Value

end ListCalc
