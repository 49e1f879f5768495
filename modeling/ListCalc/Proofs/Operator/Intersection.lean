import ListCalc.Proofs.Value.Bisimilar
import ListCalc.Proofs.Value.Closed
import Mathlib.Tactic.IntervalCases

/-!
# Proofs — intersection is set intersection

Structural equality is an equivalence, so a list stands for a set of classes of equal values.
`IsIntersection` says what the intersection of two lists is then: the first element of each class
that has a member in both, in the order of the left list.

* `IsIntersection.skip`, `IsIntersection.keep` and `isIntersection_commonItems`: one element of the
  left list, and all of them; the induction is on the elements still to come, with what was found
  before them.
* `intersection_of_unchanged`: the new list that an intersection is does not change which values
  are equal, because nothing referred to it before.
* `intersect_is_intersection`: what follows for two lists, a list and another value, and two values
  that are no lists.
-/

namespace ListCalc

/-! ### The equivalence -/

namespace Value

variable {h : Heap} {u v w : Value}

/-- Every value is the same as itself. -/
theorem same_refl (h : Heap) (v : Value) : v.same h v = true :=
  same_iff_unfolding_eq.mpr rfl

theorem same_symm (huv : u.same h v = true) : v.same h u = true :=
  same_iff_unfolding_eq.mpr (same_iff_unfolding_eq.mp huv).symm

theorem same_trans (huv : u.same h v = true) (hvw : v.same h w = true) : u.same h w = true :=
  same_iff_unfolding_eq.mpr ((same_iff_unfolding_eq.mp huv).trans (same_iff_unfolding_eq.mp hvw))

end Value

/-- Whether a value is among others is a matter of sameness. -/
theorem containsSame_iff {h : Heap} {items : List Value} {v : Value} :
    containsSame h items v = true ↔ ∃ x ∈ items, v.same h x = true := by
  rw [containsSame, List.any_eq_true]
  exact exists_congr fun x => and_congr_right fun _ => ⟨Value.same_symm, Value.same_symm⟩

/-! ### Intersections -/

/-- The items are the first elements in `left` of the classes that have a member in `left` and in
`right`, in the order of `left`. -/
structure IsIntersection (h : Heap) (left right items : List Value) : Prop where
  /-- They stand at increasing positions of `left`, and nothing before such a position is the same
  as what stands there. -/
  firsts : ∃ positions : List Nat, positions.Pairwise (· < ·) ∧
    positions.map (left[·]?) = items.map some ∧
    ∀ i ∈ positions, ∀ x, left[i]? = some x → ∀ y ∈ left.take i, ¬ y.same h x = true
  distinct : items.Pairwise fun x y => ¬ x.same h y = true
  contains_iff : ∀ v : Value, (∃ x ∈ items, v.same h x = true) ↔
    (∃ x ∈ left, v.same h x = true) ∧ ∃ y ∈ right, v.same h y = true

/-- The two lists are equal as sets, and as long as each other. -/
def SameElements (h : Heap) (xs ys : List Value) : Prop :=
  xs.length = ys.length ∧
    ∀ v : Value, (∃ x ∈ xs, v.same h x = true) ↔ ∃ y ∈ ys, v.same h y = true

namespace IsIntersection

variable {h : Heap} {left right items : List Value} {x : Value}

/-- Of no elements none are common. -/
theorem nil (h : Heap) (right : List Value) : IsIntersection h [] right [] where
  firsts := ⟨[], .nil, rfl, fun i hi => absurd hi List.not_mem_nil⟩
  distinct := .nil
  contains_iff v := by simp

theorem exists_mem_concat {l : List Value} {P : Value → Prop} :
    (∃ y ∈ l ++ [x], P y) ↔ (∃ y ∈ l, P y) ∨ P x := by
  simp only [List.mem_append, List.mem_singleton, or_and_right, exists_or, exists_eq_left]

/-- The positions are positions of `left`. -/
theorem lt_of_mem_positions {positions : List Nat}
    (hmap : positions.map (left[·]?) = items.map some)
    {i : Nat} (hi : i ∈ positions) : i < left.length := by
  have hget : left[i]? ∈ items.map some := hmap ▸ List.mem_map_of_mem hi
  obtain ⟨y, -, hy⟩ := List.mem_map.mp hget
  exact (List.getElem?_eq_some_iff.mp hy.symm).1

theorem map_positions_append {positions : List Nat}
    (hmap : positions.map (left[·]?) = items.map some) (x : Value) :
    positions.map ((left ++ [x])[·]?) = items.map some := by
  rw [← hmap]
  exact List.map_congr_left fun i hi => List.getElem?_append_left (lt_of_mem_positions hmap hi)

/-- An element that has no member of its class in `right`, or had one before, is left out. -/
theorem skip (hi : IsIntersection h left right items)
    (hskip : ¬ (∃ y ∈ right, x.same h y = true) ∨ ∃ y ∈ items, x.same h y = true) :
    IsIntersection h (left ++ [x]) right items where
  firsts := by
    obtain ⟨positions, hlt, hmap, hfirst⟩ := hi.firsts
    refine ⟨positions, hlt, map_positions_append hmap x, fun i hpos z hz y hy => ?_⟩
    have hlen := lt_of_mem_positions hmap hpos
    rw [List.getElem?_append_left hlen] at hz
    rw [List.take_append_of_le_length hlen.le] at hy
    exact hfirst i hpos z hz y hy
  distinct := hi.distinct
  contains_iff v := by
    rw [exists_mem_concat, hi.contains_iff]
    constructor
    · rintro ⟨hold, hvright⟩
      exact ⟨.inl hold, hvright⟩
    · rintro ⟨hold | hvx, y, hy, hvy⟩
      · exact ⟨hold, y, hy, hvy⟩
      · rcases hskip with hright | ⟨z, hz, hxz⟩
        · exact absurd ⟨y, hy, Value.same_trans (Value.same_symm hvx) hvy⟩ hright
        · exact (hi.contains_iff v).mp ⟨z, hz, Value.same_trans hvx hxz⟩

/-- Any other element is the first of its class. -/
theorem keep (hi : IsIntersection h left right items) (hright : ∃ y ∈ right, x.same h y = true)
    (hnew : ¬ ∃ y ∈ items, x.same h y = true) :
    IsIntersection h (left ++ [x]) right (items ++ [x]) where
  firsts := by
    obtain ⟨positions, hlt, hmap, hfirst⟩ := hi.firsts
    refine ⟨positions ++ [left.length], ?_, ?_, ?_⟩
    · refine List.pairwise_append.mpr ⟨hlt, List.pairwise_singleton _ _, ?_⟩
      rintro i hpos j hj
      rw [List.mem_singleton.mp hj]
      exact lt_of_mem_positions hmap hpos
    · rw [List.map_append, map_positions_append hmap x, List.map_append]
      simp
    · intro i hpos z hz y hy
      rcases List.mem_append.mp hpos with hpos | hpos
      · have hlen := lt_of_mem_positions hmap hpos
        rw [List.getElem?_append_left hlen] at hz
        rw [List.take_append_of_le_length hlen.le] at hy
        exact hfirst i hpos z hz y hy
      · -- an earlier element of its class would have put the class among the items
        obtain rfl := List.mem_singleton.mp hpos
        obtain rfl : x = z := by simpa using hz
        rw [List.take_left] at hy
        intro hyx
        exact hnew ((hi.contains_iff x).mpr ⟨⟨y, hy, Value.same_symm hyx⟩, hright⟩)
  distinct := by
    refine List.pairwise_append.mpr ⟨hi.distinct, List.pairwise_singleton _ _, ?_⟩
    intro y hy z hz hyz
    rw [List.mem_singleton.mp hz] at hyz
    exact hnew ⟨y, hy, Value.same_symm hyz⟩
  contains_iff v := by
    rw [exists_mem_concat, exists_mem_concat, hi.contains_iff]
    constructor
    · rintro (hold | hvx)
      · exact ⟨.inl hold.1, hold.2⟩
      · obtain ⟨y, hy, hxy⟩ := hright
        exact ⟨.inr hvx, y, hy, Value.same_trans hvx hxy⟩
    · rintro ⟨hold | hvx, hvright⟩
      · exact .inl ⟨hold, hvright⟩
      · exact .inr hvx

/-- The intersections of two lists in either order have the same elements. -/
theorem comm {back : List Value} (hi : IsIntersection h left right items)
    (hback : IsIntersection h right left back) : SameElements h items back := by
  have hclasses (v : Value) : (∃ x ∈ items, v.same h x = true) ↔ ∃ y ∈ back, v.same h y = true := by
    rw [hi.contains_iff, hback.contains_iff, and_comm]
  refine ⟨?_, hclasses⟩
  -- a class is an unfolding, and neither list has two members in one class
  have hnodup {l : List Value} (hl : l.Pairwise fun x y => ¬ x.same h y = true) :
      (l.map fun x => x.unfolding h).Nodup := by
    refine List.pairwise_map.mpr (hl.imp fun hxy => ?_)
    exact mt Value.same_iff_unfolding_eq.mpr hxy
  have hperm : (items.map fun x => x.unfolding h).Perm (back.map fun x => x.unfolding h) := by
    refine (List.perm_ext_iff_of_nodup (hnodup hi.distinct) (hnodup hback.distinct)).mpr fun c => ?_
    simp only [List.mem_map]
    constructor
    · rintro ⟨x, hx, rfl⟩
      obtain ⟨y, hy, hxy⟩ := (hclasses x).mp ⟨x, hx, Value.same_refl h x⟩
      exact ⟨y, hy, (Value.same_iff_unfolding_eq.mp hxy).symm⟩
    · rintro ⟨y, hy, rfl⟩
      obtain ⟨x, hx, hyx⟩ := (hclasses y).mpr ⟨y, hy, Value.same_refl h y⟩
      exact ⟨x, hx, (Value.same_iff_unfolding_eq.mp hyx).symm⟩
  simpa using hperm.length_eq

end IsIntersection

/-- The loop over the left list, after what was found in the elements `done` before it. -/
theorem isIntersection_commonItems {h : Heap} {right found done : List Value} (left : List Value)
    (hi : IsIntersection h done right found.reverse) :
    IsIntersection h (done ++ left) right (commonItems h right found left) := by
  induction left generalizing found done with
  | nil => simpa [commonItems] using hi
  | cons x left ih =>
    have hassoc : done ++ x :: left = (done ++ [x]) ++ left := by simp
    rw [commonItems, hassoc]
    by_cases hkeep : (containsSame h right x && !containsSame h found.reverse x) = true
    · rw [if_pos hkeep]
      rw [Bool.and_eq_true, containsSame_iff, Bool.not_eq_true', ← Bool.not_eq_true,
        containsSame_iff] at hkeep
      refine ih ?_
      rw [List.reverse_cons]
      exact hi.keep hkeep.1 hkeep.2
    · rw [if_neg hkeep]
      rw [Bool.and_eq_true, containsSame_iff, Bool.not_eq_true', ← Bool.not_eq_true,
        containsSame_iff] at hkeep
      exact ih (hi.skip (imp_iff_not_or.mp (not_and_not_right.mp hkeep)))

/-- Items that are distinct already are all kept. -/
theorem commonItems_of_distinct {h : Heap} {right : List Value} (found left : List Value)
    (hright : ∀ x ∈ left, x ∈ right)
    (hdistinct : (found.reverse ++ left).Pairwise fun x y => ¬ x.same h y = true) :
    commonItems h right found left = found.reverse ++ left := by
  induction left generalizing found with
  | nil => simp [commonItems]
  | cons x left ih =>
    have hx : containsSame h right x = true :=
      containsSame_iff.mpr ⟨x, hright x (.head _), Value.same_refl h x⟩
    have hnew : ¬ containsSame h found.reverse x = true := by
      rw [containsSame_iff]
      rintro ⟨y, hy, hxy⟩
      exact (List.pairwise_append.mp hdistinct).2.2 y hy x (.head _) (Value.same_symm hxy)
    have hassoc : found.reverse ++ x :: left = (x :: found).reverse ++ left := by simp
    rw [hassoc] at hdistinct ⊢
    rw [commonItems, if_pos (by simp [hx, hnew])]
    exact ih (x :: found) (fun y hy => hright y (.tail _ hy)) hdistinct

/-! ### A new list changes nothing -/

/-- The lists that were there are as they were. -/
def Unchanged (h h' : Heap) : Prop := ∀ q, h.Has q → h'.get q = h.get q

section Unchanged

variable {h h' : Heap} {v w : Value}

/-- Where old lists are unchanged, the inside of an old value is. -/
theorem inside_of_unchanged (hold : Unchanged h h') (hv : v.Within h) :
    v.inside h' = v.inside h := by
  cases v with
  | list r => exact hold r (hv r rfl)
  | _ => rfl

/-- Where old lists are unchanged, the label of an old value is. -/
theorem label_of_unchanged (hold : Unchanged h h') (hv : v.Within h) : v.label h' = v.label h := by
  cases v with
  | list r => exact congrArg (fun items => Label.list items.size) (hold r (hv r rfl))
  | _ => rfl

/-- What is inside of a value of a closed heap is in the heap. -/
theorem within_of_inside (hc : h.Closed) {i : Nat} (hi : (v.inside h)[i]? = some w) :
    w.Within h := by
  cases v with
  | list r => exact hc r w (Array.mem_of_getElem? hi)
  | _ => simp [Value.inside] at hi

/-- What is within a closed heap unfolds as before. -/
theorem unfolding_of_unchanged (hc : h.Closed) (hold : Unchanged h h') (hv : v.Within h) :
    v.unfolding h' = v.unfolding h := by
  funext path
  induction path generalizing v with
  | nil => exact congrArg some (label_of_unchanged hold hv)
  | cons i path ih =>
    rw [Value.unfolding_cons, Value.unfolding_cons, inside_of_unchanged hold hv]
    cases hi : (v.inside h)[i]? with
    | none => rfl
    | some x => exact ih (within_of_inside hc hi)

/-- Where old lists are unchanged, old values are the same or not as before. -/
theorem same_of_unchanged (hc : h.Closed) (hold : Unchanged h h') (hv : v.Within h)
    (hw : w.Within h) : v.same h' w = v.same h w := by
  rw [Bool.eq_iff_iff, Value.same_iff_unfolding_eq, Value.same_iff_unfolding_eq,
    unfolding_of_unchanged hc hold hv, unfolding_of_unchanged hc hold hw]

theorem containsSame_of_unchanged (hc : h.Closed) (hold : Unchanged h h') {items : List Value}
    (hitems : ∀ x ∈ items, x.Within h) (hv : v.Within h) :
    containsSame h' items v = containsSame h items v := by
  rw [Bool.eq_iff_iff, containsSame, containsSame, List.any_eq_true, List.any_eq_true]
  refine exists_congr fun x => and_congr_right fun hx => ?_
  rw [same_of_unchanged hc hold (hitems x hx) hv]

/-- Where old lists are unchanged, old values have the same common elements. -/
theorem commonItems_of_unchanged (hc : h.Closed) (hold : Unchanged h h')
    {right found left : List Value} (hright : ∀ x ∈ right, x.Within h)
    (hfound : ∀ x ∈ found, x.Within h) (hleft : ∀ x ∈ left, x.Within h) :
    commonItems h' right found left = commonItems h right found left := by
  induction left generalizing found with
  | nil => rfl
  | cons x left ih =>
    obtain ⟨hx, hleft⟩ := List.forall_mem_cons.mp hleft
    have hreverse : ∀ y ∈ found.reverse, y.Within h := fun y hy =>
      hfound y (List.mem_reverse.mp hy)
    rw [commonItems, commonItems, containsSame_of_unchanged hc hold hright hx,
      containsSame_of_unchanged hc hold hreverse hx, ih hfound hleft,
      ih (List.forall_mem_cons.mpr ⟨hx, hfound⟩) hleft]

/-- Where old lists are unchanged, old values have the same intersection. -/
theorem intersection_of_unchanged (hc : h.Closed) (hold : Unchanged h h') (hv : v.Within h)
    (hw : w.Within h) : intersection h' v w = intersection h v w := by
  have hitems {r : ListRef} : ∀ x ∈ (h.get r).toList, x.Within h :=
    fun x hx => hc r x (Array.mem_toList_iff.mp hx)
  have hget {r : ListRef} (hr : (Value.list r).Within h) : h'.get r = h.get r := hold r (hr r rfl)
  unfold intersection
  split
  · rw [hget hv, hget hw]
    exact commonItems_of_unchanged hc hold hitems (by simp) hitems
  · rw [hget hv, containsSame_of_unchanged hc hold hitems hw]
  · rw [hget hw, containsSame_of_unchanged hc hold hitems hv]
  · rfl

end Unchanged

/-! ### The intersection -/

/-- The elements of the new list. -/
theorem elements_intersect (h : Heap) (left right : Value) :
    elements (intersect h left right).2 (intersect h left right).1 = intersection h left right :=
  elements_newList h _

/-- An intersection changes no old list. -/
theorem unchanged_intersect (h : Heap) (left right : Value) :
    Unchanged h (intersect h left right).2 := by
  obtain ⟨-, -, -, -, hold⟩ := IsNew.intersect h left right
  exact hold

theorem Unchanged.trans_intersect {h h' : Heap} (hold : Unchanged h h')
    (hhas : ∀ q, h.Has q → h'.Has q) (left right : Value) :
    Unchanged h (intersect h' left right).2 := fun q hq =>
  (unchanged_intersect h' left right q (hhas q hq)).trans (hold q hq)

theorem within_of_has {h : Heap} {r : ListRef} (hr : h.Has r) : (Value.list r).Within h := by
  rintro q ⟨⟩
  exact hr

/-- Two lists have their intersection in common, also as a heap sees it that has more lists. -/
theorem isIntersection_intersection {h h' : Heap} (hc : h.Closed) (hold : Unchanged h h')
    {a b : ListRef} (ha : h.Has a) (hb : h.Has b) :
    IsIntersection h' (h.get a).toList (h.get b).toList (intersection h (.list a) (.list b)) := by
  rw [← intersection_of_unchanged hc hold (within_of_has ha) (within_of_has hb), intersection,
    hold a ha, hold b hb]
  have hstart : IsIntersection h' [] (h.get b).toList (List.reverse []) := .nil h' _
  exact isIntersection_commonItems (h.get a).toList hstart

/-- A list of distinct elements has all of them in common with itself. -/
theorem intersection_self {h : Heap} {r : ListRef}
    (hdistinct : (h.get r).toList.Pairwise fun x y => ¬ x.same h y = true) :
    intersection h (.list r) (.list r) = (h.get r).toList :=
  commonItems_of_distinct [] _ (fun _ hx => hx) hdistinct

/-- The intersection the other way round, seen when both are there. -/
theorem sameElements_intersect_swap {h : Heap} (hc : h.Closed) {a b : ListRef} (ha : h.Has a)
    (hb : h.Has b) :
    let out := intersect h (.list a) (.list b)
    let back := intersect out.2 (.list b) (.list a)
    SameElements back.2 (elements back.2 out.1) (elements back.2 back.1) := by
  intro out back
  obtain ⟨r, hr, -, hhas, hnew⟩ := IsNew.intersect h (.list a) (.list b)
  have hold : Unchanged h back.2 :=
    Unchanged.trans_intersect hnew (fun q hq => (Grew.newList h _).has hq) _ _
  have hout : elements back.2 out.1 = intersection h (.list a) (.list b) := by
    rw [← elements_intersect h (.list a) (.list b), show out.1 = .list r from hr]
    exact congrArg Array.toList (unchanged_intersect out.2 _ _ r hhas)
  have hback : elements back.2 back.1 = intersection h (.list b) (.list a) := by
    rw [elements_intersect]
    exact intersection_of_unchanged hc hnew (within_of_has hb) (within_of_has ha)
  rw [hout, hback]
  exact (isIntersection_intersection hc hold ha hb).comm
    (isIntersection_intersection hc hold hb ha)

/-- A list and a value that is none have the value in common if it is an element. -/
theorem intersection_scalar {h : Heap} {a : ListRef} {scalar : Value}
    (hscalar : ∀ r, scalar ≠ .list r) :
    intersection h (.list a) scalar =
        (if containsSame h (h.get a).toList scalar then [scalar] else []) ∧
      intersection h scalar (.list a) =
        (if containsSame h (h.get a).toList scalar then [scalar] else []) := by
  cases scalar with
  | list r => exact absurd rfl (hscalar r)
  | _ => exact ⟨rfl, rfl⟩

/-- Two values that are no lists have nothing in common. -/
theorem intersection_of_no_list {h : Heap} {left right : Value} (hleft : ∀ r, left ≠ .list r)
    (hright : ∀ r, right ≠ .list r) : intersection h left right = [] := by
  unfold intersection
  split
  · next a b => exact absurd rfl (hleft a)
  · next a _ => exact absurd rfl (hleft a)
  · next b _ => exact absurd rfl (hright b)
  · rfl

/-- **Intersection is set intersection under structural equality.**  It ends, and its result is a
new list beside which every list is as it was.  The intersection of two lists is that of their sets,
in the order of the left one; the other way round it has the same elements, and with itself it is
what it is.  A value that is no list has itself in common with a list that it is an element of, and
nothing with any other value that is no list. -/
theorem intersect_is_intersection {h : Heap} (hc : h.Closed) :
    WellFounded (Value.Asks h) ∧
    (∀ left right : Value, IsNew h (intersect h left right)) ∧
    (∀ a b : ListRef, h.Has a → h.Has b →
      let out := intersect h (.list a) (.list b)
      let back := intersect out.2 (.list b) (.list a)
      let again := intersect out.2 out.1 out.1
      IsIntersection out.2 (h.get a).toList (h.get b).toList (elements out.2 out.1) ∧
      SameElements back.2 (elements back.2 out.1) (elements back.2 back.1) ∧
      elements again.2 again.1 = elements out.2 out.1) ∧
    (∀ (a : ListRef) (scalar : Value), (∀ r, scalar ≠ .list r) →
      ∀ out ∈ [intersect h (.list a) scalar, intersect h scalar (.list a)],
        ((∃ x ∈ (h.get a).toList, scalar.same h x = true) → elements out.2 out.1 = [scalar]) ∧
        ((¬ ∃ x ∈ (h.get a).toList, scalar.same h x = true) → elements out.2 out.1 = [])) ∧
    ∀ left right : Value, (∀ r, left ≠ .list r) → (∀ r, right ≠ .list r) →
      elements (intersect h left right).2 (intersect h left right).1 = [] := by
  refine ⟨Value.asks_wellFounded h, IsNew.intersect h, ?_, ?_, ?_⟩
  · intro a b ha hb out back again
    have hitems :
        IsIntersection out.2 (h.get a).toList (h.get b).toList (elements out.2 out.1) := by
      rw [elements_intersect]
      exact isIntersection_intersection hc (unchanged_intersect h _ _) ha hb
    refine ⟨hitems, sameElements_intersect_swap hc ha hb, ?_⟩
    obtain ⟨r, hr, -⟩ := IsNew.intersect h (.list a) (.list b)
    have hr : out.1 = .list r := hr
    have hdistinct := hitems.distinct
    rw [elements_intersect]
    rw [hr] at hdistinct ⊢
    exact intersection_self hdistinct
  · intro a scalar hscalar out hmem
    obtain ⟨hleft, hright⟩ := intersection_scalar hscalar
    have hitems : elements out.2 out.1 =
        if containsSame h (h.get a).toList scalar then [scalar] else [] := by
      rcases List.mem_pair.mp hmem with rfl | rfl
      · rw [elements_intersect, hleft]
      · rw [elements_intersect, hright]
    rw [hitems, ← containsSame_iff]
    exact ⟨fun hin => if_pos hin, fun hout => if_neg hout⟩
  · intro left right hleft hright
    rw [elements_intersect, intersection_of_no_list hleft hright]

/-- Two lists that contain themselves and look alike, each in a list beside other elements. -/
def twins : Heap :=
  ⟨#[#[.list ⟨0⟩, .integer 1], #[.list ⟨1⟩, .integer 1],
    #[.text "x", .list ⟨0⟩, .integer 1, .list ⟨1⟩], #[.list ⟨1⟩, .text "x", .list ⟨3⟩]]⟩

theorem twins_closed : twins.Closed := by
  rintro ⟨i⟩ v hv r rfl
  have hi : i < 4 := Heap.has_of_mem hv
  show r.index < 4
  interval_cases i
  all_goals
    simp [twins, Heap.get] at hv
    rcases hv with rfl | rfl <;> decide

theorem intersect_is_intersection_twins :
    let out := intersect twins (.list ⟨2⟩) (.list ⟨3⟩)
    let again := intersect out.2 out.1 out.1
    twins.Closed ∧ twins.Has ⟨2⟩ ∧ twins.Has ⟨3⟩ ∧
      IsIntersection out.2 (twins.get ⟨2⟩).toList (twins.get ⟨3⟩).toList (elements out.2 out.1) ∧
      elements again.2 again.1 = elements out.2 out.1 := by
  obtain ⟨-, -, hlists, -⟩ := intersect_is_intersection twins_closed
  obtain ⟨hitems, -, hagain⟩ := hlists ⟨2⟩ ⟨3⟩ (by decide) (by decide)
  exact ⟨twins_closed, by decide, by decide, hitems, hagain⟩

end ListCalc
