import ListCalc.Proofs.Value.Growth

/-!
# Proofs — no reference leads out of the heap

`Heap.Closed`: every list that is an element of a list is there itself.  The operators keep this,
because what they put into a list is an element of an operand, an operand, a constant, or a list
that is there or that they have just added.

* `Contained op h`: the operation leaves a closed heap, and its result is within that.
* `Body.contained`: an operator of the host keeps to this, by induction on its body.
  `UnaryAction.contained` and `BinaryAction.contained` say it of every operator.

In a closed heap a list that was not there before is one that nothing referred to.
-/

namespace ListCalc

/-- If the value is a list, it is one of the heap's. -/
def Value.Within (h : Heap) (v : Value) : Prop := ∀ r, v = .list r → h.Has r

/-- What the lists hold is within the heap. -/
def Heap.Closed (h : Heap) : Prop := ∀ r, ∀ v ∈ h.get r, v.Within h

variable {h h' : Heap} {v left right : Value} {items : Array Value}

/-- What is in a heap is still in it when it has grown. -/
theorem Value.Within.grew {joins : List (Value × Value)} (hv : v.Within h) (hg : Grew h h' joins) :
    v.Within h' :=
  fun r hr => hg.has (hv r hr)

theorem Value.within_of_not_list (hv : ∀ r, v ≠ .list r) : v.Within h :=
  fun r hr => absurd hr (hv r)

namespace Heap

theorem closed_empty : Heap.empty.Closed :=
  fun _ _ hv => absurd (has_of_mem hv) (Nat.not_lt_zero _)

/-- A new list of what is in the heap is in the heap. -/
theorem Closed.newList (hc : h.Closed) (hitems : ∀ v ∈ items, v.Within h) :
    (h.newList items).2.Closed ∧ (h.newList items).1.Within (h.newList items).2 := by
  have hg := Grew.newList h items
  have hsize : (h.newList items).2.size = h.size + 1 := size_alloc h items
  constructor
  · intro r v hv
    have hr : r.index < (h.newList items).2.size := has_of_mem hv
    rw [hsize] at hr
    rcases Nat.lt_succ_iff_lt_or_eq.mp hr with hlt | heq
    · have hold : (h.newList items).2.get r = h.get r := get_alloc_old items hlt
      rw [hold] at hv
      exact (hc r v hv).grew hg
    · have hnew : (h.newList items).2.get r = items := by
        rw [show r = (h.alloc items).1 from congrArg ListRef.mk heq]
        exact get_alloc_new h items
      rw [hnew] at hv
      exact (hitems v hv).grew hg
  · rintro r ⟨⟩
    exact Nat.lt_of_lt_of_eq (Nat.lt_succ_self _) hsize.symm

/-- What is in the heap may be appended to a list. -/
theorem Closed.append (hc : h.Closed) (hv : v.Within h) (r : ListRef) : (h.append r v).Closed := by
  have hg := Grew.append h r v
  intro q x hx
  have hq : h.Has q := Nat.lt_of_lt_of_eq (has_of_mem hx) (size_append h r v)
  by_cases hqr : q = r
  · subst hqr
    rw [get_append_self v hq, Array.mem_push] at hx
    rcases hx with hx | rfl
    · exact (hc q x hx).grew hg
    · exact hv.grew hg
  · rw [get_append_other v hqr] at hx
    exact (hc q x hx).grew hg

/-- New lists of what is in the heap are in the heap. -/
theorem Closed.newLists {contents : List (Array Value)} (hc : h.Closed)
    (hitems : ∀ items ∈ contents, ∀ v ∈ items, v.Within h) :
    (h.newLists contents).2.Closed ∧
      ∀ v ∈ (h.newLists contents).1, v.Within (h.newLists contents).2 := by
  -- along the way the heap has only grown, so the elements still to be stored are within it
  have hall := newLists_induction contents
    (fun vs h₁ => Grew h h₁ [] ∧ h₁.Closed ∧ ∀ v ∈ vs, v.Within h₁)
    ⟨.refl h, hc, fun v hv => absurd hv (Array.not_mem_empty v)⟩ ?_
  · exact hall.2
  · rintro vs h₁ ⟨hg, hc₁, hvs⟩ items hmem
    obtain ⟨hc₂, hnew⟩ := hc₁.newList fun v hv => (hitems items hmem v hv).grew hg
    have hg₂ := Grew.newList h₁ items
    refine ⟨hg.trans hg₂, hc₂, fun v hv => ?_⟩
    rcases Array.mem_push.mp hv with hv | rfl
    · exact (hvs v hv).grew hg₂
    · exact hnew

/-- A new list of new lists is in the heap if the elements are. -/
theorem Closed.listOfLists {contents : List (Array Value)} (hc : h.Closed)
    (hitems : ∀ items ∈ contents, ∀ v ∈ items, v.Within h) :
    (listOfLists h contents).2.Closed ∧
      (listOfLists h contents).1.Within (listOfLists h contents).2 := by
  obtain ⟨hc₁, hvs⟩ := hc.newLists hitems
  exact hc₁.newList hvs

end Heap

/-! ### Operators -/

/-- The operation leaves a closed heap, and its result is within that. -/
abbrev Contained (op : Operation Value) (h : Heap) : Prop :=
  Leaves Heap.Closed (fun v h => v.Within h) op h

/-- An attempt is contained if it is where it does not fail. -/
theorem Contained.attempt {f : Heap → Except OperatorFault (Value × Heap)} (hc : h.Closed)
    (hok : ∀ out, f h = .ok out → out.2.Closed ∧ out.1.Within out.2) :
    Contained (.attempt f) h := by
  have happly := Operation.attempt_apply f h
  cases hf : f h with
  | ok out =>
    rw [hf] at happly
    exact .of_ok happly (hok out hf).1 (hok out hf).2
  | error fault =>
    rw [hf] at happly
    exact .of_error happly hc

/-- A look leaves a closed heap closed. -/
theorem leaves_look {α : Type} {f : Heap → Except OperatorFault α} {Q : α → Heap → Prop}
    (hc : h.Closed) (hok : ∀ a, f h = .ok a → Q a h) :
    Leaves Heap.Closed Q (Operation.look f) h := by
  have happly := Operation.look_apply f h
  cases hf : f h with
  | ok a =>
    rw [hf] at happly
    exact .of_ok happly hc (hok a hf)
  | error fault =>
    rw [hf] at happly
    exact .of_error happly hc

/-- A join gives what is in the heap afterwards. -/
theorem closed_cons (hc : h.Closed) (hl : left.Within h) (hr : right.Within h) :
    (cons h left right).2.Closed ∧ (cons h left right).1.Within (cons h left right).2 := by
  by_cases hlist : ∃ r, left = .list r
  · obtain ⟨r, rfl⟩ := hlist
    exact ⟨hc.append hr r, hl.grew (.append h r right)⟩
  · rw [cons_of_not_list (not_exists.mp hlist)]
    refine hc.newList fun v hv => ?_
    have hv : v = left ∨ v = right := by simpa using hv
    rcases hv with rfl | rfl
    · exact hl
    · exact hr

theorem Contained.cons (hc : h.Closed) (hl : left.Within h) (hr : right.Within h) :
    Contained (modifyGet fun h => ListCalc.cons h left right) h :=
  .of_ok rfl (closed_cons hc hl hr).1 (closed_cons hc hl hr).2

/-- The elements of a range are numbers. -/
theorem Contained.range (hc : h.Closed) (left right : Value) :
    Contained (.attempt fun h => ListCalc.range h left right) h := by
  refine .attempt hc fun out hout => ?_
  obtain ⟨items, rfl, hitems⟩ := range_eq_ok hout
  exact hc.newList fun v hv => Value.within_of_not_list fun r hr => hitems r (hr ▸ hv)

/-- The elements of what is in the heap are in the heap. -/
theorem within_of_mem_elements (hc : h.Closed) (hv : v.Within h) {x : Value}
    (hx : x ∈ elements h v) : x.Within h := by
  cases v with
  | list r => exact hc r x (Array.mem_toList_iff.mp hx)
  | _ => exact List.mem_singleton.mp hx ▸ hv

/-- A common element is one of the first operand, or found already. -/
theorem mem_of_mem_commonItems {items found : List Value} {x : Value} {as : List Value}
    (hx : x ∈ commonItems h items found as) : x ∈ found ∨ x ∈ as := by
  induction as generalizing found with
  | nil => exact .inl (List.mem_reverse.mp hx)
  | cons a as ih =>
    rw [commonItems] at hx
    split at hx
    · rcases ih hx with hmem | hmem
      · rcases List.mem_cons.mp hmem with rfl | hmem
        · exact .inr (.head _)
        · exact .inl hmem
      · exact .inr (.tail _ hmem)
    · exact (ih hx).imp_right (.tail _)

theorem mem_elements_self (hv : ∀ r, v ≠ .list r) : v ∈ elements h v := by
  cases v with
  | list r => exact absurd rfl (hv r)
  | _ => exact .head _

theorem eq_of_mem_ite {c : Bool} {x : Value} (hx : x ∈ if c = true then [v] else []) : x = v := by
  cases c with
  | true => exact List.mem_singleton.mp hx
  | false => cases hx

/-- What two values have in common are elements of one of them. -/
theorem mem_of_mem_intersection {x : Value} (hx : x ∈ intersection h left right) :
    x ∈ elements h left ∨ x ∈ elements h right := by
  unfold intersection at hx
  split at hx
  · exact .inl ((mem_of_mem_commonItems hx).resolve_left List.not_mem_nil)
  · next a hscalar =>
    rw [eq_of_mem_ite hx]
    exact .inr (mem_elements_self hscalar)
  · next b hscalar =>
    rw [eq_of_mem_ite hx]
    exact .inl (mem_elements_self hscalar)
  · cases hx

/-- An intersection gives what is in the heap afterwards. -/
theorem Contained.intersect (hc : h.Closed) (hl : left.Within h) (hr : right.Within h) :
    Contained (modifyGet fun h => ListCalc.intersect h left right) h := by
  have hitems : ∀ v ∈ (intersection h left right).toArray, v.Within h := by
    intro v hv
    rcases mem_of_mem_intersection (List.mem_toArray.mp hv) with hv | hv
    · exact within_of_mem_elements hc hl hv
    · exact within_of_mem_elements hc hr hv
  exact .of_ok rfl (hc.newList hitems).1 (hc.newList hitems).2

/-! ### Actions -/

/-- A literal gives what is in the heap afterwards. -/
theorem closed_literal (hc : h.Closed) (value : Literal) :
    (value.toValue h).2.Closed ∧ (value.toValue h).1.Within (value.toValue h).2 := by
  cases value with
  | null => exact hc.newList fun v hv => absurd hv (Array.not_mem_empty v)
  | _ => exact ⟨hc, Value.within_of_not_list nofun⟩

/-- The list that a body holds on to is in the heap once it is asked for. -/
theorem closed_heldList (hc : h.Closed) (ref : ListRef) :
    (Body.heldList ref h).2.Closed ∧ (Body.heldList ref h).1.Within (Body.heldList ref h).2 := by
  rw [Body.heldList]
  split
  · rename_i href
    refine ⟨hc, ?_⟩
    rintro r ⟨⟩
    exact href
  · exact hc.newList fun v hv => absurd hv (Array.not_mem_empty v)

/-- A comparison gives no list. -/
theorem compare_ne_list {op : Comparison} (hv : op.apply h left right = .ok v) (r : ListRef) :
    v ≠ .list r := by
  obtain ⟨a, -, hv⟩ := steps_of_bind_ok hv
  obtain ⟨b, -, hv⟩ := steps_of_bind_ok hv
  cases hv
  nofun

/-- What was within the heap is so after a part of a body has run. -/
theorem Value.Within.ran {n : Nat} {body : Body n} {operands : Vector Value n} {x : Value}
    (hv : v.Within h) (hx : body.run operands h = .ok x h') : v.Within h' := by
  have hg := body.grows operands h
  rw [Grows, after_of_ok hx] at hg
  exact hv.grew hg

/-- **An operator of the host stays within the heap** if its operands are within it. -/
theorem Body.contained {n : Nat} (body : Body n) {operands : Vector Value n} (hc : h.Closed)
    (ho : ∀ v ∈ operands, v.Within h) : Contained (body.run operands) h := by
  induction body generalizing h with
  | operand place => exact .of_ok rfl hc (ho _ (Vector.getElem_mem place.isLt))
  | literal value => exact .of_ok rfl (closed_literal hc value).1 (closed_literal hc value).2
  | held ref => exact .of_ok rfl (closed_heldList hc ref).1 (closed_heldList hc ref).2
  | compare op left right ihl ihr =>
    rw [run]
    refine (ihl hc ho).bind fun l h₁ hl hc₁ _ => ?_
    refine (ihr hc₁ fun v hv => (ho v hv).ran hl).bind fun r h₂ _ hc₂ _ => ?_
    exact leaves_look hc₂ fun v hv => Value.within_of_not_list (compare_ne_list hv)
  | join left right ihl ihr =>
    rw [run]
    refine (ihl hc ho).bind fun l h₁ hl hc₁ hlw => ?_
    refine (ihr hc₁ fun v hv => (ho v hv).ran hl).bind fun r h₂ hr hc₂ hrw => ?_
    exact Contained.cons hc₂ (hlw.ran hr) hrw
  | andThen first second ihf ihs =>
    rw [run]
    refine (ihf hc ho).bind fun x h₁ hx hc₁ hxw => ihs hc₁ fun v hv => ?_
    rcases Vector.mem_push.mp hv with hv | rfl
    · exact (ho v hv).ran hx
    · exact hxw
  | choose test yes no iht ihy ihn =>
    rw [run]
    refine (iht hc ho).bind fun x h₁ hx hc₁ _ => ?_
    -- the test has been looked at in the heap that the branch starts from
    refine (leaves_look (Q := fun _ h₂ => h₂ = h₁) hc₁ fun _ _ => rfl).bind ?_
    rintro b _ - hc₂ rfl
    cases b with
    | true => exact ihy hc₂ fun v hv => (ho v hv).ran hx
    | false => exact ihn hc₂ fun v hv => (ho v hv).ran hx
  | refuse reason => exact .of_error rfl hc

/-- A unary operator, the host's included, gives what is in the heap afterwards. -/
theorem UnaryAction.contained (action : UnaryAction) (hc : h.Closed) (hv : v.Within h) :
    Contained (action.run v) h := by
  cases action with
  | size => exact .of_ok rfl hc (Value.within_of_not_list nofun)
  | permutations =>
    refine .attempt hc fun out hout => ?_
    rw [permutations_eq_ok hout]
    refine hc.listOfLists fun items hitems x hx => ?_
    exact within_of_mem_elements hc hv (mem_of_mem_allOrderings hitems hx)
  | host body =>
    refine body.contained hc fun x hx => ?_
    have hx : x = v := by simpa [soleOperand] using hx
    exact hx ▸ hv

/-- A binary operator, the host's included, gives what is in the heap afterwards. -/
theorem BinaryAction.contained (action : BinaryAction) (hc : h.Closed) (hl : left.Within h)
    (hr : right.Within h) : Contained (action.run left right) h := by
  cases action with
  | product =>
    have hpairs : ∀ items ∈ pairs (elements h left) (elements h right), ∀ x ∈ items,
        x.Within h := by
      intro items hitems x hx
      simp only [pairs, List.mem_flatMap, List.mem_map] at hitems
      obtain ⟨a, ha, b, hb, rfl⟩ := hitems
      have hx : x = a ∨ x = b := by simpa using hx
      rcases hx with rfl | rfl
      · exact within_of_mem_elements hc hl ha
      · exact within_of_mem_elements hc hr hb
    exact .of_ok rfl (hc.listOfLists hpairs).1 (hc.listOfLists hpairs).2
  | host body =>
    refine body.contained hc fun x hx => ?_
    have hx : x = left ∨ x = right := by simpa [bothOperands] using hx
    rcases hx with rfl | rfl
    · exact hl
    · exact hr

end ListCalc
