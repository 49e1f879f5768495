import ListCalc.Proofs.Computation
import ListCalc.Proofs.Operator.Orderings
import Mathlib.Tactic.SplitIfs

/-!
# Proofs — how the heap grows

An operator changes the heap in two ways only: it adds lists, and it appends to the list that is the
left operand of a join (`cons`).  `Grew h h' joins` says that a heap grew in this way, with exactly
the elements that the `joins` append to each list; such changes compose (`Grew.trans`).

* `Grows heap m s joins`: the computation makes exactly these joins, whether it succeeds or fails;
  `Grows.bind` puts two together, where a failure of the first is the end of it.
* `Body.grows`: what an operator of the host joins is what `Body.joins` reads off its body, by
  induction on the body.  `UnaryAction.grows` and `BinaryAction.grows` say it of every operator.
* `IsNew`: the result is a list that was not there, and no list that was there has changed.  So it
  is with `range`, `intersect`, `product`, `permutations`, and `cons` after a value that is no list.
-/

namespace ListCalc

/-! ### Growing -/

/-- The elements that joins append to a list, in order. -/
def appended (r : ListRef) (joins : List (Value × Value)) : List Value :=
  joins.filterMap fun (left, right) => if left = .list r then some right else none

/-- What two runs of joins append is appended one after the other. -/
theorem appended_append (r : ListRef) (joins more : List (Value × Value)) :
    appended r (joins ++ more) = appended r joins ++ appended r more :=
  List.filterMap_append

/-- The lists of `h` are still there in `h'`, each with what the joins append to it. -/
structure Grew (h h' : Heap) (joins : List (Value × Value)) : Prop where
  has : ∀ {r : ListRef}, h.Has r → h'.Has r
  get : ∀ {r : ListRef}, h.Has r → (h'.get r).toList = (h.get r).toList ++ appended r joins

namespace Grew

variable {h h₁ h₂ : Heap} {joins more : List (Value × Value)}

/-- Without joins nothing has grown. -/
theorem refl (h : Heap) : Grew h h [] :=
  ⟨id, fun _ => (List.append_nil _).symm⟩

/-- Joins after joins are the joins of both. -/
theorem trans (first : Grew h h₁ joins) (second : Grew h₁ h₂ more) :
    Grew h h₂ (joins ++ more) := by
  refine ⟨fun hr => second.has (first.has hr), fun hr => ?_⟩
  rw [second.get (first.has hr), first.get hr, appended_append, List.append_assoc]

/-- A new list joins nothing. -/
theorem newList (h : Heap) (items : Array Value) : Grew h (h.newList items).2 [] := by
  refine ⟨fun {r} hr => ?_, fun {r} hr => ?_⟩
  · show r.index < (h.alloc items).2.size
    rw [Heap.size_alloc]
    exact Nat.lt_succ_of_lt hr
  · show ((h.alloc items).2.get r).toList = _
    rw [Heap.get_alloc_old items hr]
    exact (List.append_nil _).symm

/-- An element appended to a list is a join to it. -/
theorem append (h : Heap) (r : ListRef) (v : Value) : Grew h (h.append r v) [(.list r, v)] := by
  refine ⟨fun {q} hq => ?_, fun {q} hq => ?_⟩
  · show q.index < (h.append r v).size
    rw [Heap.size_append]
    exact hq
  · by_cases hqr : q = r
    · subst hqr
      rw [Heap.get_append_self v hq, Array.toList_push]
      simp [appended]
    · rw [Heap.get_append_other v hqr]
      simp [appended, Ne.symm hqr]

end Grew

/-- Before what is no list, a join makes a new list. -/
theorem cons_of_not_list {left : Value} (hl : ∀ r, left ≠ .list r) (h : Heap) (right : Value) :
    cons h left right = h.newList #[left, right] := by
  cases left with
  | list r => exact absurd rfl (hl r)
  | _ => rfl

/-- A join appends to its left operand, if that is a list, and nowhere else. -/
theorem Grew.cons (h : Heap) (left right : Value) :
    Grew h (cons h left right).2 [(left, right)] := by
  by_cases hl : ∃ r, left = .list r
  · obtain ⟨r, rfl⟩ := hl
    exact .append h r right
  · rw [not_exists] at hl
    have hnone (r : ListRef) : appended r [(left, right)] = [] := by simp [appended, hl r]
    rw [cons_of_not_list hl]
    refine ⟨(Grew.newList h _).has, fun {r} hr => ?_⟩
    rw [hnone, (Grew.newList h _).get hr]
    rfl

/-- What holds before lists are added one after the other, and is kept by adding one, holds at the
end. -/
theorem Heap.newLists_induction {h : Heap} (contents : List (Array Value))
    (P : Array Value → Heap → Prop) (start : P #[] h)
    (step : ∀ vs h, P vs h → ∀ items ∈ contents,
      P (vs.push (h.newList items).1) (h.newList items).2) :
    P (h.newLists contents).1 (h.newLists contents).2 := by
  rw [newLists]
  generalize #[] = vs at start ⊢
  induction contents generalizing vs h with
  | nil => exact start
  | cons items contents ih =>
    rw [List.foldl_cons]
    exact ih (fun vs h hp items hi => step vs h hp items (.tail _ hi)) (vs.push (h.newList items).1)
      (step vs h start items (.head _))

theorem Grew.newLists (h : Heap) (contents : List (Array Value)) :
    Grew h (h.newLists contents).2 [] :=
  Heap.newLists_induction contents (fun _ h' => Grew h h' []) (.refl h)
    fun _ h₁ hg items _ => hg.trans (.newList h₁ items)

theorem Grew.listOfLists (h : Heap) (contents : List (Array Value)) :
    Grew h (listOfLists h contents).2 [] :=
  (Grew.newLists h contents).trans (.newList _ _)

/-! ### What the operators give -/

/-- What a loop lists are the elements that were there and values that it has made. -/
theorem mem_steps {α : Type} {value : α → Value} {next : α → α} {v : Value} (count : Nat)
    {items : Array Value} {current : α} (hv : v ∈ steps value next items current count) :
    v ∈ items ∨ ∃ a, v = value a := by
  induction count generalizing items current with
  | zero => exact .inl hv
  | succ count ih =>
    rcases ih hv with hmem | hmade
    · exact (Array.mem_push.mp hmem).imp_right fun heq => ⟨current, heq⟩
    · exact .inr hmade

/-- The steps from an integer are integers. -/
theorem mem_integerSteps {v : Value} {low : Int} {count : Nat} (hv : v ∈ integerSteps low count) :
    ∃ n, v = .integer n :=
  (mem_steps count hv).resolve_left (Array.not_mem_empty v)

/-- The steps from a decimal are decimals. -/
theorem mem_decimalSteps {v : Value} {low : Decimal} {count : Nat}
    (hv : v ∈ decimalSteps low count) : ∃ d, v = .decimal d :=
  (mem_steps count hv).resolve_left (Array.not_mem_empty v)

/-- No element of a range is a list. -/
theorem rangeItems?_not_list {a b : Number} {items : Array Value} {r : ListRef}
    (h : rangeItems? a b = some items) : Value.list r ∉ items := by
  have hempty : Value.list r ∉ (#[] : Array Value) := Array.not_mem_empty _
  unfold rangeItems? at h
  split at h
  · dsimp only at h
    split_ifs at h <;> cases h
    · exact hempty
    · exact fun hr => nomatch (mem_integerSteps hr).choose_spec
  · dsimp only at h
    split_ifs at h <;> cases h
    · exact hempty
    · exact fun hr => nomatch (mem_decimalSteps hr).choose_spec

/-- A sequence of steps that succeeds succeeds in each. -/
theorem steps_of_bind_ok {ε α β : Type} {x : Except ε α} {f : α → Except ε β} {b : β}
    (hok : x >>= f = .ok b) : ∃ a, x = .ok a ∧ f a = .ok b := by
  rcases x with e | a
  · nomatch hok
  · exact ⟨a, rfl, hok⟩

/-- A range is a new list that holds no lists. -/
theorem range_eq_ok {h : Heap} {left right : Value} {out : Value × Heap}
    (hout : range h left right = .ok out) :
    ∃ items, out = h.newList items ∧ ∀ r, Value.list r ∉ items := by
  obtain ⟨a, -, hout⟩ := steps_of_bind_ok hout
  obtain ⟨b, -, hout⟩ := steps_of_bind_ok hout
  cases hitems : rangeItems? a b with
  | none =>
    rw [hitems] at hout
    cases hout
  | some items =>
    rw [hitems] at hout
    cases hout
    exact ⟨items, rfl, fun r => rangeItems?_not_list hitems⟩

/-! ### Computations that grow the heap -/

section

variable {ε σ α β : Type}

/-- The computation makes exactly the given joins in the heap of its state. -/
def Grows (heap : σ → Heap) (m : EStateM ε σ α) (s : σ) (joins : List (Value × Value)) : Prop :=
  Grew (heap s) (heap (after m s)) joins

namespace Grows

variable {heap : σ → Heap} {m : EStateM ε σ α} {k : α → EStateM ε σ β} {s : σ}
  {joins : List (Value × Value)}

theorem of_eq {m' : EStateM ε σ α} (hm : Grows heap m' s joins) (heq : m s = m' s) :
    Grows heap m s joins := by
  rw [Grows, after, heq]
  exact hm

/-- The joins of two steps are those of the first, and on its success those of the second. -/
theorem bind {next : α → σ → List (Value × Value)} (hm : Grows heap m s joins)
    (hk : ∀ a s', m s = .ok a s' → Grows heap (k a) s' (next a s')) :
    Grows heap (m >>= k) s (joins ++ onSuccess m s next) := by
  unfold Grows at hm ⊢
  cases hs : m s with
  | ok a s' =>
    rw [after_of_ok hs] at hm
    rw [after_bind_of_ok hs, onSuccess, hs]
    exact hm.trans (hk a s' hs)
  | error e s' =>
    rw [after_of_error hs] at hm
    rw [after_bind_of_error hs, onSuccess, hs, List.append_nil]
    exact hm

/-- What comes after and leaves the heap as it is adds no joins. -/
theorem andThen (hm : Grows heap m s joins) (hk : ∀ a s', heap (after (k a) s') = heap s') :
    Grows heap (m >>= k) s joins :=
  after_bind (P := fun s' => Grew (heap s) (heap s') joins) hm fun a s' _ hg => by rwa [hk a s']

end Grows

end

/-! ### What the operators join -/

/-- An attempt that fails joins nothing. -/
theorem Grew.attempt {h : Heap} {f : Heap → Except OperatorFault (Value × Heap)}
    (hok : ∀ out, f h = .ok out → Grew h out.2 []) : Grew h (after (Operation.attempt f) h) [] := by
  rw [after, Operation.attempt_apply]
  cases hf : f h with
  | ok out => exact hok out hf
  | error fault => exact .refl h

/-- A range joins nothing. -/
theorem Grew.range (h : Heap) (left right : Value) :
    Grew h (after (Operation.attempt fun h => ListCalc.range h left right) h) [] := by
  refine .attempt fun out hout => ?_
  obtain ⟨items, rfl, -⟩ := range_eq_ok hout
  exact .newList h items

/-- A literal joins nothing. -/
theorem Grew.literal (h : Heap) (value : Literal) : Grew h (value.toValue h).2 [] := by
  cases value with
  | null => exact .newList h #[]
  | _ => exact .refl h

/-- The list that a body holds on to is made without a join. -/
theorem Grew.heldList (h : Heap) (ref : ListRef) : Grew h (Body.heldList ref h).2 [] := by
  rw [Body.heldList]
  split
  · exact .refl h
  · exact .newList h #[]

/-- The pairs of values that a body joins, in order, up to its end or its fault. -/
def Body.joins {n : Nat} (operands : Vector Value n) : Body n → Heap → List (Value × Value)
  | operand _,            _ => []
  | literal _,            _ => []
  | held _,               _ => []
  | compare _ left right, h =>
    left.joins operands h ++ onSuccess (left.run operands) h fun _ h => right.joins operands h
  | join left right,      h =>
    left.joins operands h ++ onSuccess (left.run operands) h fun l h =>
      right.joins operands h ++ onSuccess (right.run operands) h fun r _ => [(l, r)]
  | andThen first second, h =>
    first.joins operands h ++ onSuccess (first.run operands) h fun v h =>
      second.joins (operands.push v) h
  | choose test yes no,   h =>
    test.joins operands h ++ onSuccess (test.run operands) h fun v h =>
      match v.isTruthy h with
      | .ok true  => yes.joins operands h
      | .ok false => no.joins operands h
      | .error _  => []
  | refuse _,             _ => []

/-- **What the host joins is all that its operator does** to the lists that are there. -/
theorem Body.grows {n : Nat} (body : Body n) (operands : Vector Value n) (h : Heap) :
    Grows id (body.run operands) h (body.joins operands h) := by
  induction body generalizing h with
  | operand place => exact .refl h
  | literal value => exact .literal h value
  | held ref => exact .heldList h ref
  | compare op left right ihl ihr =>
    rw [run, joins]
    refine (ihl operands h).bind fun l h₁ _ => (ihr operands h₁).andThen fun r h₂ => ?_
    exact Operation.after_look _ h₂
  | join left right ihl ihr =>
    rw [run, joins]
    refine (ihl operands h).bind fun l h₁ _ => (ihr operands h₁).bind fun r h₂ _ => ?_
    exact .cons h₂ l r
  | andThen first second ihf ihs =>
    rw [run, joins]
    exact (ihf operands h).bind fun v h₁ _ => ihs (operands.push v) h₁
  | choose test yes no iht ihy ihn =>
    rw [run, joins]
    refine (iht operands h).bind fun v h₁ _ => ?_
    cases htruthy : v.isTruthy h₁ with
    | ok b =>
      refine Grows.of_eq ?_ (Operation.look_bind_of_ok htruthy _)
      cases b with
      | true => exact ihy operands h₁
      | false => exact ihn operands h₁
    | error fault =>
      refine Grows.of_eq ?_ (Operation.look_bind_of_error htruthy _)
      exact .refl h₁
  | refuse reason => exact .refl h

/-- The pairs of values that an operator with one operand joins. -/
def UnaryAction.joins : UnaryAction → Value → Heap → List (Value × Value)
  | host body, v, h => body.joins (soleOperand v) h
  | _,         _, _ => []

/-- The pairs of values that an operator with two operands joins. -/
def BinaryAction.joins : BinaryAction → Value → Value → Heap → List (Value × Value)
  | host body, left, right, h => body.joins (bothOperands left right) h
  | _,         _,    _,     _ => []

/-- A unary operator does no more to old lists than its joins. -/
theorem UnaryAction.grows (action : UnaryAction) (v : Value) (h : Heap) :
    Grew h (after (action.run v) h) (action.joins v h) := by
  cases action with
  | size => exact .refl h
  | permutations =>
    refine .attempt fun out hout => ?_
    rw [permutations_eq_ok hout]
    exact .listOfLists h _
  | host body => exact body.grows (soleOperand v) h

/-- A binary operator does no more to old lists than its joins. -/
theorem BinaryAction.grows (action : BinaryAction) (left right : Value) (h : Heap) :
    Grew h (after (action.run left right) h) (action.joins left right h) := by
  cases action with
  | product => exact .listOfLists h _
  | host body => exact body.grows (bothOperands left right) h

/-! ### New lists -/

/-- The result is a list that was not there, and the lists that were there are as they were. -/
def IsNew (h : Heap) (out : Value × Heap) : Prop :=
  ∃ r, out.1 = .list r ∧ ¬ h.Has r ∧ out.2.Has r ∧ ∀ q, h.Has q → out.2.get q = h.get q

theorem IsNew.newList {h h₁ : Heap} (hg : Grew h h₁ []) (items : Array Value) :
    IsNew h (h₁.newList items) := by
  refine ⟨⟨h₁.size⟩, rfl, fun hr => Nat.lt_irrefl _ (hg.has hr), ?_, fun q hq => ?_⟩
  · show h₁.size < (h₁.alloc items).2.size
    rw [Heap.size_alloc]
    exact Nat.lt_succ_self _
  · have hget := (hg.trans (.newList h₁ items)).get hq
    exact Array.toList_inj.mp (hget.trans (List.append_nil _))

theorem elements_newList (h : Heap) (items : Array Value) :
    elements (h.newList items).2 (h.newList items).1 = items.toList :=
  congrArg Array.toList (Heap.get_alloc_new h items)

/-- Before what is no list, a join gives a new list. -/
theorem IsNew.cons {h : Heap} {left : Value} (hl : ∀ r, left ≠ .list r) (right : Value) :
    IsNew h (cons h left right) := by
  rw [cons_of_not_list hl]
  exact .newList (.refl h) _

theorem IsNew.intersect (h : Heap) (left right : Value) : IsNew h (intersect h left right) :=
  .newList (.refl h) _

/-- A range is a new list. -/
theorem IsNew.range {h : Heap} {left right : Value} {out : Value × Heap}
    (hout : range h left right = .ok out) : IsNew h out := by
  obtain ⟨items, rfl, -⟩ := range_eq_ok hout
  exact .newList (.refl h) items

theorem IsNew.product (h : Heap) (left right : Value) : IsNew h (product h left right) :=
  .newList (.newLists h _) _

/-- The orderings are a new list. -/
theorem IsNew.permutations {h : Heap} {v : Value} {out : Value × Heap}
    (hout : permutations h v = .ok out) : IsNew h out := by
  rw [permutations_eq_ok hout]
  exact .newList (.newLists h _) _

end ListCalc
