import ListCalc.Proofs.Eval.Growth

/-!
# Proofs — the short-circuit forms of the logical operators

`a || b` and `a && b` evaluate `b` only if `a` leaves the result open.  Where they do, they do what
`a | b` and `a & b` do.  Where they do not, the result is the one that `a` settles
(`Logic.settled`).  The plain forms look at the value of `a` only after `b` has been evaluated, and
by then a list may have got elements.  Lists only grow, so what counted as true still does, and
`|` gives what `||` gives.  But an empty list may have been filled: then, and only then, `&` can
give true where `&&` gives false (`FillsLeft`).
-/

namespace ListCalc

/-! ### Truth values while lists grow -/

namespace Value

variable {h h' : Heap} {v : Value}

/-- A list counts as true unless it is empty. -/
theorem isTruthy_list_eq_true_iff {r : ListRef} :
    (list r).isTruthy h = .ok true ↔ h.get r ≠ #[] := by
  simp [isTruthy]

/-- Only the empty list counts as false. -/
theorem isTruthy_list_eq_false_iff {r : ListRef} :
    (list r).isTruthy h = .ok false ↔ h.get r = #[] := by
  simp [isTruthy]

/-- What counts as true goes on to do so while lists grow. -/
theorem isTruthy_grew {joins : List (Value × Value)} (hg : Grew h h' joins)
    (hv : v.isTruthy h = .ok true) : v.isTruthy h' = .ok true := by
  cases v with
  | list r =>
    rw [isTruthy_list_eq_true_iff] at hv ⊢
    obtain ⟨x, hx⟩ := Array.exists_mem_of_ne_empty _ hv
    have hget := hg.get (Heap.has_of_mem hx)
    have hmem : x ∈ h'.get r := by
      rw [← Array.mem_toList_iff, hget]
      exact List.mem_append_left _ (Array.mem_toList_iff.mpr hx)
    exact Array.ne_empty_of_mem hmem
  | _ => exact hv

/-- What has no truth value has none whatever the lists hold. -/
theorem isTruthy_eq_error {fault : OperatorFault} (hv : v.isTruthy h = .error fault) :
    v.isTruthy h' = .error fault := by
  cases v with
  | list r => cases hv
  | _ => exact hv

/-- What comes to count as true is a list that was empty. -/
theorem exists_list_of_becomes_truthy (hv : v.isTruthy h = .ok false)
    (hv' : v.isTruthy h' = .ok true) : ∃ r, v = .list r ∧ h.get r = #[] ∧ h'.get r ≠ #[] := by
  cases v with
  | list r => exact ⟨r, rfl, isTruthy_list_eq_false_iff.mp hv, isTruthy_list_eq_true_iff.mp hv'⟩
  | _ => cases hv.symm.trans hv'

end Value

/-! ### Appending to a list -/

/-- Evaluating the tree leaves the list with more elements than it had. -/
def AppendsTo (e : Expr) (w : World) (r : ListRef) : Prop :=
  (w.heap.get r).size < ((after (evaluate e) w).heap.get r).size

/-- A list gets elements from the joins that have it on their left. -/
theorem appendsTo_iff_exists_join {e : Expr} {w : World} {r : ListRef} (hr : w.heap.Has r) :
    AppendsTo e w r ↔ ∃ x, (.list r, x) ∈ joins e w := by
  have hsize := congrArg List.length ((evaluate_grows e w).get hr)
  rw [List.length_append, Array.length_toList, Array.length_toList] at hsize
  rw [AppendsTo, hsize, Nat.lt_add_right_iff_pos, List.length_pos_iff_exists_mem]
  simp [appended]

/-! ### The two forms -/

namespace Logic

variable {op : Logic} {h : Heap} {l r v : Value}

/-- The short-circuit form goes on unless the left operand has settled the result. -/
theorem proceeds_eq_map : op.proceeds h l = (l.isTruthy h).map (· != op.settled) := by
  unfold proceeds
  cases l.isTruthy h with
  | error fault => rfl
  | ok a => cases op <;> cases a <;> rfl

/-- The operator gives what the truth values of both operands are joined to. -/
theorem apply_eq_ok (hv : op.apply h l r = .ok v) : ∃ a b,
    l.isTruthy h = .ok a ∧ r.isTruthy h = .ok b ∧ v = .boolean (op.combine a b) := by
  unfold apply at hv
  cases ha : l.isTruthy h with
  | error fault => rw [ha] at hv; cases hv
  | ok a =>
    cases hb : r.isTruthy h with
    | error fault => rw [ha, hb] at hv; cases hv
    | ok b => rw [ha, hb] at hv; cases hv; exact ⟨a, b, rfl, rfl, rfl⟩

end Logic

/-- The tokens stand for an operator in its plain and in its short-circuit form. -/
structure Forms (op : Logic) (plain short : Token) : Prop where
  plain : BinaryOp.ofKind? plain.kind = some (.logic op false)
  short : BinaryOp.ofKind? short.kind = some (.logic op true)

/-- The two results are the same value, or faults that are the same but for the place, with the same
world. -/
inductive SameEnd : EStateM.Result RuntimeError World Value →
    EStateM.Result RuntimeError World Value → Prop where
  | ok (v : Value) (w : World) : SameEnd (.ok v w) (.ok v w)
  | error {e e' : RuntimeError} (w : World) : e'.fault = e.fault →
      SameEnd (.error e w) (.error e' w)

/-- What is left to do once the left operand has the value `l`. -/
def finishLogic (op : Logic) (t : Token) (l : Value) (b : Expr) : Eval Value := do
  let r ← evaluate b
  inspect t fun h => op.apply h l r

section

variable {op : Logic} {plain short : Token} {a b : Expr} {w w₁ w₂ : World} {l v : Value}

/-- The plain form goes on after its left side in any case. -/
theorem Forms.evaluate_plain (hforms : Forms op plain short) (ha : evaluate a w = .ok l w₁) :
    evaluate (.binary a plain b) w = finishLogic op plain l b w₁ := by
  rw [evaluate_strict hforms.plain rfl, bind_apply, ha]
  rfl

/-- The short-circuit form goes on if its left side says so, and is settled otherwise. -/
theorem Forms.evaluate_short (hforms : Forms op plain short) (ha : evaluate a w = .ok l w₁)
    {goesOn : Bool} (hp : op.proceeds w₁.heap l = .ok goesOn) :
    evaluate (.binary a short b) w =
      if goesOn then finishLogic op short l b w₁ else .ok (.boolean op.settled) w₁ := by
  rw [evaluate_shortCircuit hforms.short, bind_apply, ha]
  dsimp only
  rw [inspect_bind_of_ok hp]
  cases goesOn <;> rfl

/-- What comes after the left side ends alike in both forms, up to the token of an error. -/
theorem finishLogic_sameEnd (op : Logic) (t t' : Token) (l : Value) (b : Expr) (w : World) :
    SameEnd (finishLogic op t l b w) (finishLogic op t' l b w) := by
  unfold finishLogic
  rw [bind_apply, bind_apply]
  cases evaluate b w with
  | error e w₁ => exact .error w₁ rfl
  | ok r w₁ =>
    dsimp only
    rw [inspect_apply, inspect_apply]
    cases op.apply w₁.heap l r with
    | error fault => exact .error w₁ rfl
    | ok v => exact .ok v w₁

/-- Where one returns, the other one returns the same. -/
theorem SameEnd.eq_ok {result result' : EStateM.Result RuntimeError World Value}
    (h : SameEnd result result') (hok : result = .ok v w) : result' = .ok v w := by
  cases h with
  | ok => exact hok
  | error => cases hok

/-- Where a plain form succeeds, both operands have values that count for something, the left one
also before the right one is evaluated. -/
theorem Forms.plain_eq_ok (hforms : Forms op plain short)
    (h : evaluate (.binary a plain b) w = .ok v w₂) : ∃ l w₁ r z x y,
      evaluate a w = .ok l w₁ ∧ evaluate b w₁ = .ok r w₂ ∧ l.isTruthy w₁.heap = .ok z ∧
        l.isTruthy w₂.heap = .ok x ∧ r.isTruthy w₂.heap = .ok y ∧
        v = .boolean (op.combine x y) := by
  rw [evaluate_strict hforms.plain rfl] at h
  obtain ⟨l, w₁, ha, h⟩ := bind_eq_ok h
  obtain ⟨r, w', hb, h⟩ := bind_eq_ok h
  rw [operateBinary] at h
  obtain ⟨happly, rfl⟩ := inspect_eq_ok h
  obtain ⟨x, y, hx, hy, rfl⟩ := Logic.apply_eq_ok happly
  cases hz : l.isTruthy w₁.heap with
  | error fault => cases (Value.isTruthy_eq_error hz).symm.trans hx
  | ok z => exact ⟨l, w₁, r, z, x, y, ha, hb, hz, hx, hy, rfl⟩

/-- Where the short-circuit form goes on, the two forms end in the same way. -/
theorem Forms.sameEnd (hforms : Forms op plain short)
    (ha : evaluate a w = .ok l w₁) (hp : op.proceeds w₁.heap l = .ok true) :
    SameEnd (evaluate (.binary a plain b) w) (evaluate (.binary a short b) w) := by
  rw [hforms.evaluate_plain ha, hforms.evaluate_short ha hp]
  exact finishLogic_sameEnd op plain short l b w₁

end

/-! ### The main fact -/

/-- The value of the left tree is a list that is empty until the right tree, whose value counts as
true, appends to it. -/
def FillsLeft (a b : Expr) (w : World) : Prop :=
  ∃ r w₁ v w₂, evaluate a w = .ok (.list r) w₁ ∧ w₁.heap.get r = #[] ∧
    evaluate b w₁ = .ok v w₂ ∧ AppendsTo b w₁ r ∧ v.isTruthy w₂.heap = .ok true

section

variable {plain short : Token} {a b : Expr} {w w₂ : World} {v : Value}

/-- Where the plain `|` returns, `||` returns the same. -/
theorem Forms.or_short_of_plain (hforms : Forms .or plain short)
    (h : evaluate (.binary a plain b) w = .ok v w₂) :
    ∃ w', evaluate (.binary a short b) w = .ok v w' := by
  obtain ⟨l, w₁, r, z, x, y, ha, hb, hz, hx, hy, rfl⟩ := hforms.plain_eq_ok h
  have hp : Logic.or.proceeds w₁.heap l = .ok (z != true) := by rw [Logic.proceeds_eq_map, hz]; rfl
  cases z with
  | false => exact ⟨w₂, (hforms.sameEnd ha hp).eq_ok h⟩
  | true =>
    have hgrew : Grew w₁.heap w₂.heap (joins b w₁) := after_of_ok hb ▸ evaluate_grows b w₁
    have htrue := hx.symm.trans (Value.isTruthy_grew hgrew hz)
    cases htrue
    exact ⟨w₁, hforms.evaluate_short ha hp⟩

/-- Where the plain `&` returns, `&&` returns the same, unless the right side fills the left one. -/
theorem Forms.and_short_of_plain (hforms : Forms .and plain short)
    (h : evaluate (.binary a plain b) w = .ok v w₂) (hfills : ¬ FillsLeft a b w) :
    ∃ w', evaluate (.binary a short b) w = .ok v w' := by
  obtain ⟨l, w₁, r, z, x, y, ha, hb, hz, hx, hy, rfl⟩ := hforms.plain_eq_ok h
  have hp : Logic.and.proceeds w₁.heap l = .ok (z != false) := by
    rw [Logic.proceeds_eq_map, hz]; rfl
  cases z with
  | true => exact ⟨w₂, (hforms.sameEnd ha hp).eq_ok h⟩
  | false =>
    have hfalse : (x && y) = false := by
      refine Bool.eq_false_iff.mpr fun htrue => hfills ?_
      obtain ⟨rfl, rfl⟩ := Bool.and_eq_true_iff.mp htrue
      obtain ⟨q, rfl, hempty, hfull⟩ := Value.exists_list_of_becomes_truthy hz hx
      refine ⟨q, w₁, r, w₂, ha, hempty, hb, ?_, hy⟩
      rw [AppendsTo, after_of_ok hb, hempty]
      exact Array.size_pos_iff.mpr hfull
    rw [Logic.combine, hfalse]
    exact ⟨w₁, hforms.evaluate_short ha hp⟩

/-- Where the right side fills the left one, the two forms of `&` differ. -/
theorem Forms.differ (hforms : Forms .and plain short) (h : FillsLeft a b w) :
    (∃ w', evaluate (.binary a plain b) w = .ok (.boolean true) w') ∧
      ∃ w', evaluate (.binary a short b) w = .ok (.boolean false) w' := by
  obtain ⟨q, w₁, r, w₂, ha, hempty, hb, happends, hr⟩ := h
  rw [AppendsTo, after_of_ok hb, hempty] at happends
  have hl : (Value.list q).isTruthy w₂.heap = .ok true :=
    Value.isTruthy_list_eq_true_iff.mpr (Array.size_pos_iff.mp happends)
  have hp : Logic.and.proceeds w₁.heap (.list q) = .ok false := by
    rw [Logic.proceeds_eq_map, Value.isTruthy_list_eq_false_iff.mpr hempty]
    rfl
  refine ⟨⟨w₂, ?_⟩, w₁, hforms.evaluate_short ha hp⟩
  have happly : Logic.and.apply w₂.heap (.list q) r = .ok (.boolean true) := by
    rw [Logic.apply, hl, hr]
    rfl
  rw [hforms.evaluate_plain ha, finishLogic, bind_apply, hb]
  dsimp only
  rw [inspect_apply, happly]

end

/-- **Short-circuit forms agree with the plain forms.**  Where `a | b` succeeds, `a || b` gives the
same value, and so does `a && b` where `a & b` succeeds; except that if `b` fills the list that `a`
gives, `&` gives true and `&&` false.  Where the short-circuit form does not go on to `b`, the world
is the one after `a`; where it does, both forms end in the same way. -/
theorem shortCircuit_agrees {plain short : Logic → Token}
    (hforms : ∀ op, Forms op (plain op) (short op)) (a b : Expr) (w : World) :
    (∀ v w₂, evaluate (.binary a (plain .or) b) w = .ok v w₂ →
      ∃ w', evaluate (.binary a (short .or) b) w = .ok v w') ∧
    (∀ v w₂, evaluate (.binary a (plain .and) b) w = .ok v w₂ → ¬ FillsLeft a b w →
      ∃ w', evaluate (.binary a (short .and) b) w = .ok v w') ∧
    (FillsLeft a b w →
      (∃ w', evaluate (.binary a (plain .and) b) w = .ok (.boolean true) w') ∧
        ∃ w', evaluate (.binary a (short .and) b) w = .ok (.boolean false) w') ∧
    ∀ op l w₁, evaluate a w = .ok l w₁ →
      (op.proceeds w₁.heap l = .ok false →
        evaluate (.binary a (short op) b) w = .ok (.boolean op.settled) w₁) ∧
      (op.proceeds w₁.heap l = .ok true →
        SameEnd (evaluate (.binary a (plain op) b) w) (evaluate (.binary a (short op) b) w)) := by
  refine ⟨fun v w₂ h => (hforms .or).or_short_of_plain h,
    fun v w₂ h hfills => (hforms .and).and_short_of_plain h hfills,
    fun h => (hforms .and).differ h, fun op l w₁ ha => ⟨fun hp => ?_, fun hp => ?_⟩⟩
  · exact (hforms op).evaluate_short ha hp
  · exact (hforms op).sameEnd ha hp

/-- A session that has set `x` to an empty list. -/
def emptyListWorld : World :=
  let w : World := .start .empty (.ofBytes []) (.fresh .accepts) (.fresh .accepts) ⟨0, []⟩
  { w with heap := (w.heap.newList #[]).2, env := w.env.set "x" (.list ⟨0⟩) }

/-- The token of an operator in either form, where it is the second character of a source. -/
def secondToken : Logic → Bool → Token
  | .or,  false => ⟨.pipe, "|", 1, 1⟩
  | .or,  true  => ⟨.pipePipe, "||", 1, 1⟩
  | .and, false => ⟨.ampersand, "&", 1, 1⟩
  | .and, true  => ⟨.ampersandAmpersand, "&&", 1, 1⟩

/-- The tree of `(x;1)` in `x&(x;1)`. -/
def fillingJoin : Expr :=
  .group ⟨.leftParen, "(", 2, 1⟩
    (.binary (.name ⟨.identifier, "x", 3, 1⟩) ⟨.semicolon, ";", 4, 1⟩
      (.literal ⟨.number, "1", 5, 1⟩ (.integer 1)))
    ⟨.rightParen, ")", 6, 1⟩

theorem fillsLeft_join : FillsLeft (.name ⟨.identifier, "x", 0, 1⟩) fillingJoin emptyListWorld := by
  have happends : AppendsTo fillingJoin emptyListWorld ⟨0⟩ :=
    (appendsTo_iff_exists_join (by decide)).mpr ⟨.integer 1, by decide⟩
  exact ⟨⟨0⟩, emptyListWorld, .list ⟨0⟩, _, rfl, rfl, rfl, happends, rfl⟩

/-- There `x&(x;1)` is true, and `x&&(x;1)` is false. -/
theorem shortCircuit_agrees_but_filled :
    (∃ w', evaluate (.binary (.name ⟨.identifier, "x", 0, 1⟩) (secondToken .and false) fillingJoin)
      emptyListWorld = .ok (.boolean true) w') ∧
    ∃ w', evaluate (.binary (.name ⟨.identifier, "x", 0, 1⟩) (secondToken .and true) fillingJoin)
      emptyListWorld = .ok (.boolean false) w' := by
  have hforms : ∀ op, Forms op (secondToken op false) (secondToken op true) := by
    intro op
    cases op <;> exact ⟨rfl, rfl⟩
  obtain ⟨-, -, hfilled, -⟩ := shortCircuit_agrees hforms (.name ⟨.identifier, "x", 0, 1⟩)
    fillingJoin emptyListWorld
  exact hfilled fillsLeft_join

end ListCalc
