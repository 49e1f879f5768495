import ListCalc.Proofs.Eval.Effects
import ListCalc.Proofs.Eval.Growth

/-!
# Proofs — the assignments that an evaluation makes

`assignments` lists what the evaluation of a tree assigns, in the order in which it does, up to the
end of the evaluation or to its failure.  `evaluate_assigns` is the main fact: a name is bound
afterwards to the value last assigned to it, and as before if there is none.  All assignments that
are made stand in the tree (`mem_targets_of_assignments`).

`Assigns m w made` says the first of one computation; `Assigns.bind` puts two together.
-/

namespace ListCalc

variable {α β : Type}

/-- The value that is assigned last to a name. -/
def lastAssigned (name : String) (made : List (String × Value)) : Option Value :=
  made.reverse.lookup name

/-- Of two runs of assignments, the later one counts first. -/
theorem lastAssigned_append (name : String) (made more : List (String × Value)) :
    lastAssigned name (made ++ more) = (lastAssigned name more).or (lastAssigned name made) := by
  rw [lastAssigned, List.reverse_append, List.lookup_append]
  rfl

/-- One assignment assigns one name. -/
theorem lastAssigned_singleton (name target : String) (v : Value) :
    lastAssigned name [(target, v)] = if name = target then some v else none := by
  rw [lastAssigned, List.reverse_singleton, Env.lookup_binding, List.lookup_nil]

/-- What was assigned last was assigned. -/
theorem mem_of_lastAssigned {name : String} {v : Value} {made : List (String × Value)}
    (h : lastAssigned name made = some v) : (name, v) ∈ made := by
  obtain ⟨before, behind, hsplit, -⟩ := List.lookup_eq_some_iff.mp h
  rw [← List.mem_reverse, hsplit]
  exact List.mem_append_right _ (.head _)

/-- The assignments that the evaluation of a tree makes, in order. -/
def assignments : Expr → World → List (String × Value)
  | .literal _ _, _ => []
  | .group _ e _, w => assignments e w
  | .name _,      _ => []
  | .unary _ e,   w => assignments e w
  | .binary left t right, w =>
    match BinaryOp.ofKind? t.kind with
    | some .assign =>
      match left with
      | .name target =>
        assignments right w ++ onSuccess (evaluate right) w fun v _ => [(target.lexeme, v)]
      | _ => []
    | some (.logic op true) =>
      assignments left w ++ onSuccess (evaluate left) w fun l w =>
        match op.proceeds w.heap l with
        | .ok true => assignments right w
        | _        => []
    | _ => assignments left w ++ onSuccess (evaluate left) w fun _ w => assignments right w
  | .call callee _ argument, w =>
    assignments callee w ++ onSuccess (evaluate callee) w fun c w =>
      match c.unaryAction? with
      | some _ => assignments argument w
      | none   => []

/-! ### Computations -/

/-- The computation makes exactly the given assignments. -/
def Assigns (m : Eval α) (w : World) (made : List (String × Value)) : Prop :=
  ∀ name, (after m w).env.get? name = (lastAssigned name made).or (w.env.get? name)

theorem Assigns.of_eq {m m' : Eval α} {w : World} {made : List (String × Value)}
    (hm : Assigns m' w made) (heq : m w = m' w) : Assigns m w made := by
  intro name
  rw [after, heq]
  exact hm name

/-- The assignments of two steps are those of the first, and on its success those of the second. -/
theorem Assigns.bind {m : Eval α} {k : α → Eval β} {w : World} {made : List (String × Value)}
    {next : α → World → List (String × Value)} (hm : Assigns m w made)
    (hk : ∀ a w', m w = .ok a w' → Assigns (k a) w' (next a w')) :
    Assigns (m >>= k) w (made ++ onSuccess m w next) := by
  intro name
  have hname := hm name
  cases hw : m w with
  | ok a w' =>
    rw [after_of_ok hw] at hname
    rw [after_bind_of_ok hw, hk a w' hw, onSuccess, hw, lastAssigned_append, hname,
      Option.or_assoc]
  | error e w' =>
    rw [after_of_error hw] at hname
    rw [after_bind_of_error hw, onSuccess, hw, List.append_nil, hname]

/-- What touches no binding makes no assignment. -/
theorem Touches.assigns {m : Eval α} (hm : Touches (fun _ => False) true m) (w : World) :
    Assigns m w [] :=
  fun name => (hm w).others name id

/-- What comes after and touches no binding adds no assignment. -/
theorem Assigns.andThen {m : Eval α} {k : α → Eval β} {w : World} {made : List (String × Value)}
    (hm : Assigns m w made) (hk : ∀ a, Touches (fun _ => False) true (k a)) :
    Assigns (m >>= k) w made := by
  intro name
  have hname := hm name
  refine after_bind (P := fun w' : World => w'.env.get? name = _) hname fun a w' _ hw' => ?_
  rw [← hw', (hk a w').others name id]

/-! ### Trees -/

section
variable {left right : Expr} {t : Token}

theorem assignments_binary (left : Expr) (t : Token) (right : Expr) (w : World) :
    assignments (.binary left t right) w =
      match BinaryOp.ofKind? t.kind with
      | some .assign =>
        match left with
        | .name target =>
          assignments right w ++ onSuccess (evaluate right) w fun v _ => [(target.lexeme, v)]
        | _ => []
      | some (.logic op true) =>
        assignments left w ++ onSuccess (evaluate left) w fun l w =>
          match op.proceeds w.heap l with
          | .ok true => assignments right w
          | _        => []
      | _ => assignments left w ++ onSuccess (evaluate left) w fun _ w => assignments right w := by
  rfl

/-- An assignment comes after those of its right side. -/
theorem assignments_assign (h : BinaryOp.ofKind? t.kind = some .assign) (target : Token)
    (w : World) : assignments (.binary (.name target) t right) w =
      assignments right w ++ onSuccess (evaluate right) w fun v _ => [(target.lexeme, v)] := by
  rw [assignments_binary, h]

/-- An invalid assignment assigns nothing. -/
theorem assignments_invalidTarget (h : BinaryOp.ofKind? t.kind = some .assign)
    (hleft : ∀ target, left ≠ .name target) (w : World) :
    assignments (.binary left t right) w = [] := by
  rw [assignments_binary, h]
  cases left with
  | name target => exact absurd rfl (hleft target)
  | _ => rfl

/-- The right side of a short-circuit form assigns only if the form goes on to it. -/
theorem assignments_shortCircuit {op : Logic}
    (h : BinaryOp.ofKind? t.kind = some (.logic op true)) (w : World) :
    assignments (.binary left t right) w =
      assignments left w ++ onSuccess (evaluate left) w fun l w =>
        match op.proceeds w.heap l with
        | .ok true => assignments right w
        | _        => [] := by
  rw [assignments_binary, h]

/-- The right side of any other operator assigns after the left one has returned. -/
theorem assignments_strict {op : BinaryOp} (h : BinaryOp.ofKind? t.kind = some op)
    (hop : op.isStrict = true) (w : World) : assignments (.binary left t right) w =
      assignments left w ++ onSuccess (evaluate left) w fun _ w => assignments right w := by
  rw [assignments_binary, h]
  split <;> simp_all [BinaryOp.isStrict]

theorem assignments_extension (h : BinaryOp.ofKind? t.kind = none) (w : World) :
    assignments (.binary left t right) w =
      assignments left w ++ onSuccess (evaluate left) w fun _ w => assignments right w := by
  rw [assignments_binary, h]

end

/-- **Assignments are all that happens to the bindings** while a tree is evaluated. -/
theorem evaluate_assigns (e : Expr) (w : World) : Assigns (evaluate e) w (assignments e w) := by
  induction e using evaluation_induction generalizing w with
  | literal t value => exact (touches_literalValue value).assigns w
  | name t => exact fun name => rfl
  | group opener e closer ih => exact ih w
  | unary t e ih =>
    rw [evaluate, assignments]
    refine (ih w).andThen fun v => ?_
    cases UnaryOp.ofKind? t.kind with
    | some op => exact touches_inspect t _
    | none => exact touches_applyUnary t v
  | assign target t right hop ih =>
    rw [evaluate_assign hop, assignments_assign hop]
    refine (ih w).bind fun v w₁ _ name => ?_
    show (w₁.env.set target.lexeme v).get? name = _
    rw [Env.get?_set, lastAssigned_singleton]
    split <;> rfl
  | invalidTarget left t right hop hleft =>
    rw [evaluate_invalidTarget hop hleft, assignments_invalidTarget hop hleft]
    exact (touches_failAt t _).assigns w
  | shortCircuit left t right op hop ihl ihr =>
    rw [evaluate_shortCircuit hop, assignments_shortCircuit hop]
    refine (ihl w).bind fun l w₁ _ => ?_
    cases hp : op.proceeds w₁.heap l with
    | error fault =>
      exact ((touches_failAt t _).assigns w₁).of_eq (inspect_bind_of_error hp _)
    | ok proceeds =>
      refine Assigns.of_eq ?_ (inspect_bind_of_ok hp _)
      cases proceeds with
      | true => exact (ihr w₁).andThen fun r => touches_inspect t _
      | false => exact (touches_pure _).assigns w₁
  | strict left t right op hop hs ihl ihr =>
    rw [evaluate_strict hop hs, assignments_strict hop hs]
    refine (ihl w).bind fun l w₁ _ => (ihr w₁).andThen fun r => ?_
    exact touches_operateBinary t op l r fun _ => rfl
  | extension left t right hop ihl ihr =>
    rw [evaluate_extension hop, assignments_extension hop]
    refine (ihl w).bind fun l w₁ _ => (ihr w₁).andThen fun r => ?_
    exact touches_applyBinary t l r
  | call callee t argument ihc iha =>
    rw [evaluate_call, assignments]
    refine (ihc w).bind fun c w₁ _ => ?_
    cases c.unaryAction? with
    | some action => exact (iha w₁).andThen fun v => touches_operate t _
    | none => exact (touches_failAt t _).assigns w₁

/-- An assignment that is made stands in the tree. -/
theorem mem_targets_of_assignments {e : Expr} {w : World} {a : String × Value}
    (h : a ∈ assignments e w) : a.1 ∈ e.targets := by
  induction e using evaluation_induction generalizing w with
  | literal t value => cases h
  | name t => cases h
  | group opener e closer ih => exact ih h
  | unary t e ih => exact ih h
  | assign target t right hop ih =>
    rw [assignments_assign hop] at h
    rcases List.mem_append.mp h with h | h
    · exact List.mem_append_right _ (ih h)
    · obtain ⟨v, w₁, -, hv⟩ := mem_onSuccess h
      rw [List.mem_singleton.mp hv]
      simp [Expr.targets, Expr.assigned?, hop]
  | invalidTarget left t right hop hleft =>
    rw [assignments_invalidTarget hop hleft] at h
    cases h
  | shortCircuit left t right op hop ihl ihr =>
    rw [assignments_shortCircuit hop] at h
    rcases List.mem_append.mp h with h | h
    · exact List.mem_append_left _ (List.mem_append_right _ (ihl h))
    · obtain ⟨l, w₁, -, hr⟩ := mem_onSuccess h
      split at hr
      · exact List.mem_append_right _ (ihr hr)
      · cases hr
  | strict left t right op hop hs ihl ihr =>
    rw [assignments_strict hop hs] at h
    rcases List.mem_append.mp h with h | h
    · exact List.mem_append_left _ (List.mem_append_right _ (ihl h))
    · obtain ⟨l, w₁, -, hr⟩ := mem_onSuccess h
      exact List.mem_append_right _ (ihr hr)
  | extension left t right hop ihl ihr =>
    rw [assignments_extension hop] at h
    rcases List.mem_append.mp h with h | h
    · exact List.mem_append_left _ (List.mem_append_right _ (ihl h))
    · obtain ⟨l, w₁, -, hr⟩ := mem_onSuccess h
      exact List.mem_append_right _ (ihr hr)
  | call callee t argument ihc iha =>
    rw [assignments] at h
    rcases List.mem_append.mp h with h | h
    · exact List.mem_append_left _ (ihc h)
    · obtain ⟨c, w₁, -, ha⟩ := mem_onSuccess h
      split at ha
      · exact List.mem_append_right _ (iha ha)
      · cases ha

/-! ### Trees one after the other -/

/-- The assignments that the evaluation of trees one after the other makes. -/
def batchAssignments : List Expr → World → List (String × Value)
  | [],      _ => []
  | e :: es, w =>
    assignments e w ++ onSuccess (evaluate e) w fun v w =>
      onSuccess (printLine e.token v) w fun _ w => batchAssignments es w

/-- Trees one after the other assign what each of them does. -/
theorem interpret_assigns (es : List Expr) (w : World) :
    Assigns (interpret es) w (batchAssignments es w) := by
  induction es generalizing w with
  | nil => exact fun name => rfl
  | cons e es ih =>
    rw [interpret, batchAssignments]
    refine (evaluate_assigns e w).bind fun v w₁ _ => ?_
    exact ((touches_printLine e.token v).assigns w₁).bind fun _ w₂ _ => ih w₂

/-- Every name that is assigned is the target of an assignment in one of the trees. -/
theorem mem_targets_of_batchAssignments {es : List Expr} {w : World} {a : String × Value}
    (h : a ∈ batchAssignments es w) : ∃ e ∈ es, a.1 ∈ e.targets := by
  induction es generalizing w with
  | nil => cases h
  | cons e es ih =>
    rcases List.mem_append.mp h with h | h
    · exact ⟨e, .head _, mem_targets_of_assignments h⟩
    · obtain ⟨v, w₁, -, h⟩ := mem_onSuccess h
      obtain ⟨-, w₂, -, h⟩ := mem_onSuccess h
      obtain ⟨e', he', ha⟩ := ih h
      exact ⟨e', .tail _ he', ha⟩

end ListCalc
