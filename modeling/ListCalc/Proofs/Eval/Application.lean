import ListCalc.Proofs.Eval.Effects
import ListCalc.Proofs.Eval.ShortCircuit

/-!
# Proofs — the two ways to apply a unary operator

A name bound to a unary operator is applied by standing before its operand or by `$`.  The prefix
form looks the name up after the operand has been evaluated, the call before that.  Between the two
times only an assignment to the name can tell them apart (`get?_after_evaluate`), so the forms agree
on every operand that has none (`prefix_agrees_with_call`).
-/

namespace ListCalc

variable {w w₁ : World} {op name dollar : Token} {e : Expr} {v : Value} {c : Callable}

/-- An operator ends in the same way wherever its faults are reported. -/
theorem operate_sameEnd (t t' : Token) (op : Operation Value) (w : World) :
    SameEnd (operate t op w) (operate t' op w) := by
  rw [operate_apply, operate_apply]
  cases op w.heap with
  | ok v h => exact .ok v _
  | error fault h => exact .error _ rfl

/-- An operator of one operand has an action of one operand. -/
theorem exists_unaryAction (harity : c.arity = .unary) : ∃ action, c.action = .unary action := by
  rw [Callable.arity] at harity
  cases haction : c.action with
  | unary action => exact ⟨action, rfl⟩
  | binary action =>
    rw [haction] at harity
    cases harity

/-! ### The two forms -/

/-- A name that is not bound stands for itself. -/
theorem evaluate_name (t : Token) (w : World) :
    evaluate (.name t) w = .ok ((w.env.get? t.lexeme).getD (.symbol t.lexeme)) w := rfl

/-- A prefix operator by name is applied to its operand. -/
theorem evaluate_unary_extension (hop : UnaryOp.ofKind? op.kind = none) :
    evaluate (.unary op e) = (do
      let v ← evaluate e
      applyUnary op v) := by
  rw [evaluate, hop]

/-- A name applies the action that it is bound to. -/
theorem applyUnary_of_bound {action : UnaryAction} (haction : c.action = .unary action)
    (hbound : w.env.get? op.lexeme = some (.callable c)) :
    applyUnary op v w = operate op (action.run v) w := by
  obtain ⟨ident, created, _⟩ := c
  subst haction
  rw [applyUnary_apply, Env.extension?, hbound]

/-- A call of a name applies the action that the name is bound to. -/
theorem evaluate_call_of_bound {action : UnaryAction} (haction : c.action = .unary action)
    (hbound : w.env.get? name.lexeme = some (.callable c)) :
    evaluate (.call (.name name) dollar e) w = (do
      let v ← evaluate e
      operate dollar (action.run v) : Eval Value) w := by
  obtain ⟨ident, created, _⟩ := c
  subst haction
  rw [evaluate_call, bind_apply, evaluate_name, hbound]
  rfl

/-- **Prefix use and `$` application agree.**  Where a name is bound to a unary operator, its prefix
form and its call end in the same way on every operand that does not assign to the name: with one
value or one fault, in one world.  A fault of the operand itself is passed on by both. -/
theorem prefix_agrees_with_call (hop : UnaryOp.ofKind? op.kind = none)
    (hname : name.lexeme = op.lexeme) (hbound : w.env.get? op.lexeme = some (.callable c))
    (harity : c.arity = .unary) (he : op.lexeme ∉ e.targets) :
    SameEnd (evaluate (.unary op e) w) (evaluate (.call (.name name) dollar e) w) ∧
    ∀ error w', evaluate e w = .error error w' →
      evaluate (.unary op e) w = .error error w' ∧
        evaluate (.call (.name name) dollar e) w = .error error w' := by
  obtain ⟨action, haction⟩ := exists_unaryAction harity
  rw [evaluate_unary_extension hop, evaluate_call_of_bound haction (by rwa [hname]), bind_apply,
    bind_apply]
  cases hv : evaluate e w with
  | ok v w₁ =>
    refine ⟨?_, fun _ _ h => by cases h⟩
    -- the operand has not assigned to the name, so the later look-up finds the same operator
    have hbound₁ : w₁.env.get? op.lexeme = some (.callable c) := by
      rw [← after_of_ok hv, get?_after_evaluate he, hbound]
    dsimp only
    rw [applyUnary_of_bound haction hbound₁]
    exact operate_sameEnd op dollar _ w₁
  | error error w₁ =>
    refine ⟨.error w₁ rfl, ?_⟩
    rintro _ _ ⟨⟩
    exact ⟨rfl, rfl⟩

/-- The tree of `(n:2)`, which sets the name `n`. -/
def settingTwo (n : String) : Expr :=
  .group ⟨.leftParen, "(", 1, 1⟩
    (.binary (.name ⟨.identifier, n, 2, 1⟩) ⟨.colon, ":", 3, 1⟩
      (.literal ⟨.number, "2", 4, 1⟩ (.integer 2)))
    ⟨.rightParen, ")", 5, 1⟩

/-- An operator that refuses its operand does so in both forms, after the operand has set `x`. -/
theorem prefix_agrees_with_call_refused :
    let w := emptyListWorld.register "f" (.unary (.refuse "no"))
    let w' : World := { w with env := w.env.set "x" (.integer 2) }
    let f : Token := ⟨.identifier, "f", 0, 1⟩
    let dollar : Token := ⟨.dollar, "$", 1, 1⟩
    evaluate (.unary f (settingTwo "x")) w =
        .error (.atToken f (.operator (.extension "no"))) w' ∧
      ∃ error, error.message = "no" ∧
        evaluate (.call (.name f) dollar (settingTwo "x")) w = .error error w' := by
  intro w w' f dollar
  have hunary : evaluate (.unary f (settingTwo "x")) w =
      .error (.atToken f (.operator (.extension "no"))) w' := rfl
  have hsame : SameEnd (evaluate (.unary f (settingTwo "x")) w)
      (evaluate (.call (.name f) dollar (settingTwo "x")) w) :=
    (prefix_agrees_with_call (c := ⟨3, "f", .unary (.refuse "no")⟩) rfl rfl rfl rfl (by decide)).1
  rw [hunary] at hsame
  generalize evaluate (.call (.name f) dollar (settingTwo "x")) w = result at hsame ⊢
  cases hsame with
  | error _ hfault => exact ⟨hunary, _, congrArg RuntimeFault.message hfault, rfl⟩

/-- An operand that assigns to the name tells the forms apart: the prefix form finds no operator
any more, the call has found it before. -/
example :
    let w := emptyListWorld.register "f" (.unary .identity)
    let w' : World := { w with env := w.env.set "f" (.integer 2) }
    let f : Token := ⟨.identifier, "f", 0, 1⟩
    evaluate (.unary f (settingTwo "f")) w = .error (.atToken f (.unknownOperator "f")) w' ∧
      evaluate (.call (.name f) ⟨.dollar, "$", 1, 1⟩ (settingTwo "f")) w = .ok (.integer 2) w' :=
  ⟨rfl, rfl⟩

end ListCalc
