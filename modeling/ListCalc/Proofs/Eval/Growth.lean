import ListCalc.Proofs.Eval.Computation
import ListCalc.Proofs.Value.Growth

/-!
# Proofs — evaluation only appends

`joins` lists the pairs of values that the evaluation of a tree joins, in the order in which it
does: the operands of `;`, and what the operators join that names are bound to.  `evaluate_grows` is
the main fact: each list holds afterwards what it held before and then the right values of the joins
that had it on their left, whether the evaluation succeeds or fails.
-/

namespace ListCalc

variable {α β : Type}

/-- The pairs of values that a looked up operator joins, applied to one operand. -/
def unaryJoins (v : Value) (h : Heap) : Option Callable → List (Value × Value)
  | some ⟨_, _, .unary action⟩ => action.joins v h
  | _                          => []

/-- The pairs of values that a looked up operator joins, applied to two operands. -/
def binaryJoins (left right : Value) (h : Heap) : Option Callable → List (Value × Value)
  | some ⟨_, _, .binary action⟩ => action.joins left right h
  | _                           => []

/-- The pairs of values that the evaluation of a tree joins, in order. -/
def joins : Expr → World → List (Value × Value)
  | .literal _ _, _ => []
  | .group _ e _, w => joins e w
  | .name _,      _ => []
  | .unary t e,   w =>
    joins e w ++ onSuccess (evaluate e) w fun v w =>
      match UnaryOp.ofKind? t.kind with
      | some _ => []
      | none   => unaryJoins v w.heap (w.env.extension? t.lexeme)
  | .binary left t right, w =>
    match BinaryOp.ofKind? t.kind with
    | some .assign =>
      match left with
      | .name _ => joins right w
      | _       => []
    | some (.logic op true) =>
      joins left w ++ onSuccess (evaluate left) w fun l w =>
        match op.proceeds w.heap l with
        | .ok true => joins right w
        | _        => []
    | some op =>
      joins left w ++ onSuccess (evaluate left) w fun l w =>
        joins right w ++ onSuccess (evaluate right) w fun r _ =>
          if op = .cons then [(l, r)] else []
    | none =>
      joins left w ++ onSuccess (evaluate left) w fun l w =>
        joins right w ++ onSuccess (evaluate right) w fun r w =>
          binaryJoins l r w.heap (w.env.extension? t.lexeme)
  | .call callee _ argument, w =>
    joins callee w ++ onSuccess (evaluate callee) w fun c w =>
      match c.unaryAction? with
      | some action =>
        joins argument w ++ onSuccess (evaluate argument) w fun v w => action.joins v w.heap
      | none        => []

/-! ### Computations -/

/-- What changes no lists joins nothing. -/
theorem Quiet.grows {m : Eval α} (hm : Quiet m) (w : World) : Grows World.heap m w [] := by
  rw [Grows, (hm w).1]
  exact .refl w.heap

/-- An operation of the heap grows the world's heap as it grows its own. -/
theorem Grows.operate {t : Token} {op : Operation Value} {w : World}
    {joins : List (Value × Value)} (hop : Grew w.heap (after op w.heap) joins) :
    Grows World.heap (operate t op) w joins := by
  rw [Grows, after_operate]
  exact hop

/-- A literal joins nothing. -/
theorem grows_literalValue (value : Literal) (w : World) :
    Grows World.heap (literalValue value) w [] :=
  .literal w.heap value

/-- A unary operator by name joins what its action does. -/
theorem grows_applyUnary (t : Token) (v : Value) (w : World) :
    Grows World.heap (applyUnary t v) w (unaryJoins v w.heap (w.env.extension? t.lexeme)) := by
  rw [Grows, after, applyUnary_apply]
  rcases w.env.extension? t.lexeme with - | ⟨ident, name, action⟩
  · exact .refl w.heap
  · cases action with
    | unary action => exact Grows.operate (action.grows v w.heap)
    | binary action => exact .refl w.heap

/-- A binary operator by name joins what its action does. -/
theorem grows_applyBinary (t : Token) (left right : Value) (w : World) :
    Grows World.heap (applyBinary t left right) w
      (binaryJoins left right w.heap (w.env.extension? t.lexeme)) := by
  rw [Grows, after, applyBinary_apply]
  rcases w.env.extension? t.lexeme with - | ⟨ident, name, action⟩
  · exact .refl w.heap
  · cases action with
    | unary action => exact .refl w.heap
    | binary action => exact Grows.operate (action.grows left right w.heap)

/-- Of the operators by token, only the semicolon joins. -/
theorem grows_operateBinary (t : Token) (op : BinaryOp) (left right : Value) (w : World) :
    Grows World.heap (operateBinary t op left right) w
      (if op = .cons then [(left, right)] else []) := by
  cases op with
  | cons =>
    rw [operateBinary]
    exact Grows.operate (Grew.cons w.heap left right)
  | intersect =>
    rw [operateBinary]
    exact Grows.operate (Grew.newList w.heap (intersection w.heap left right).toArray)
  | range =>
    rw [operateBinary]
    exact Grows.operate (Grew.range w.heap left right)
  | arith op => exact (quiet_inspect t fun h => op.apply h left right).grows w
  | compare op => exact (quiet_inspect t fun h => op.apply h left right).grows w
  | logic op circuit => exact (quiet_inspect t fun h => op.apply h left right).grows w
  | exchange => exact (quiet_exchange t left right).grows w
  | assign => exact (quiet_pure right).grows w

/-! ### Trees -/

section
variable {left right : Expr} {t : Token}

/-- What a binary tree joins, by its operator; the equations below are its cases. -/
theorem joins_binary (left : Expr) (t : Token) (right : Expr) (w : World) :
    joins (.binary left t right) w =
      match BinaryOp.ofKind? t.kind with
      | some .assign =>
        match left with
        | .name _ => joins right w
        | _       => []
      | some (.logic op true) =>
        joins left w ++ onSuccess (evaluate left) w fun l w =>
          match op.proceeds w.heap l with
          | .ok true => joins right w
          | _        => []
      | some op =>
        joins left w ++ onSuccess (evaluate left) w fun l w =>
          joins right w ++ onSuccess (evaluate right) w fun r _ =>
            if op = .cons then [(l, r)] else []
      | none =>
        joins left w ++ onSuccess (evaluate left) w fun l w =>
          joins right w ++ onSuccess (evaluate right) w fun r w =>
            binaryJoins l r w.heap (w.env.extension? t.lexeme) := by
  rfl

/-- An assignment joins what its right side does. -/
theorem joins_assign (h : BinaryOp.ofKind? t.kind = some .assign) (target : Token) (w : World) :
    joins (.binary (.name target) t right) w = joins right w := by
  rw [joins_binary, h]

/-- An invalid assignment joins nothing. -/
theorem joins_invalidTarget (h : BinaryOp.ofKind? t.kind = some .assign)
    (hleft : ∀ target, left ≠ .name target) (w : World) : joins (.binary left t right) w = [] := by
  rw [joins_binary, h]
  cases left with
  | name target => exact absurd rfl (hleft target)
  | _ => rfl

/-- The right side of a short-circuit form joins only if the form goes on to it. -/
theorem joins_shortCircuit {op : Logic} (h : BinaryOp.ofKind? t.kind = some (.logic op true))
    (w : World) : joins (.binary left t right) w =
      joins left w ++ onSuccess (evaluate left) w fun l w =>
        match op.proceeds w.heap l with
        | .ok true => joins right w
        | _        => [] := by
  rw [joins_binary, h]

/-- Both sides join before the operator does. -/
theorem joins_strict {op : BinaryOp} (h : BinaryOp.ofKind? t.kind = some op)
    (hop : op.isStrict = true) (w : World) : joins (.binary left t right) w =
      joins left w ++ onSuccess (evaluate left) w fun l w =>
        joins right w ++ onSuccess (evaluate right) w fun r _ =>
          if op = .cons then [(l, r)] else [] := by
  rw [joins_binary, h]
  split <;> simp_all [BinaryOp.isStrict]

/-- Both sides join before the operator does, which is looked up after them. -/
theorem joins_extension (h : BinaryOp.ofKind? t.kind = none) (w : World) :
    joins (.binary left t right) w =
      joins left w ++ onSuccess (evaluate left) w fun l w =>
        joins right w ++ onSuccess (evaluate right) w fun r w =>
          binaryJoins l r w.heap (w.env.extension? t.lexeme) := by
  rw [joins_binary, h]

end

/-- **Evaluation only appends**, and it appends the right values of the joins it makes to the lists
on their left. -/
theorem evaluate_grows (e : Expr) (w : World) : Grows World.heap (evaluate e) w (joins e w) := by
  induction e using evaluation_induction generalizing w with
  | literal t value => exact grows_literalValue value w
  | name t => exact .refl w.heap
  | group opener e closer ih => exact ih w
  | unary t e ih =>
    rw [evaluate, joins]
    refine (ih w).bind fun v w' _ => ?_
    cases UnaryOp.ofKind? t.kind with
    | some op => exact (quiet_inspect t _).grows w'
    | none => exact grows_applyUnary t v w'
  | assign target t right hop ih =>
    rw [evaluate_assign hop, joins_assign hop]
    exact (ih w).andThen fun v w' => rfl
  | invalidTarget left t right hop hleft =>
    rw [evaluate_invalidTarget hop hleft, joins_invalidTarget hop hleft]
    exact (quiet_failAt t _).grows w
  | shortCircuit left t right op hop ihl ihr =>
    rw [evaluate_shortCircuit hop, joins_shortCircuit hop]
    refine (ihl w).bind fun l w₁ _ => ?_
    -- the right operand joins only if it is reached, and looking at the left one changes nothing
    cases hp : op.proceeds w₁.heap l with
    | error fault =>
      exact ((quiet_failAt t _).grows w₁).of_eq (inspect_bind_of_error hp _)
    | ok proceeds =>
      refine Grows.of_eq ?_ (inspect_bind_of_ok hp _)
      cases proceeds with
      | true => exact (ihr w₁).andThen fun r w₂ => (quiet_inspect t _ w₂).1
      | false => exact .refl w₁.heap
  | strict left t right op hop hs ihl ihr =>
    rw [evaluate_strict hop hs, joins_strict hop hs]
    refine (ihl w).bind fun l w₁ _ => ?_
    refine (ihr w₁).bind fun r w₂ _ => ?_
    exact grows_operateBinary t op l r w₂
  | extension left t right hop ihl ihr =>
    rw [evaluate_extension hop, joins_extension hop]
    refine (ihl w).bind fun l w₁ _ => ?_
    refine (ihr w₁).bind fun r w₂ _ => ?_
    exact grows_applyBinary t l r w₂
  | call callee t argument ihc iha =>
    rw [evaluate_call, joins]
    refine (ihc w).bind fun c w₁ _ => ?_
    cases c.unaryAction? with
    | some action =>
      refine (iha w₁).bind fun v w₂ _ => ?_
      exact Grows.operate (action.grows v w₂.heap)
    | none => exact (quiet_failAt t _).grows w₁

/-- The pairs of values that the evaluation of trees one after the other joins. -/
def batchJoins : List Expr → World → List (Value × Value)
  | [],      _ => []
  | e :: es, w =>
    joins e w ++ onSuccess (evaluate e) w fun v w =>
      onSuccess (printLine e.token v) w fun _ w => batchJoins es w

/-- Trees one after the other join what each of them does. -/
theorem interpret_grows (es : List Expr) (w : World) :
    Grows World.heap (interpret es) w (batchJoins es w) := by
  induction es generalizing w with
  | nil => exact .refl w.heap
  | cons e es ih =>
    rw [interpret, batchJoins]
    refine (evaluate_grows e w).bind fun v w₁ _ => ?_
    exact ((quiet_printLine e.token v).grows w₁).bind fun _ w₂ _ => ih w₂

/-! ### New lists -/

/-- The computation gives a list that was not there and changes none that was. -/
def MakesList (m : Eval Value) (w : World) : Prop :=
  ∃ v w', m w = .ok v w' ∧ IsNew w.heap (v, w'.heap)

/-- The computation makes a list, or it fails and changes nothing. -/
def MakesListOrFails (m : Eval Value) (w : World) : Prop :=
  MakesList m w ∨ ∃ e, m w = .error e w

/-- An operation that makes a list makes one in the world. -/
theorem MakesList.operate {t : Token} {op : Operation Value} {w : World} {v : Value} {h : Heap}
    (hop : op w.heap = .ok v h) (hnew : IsNew w.heap (v, h)) : MakesList (operate t op) w := by
  refine ⟨v, { w with heap := h }, ?_, hnew⟩
  rw [operate_apply, hop]

/-- An attempt that makes a list where it does not fail does so in the world. -/
theorem MakesListOrFails.operate {t : Token} {f : Heap → Except OperatorFault (Value × Heap)}
    {w : World} (hnew : ∀ out, f w.heap = .ok out → IsNew w.heap out) :
    MakesListOrFails (operate t (.attempt f)) w := by
  have happly := Operation.attempt_apply f w.heap
  cases hf : f w.heap with
  | ok out =>
    rw [hf] at happly
    exact .inl (.operate happly (hnew out hf))
  | error fault =>
    rw [hf] at happly
    refine .inr ⟨.atToken t (.operator fault), ?_⟩
    rw [operate_apply, happly]

/-- The literal for nothing is a new list. -/
theorem makesList_null (w : World) : MakesList (literalValue .null) w :=
  ⟨_, _, rfl, .newList (.refl w.heap) #[]⟩

end ListCalc
