import ListCalc.Eval
import ListCalc.Proofs.Computation

/-!
# Proofs — running computations

What each step of evaluation does to a world, as equations: a fault at a token, a stream, an
operator that inspects the heap or changes it.  `evaluation_induction` has a case for each way in
which a tree is evaluated.

`Quiet` computations leave the heap and the bindings alone: those that inspect operands, read, write
or fail.
-/

namespace ListCalc

variable {α β : Type}

/-! ### Steps -/

@[simp] theorem failAt_apply (t : Token) (fault : RuntimeFault) (w : World) :
    (failAt t fault : Eval α) w = .error (.atToken t fault) w := rfl

/-- Where a stream refuses, its fault is at the token. -/
theorem stream_apply (t : Token) (result : Except StreamFault α) (w : World) :
    stream t result w = match result with
      | .ok a        => .ok a w
      | .error fault => .error (.atToken t (.stream fault)) w := by
  cases result <;> rfl

/-- A look at the heap leaves the world as it was; its fault is at the token. -/
theorem inspect_apply (t : Token) (op : Heap → Except OperatorFault α) (w : World) :
    inspect t op w = match op w.heap with
      | .ok a        => .ok a w
      | .error fault => .error (.atToken t (.operator fault)) w := by
  cases hop : op w.heap <;>
    simp only [inspect, bind_apply, get_apply, hop, pure_apply, failAt_apply]

/-- A look that returns has left the world as it was. -/
theorem inspect_eq_ok {t : Token} {op : Heap → Except OperatorFault α} {w w₁ : World} {a : α}
    (h : inspect t op w = .ok a w₁) : op w.heap = .ok a ∧ w₁ = w := by
  rw [inspect_apply] at h
  cases hop : op w.heap with
  | ok b =>
    rw [hop] at h
    cases h
    exact ⟨rfl, rfl⟩
  | error fault =>
    rw [hop] at h
    cases h

theorem inspect_bind_of_ok {t : Token} {op : Heap → Except OperatorFault α} {w : World} {a : α}
    (h : op w.heap = .ok a) (k : α → Eval β) : (inspect t op >>= k) w = k a w := by
  rw [bind_apply, inspect_apply, h]

theorem inspect_bind_of_error {t : Token} {op : Heap → Except OperatorFault α} {w : World}
    {fault : OperatorFault} (h : op w.heap = .error fault) (k : α → Eval β) :
    (inspect t op >>= k) w = failAt t (.operator fault) w := by
  rw [bind_apply, inspect_apply, h]
  rfl

/-- An operation changes the lists, also where it fails. -/
theorem operate_apply (t : Token) (op : Operation Value) (w : World) :
    operate t op w = match op w.heap with
      | .ok v h        => .ok v { w with heap := h }
      | .error fault h => .error (.atToken t (.operator fault)) { w with heap := h } := by
  cases hop : op w.heap <;>
    simp only [operate, bind_apply, get_apply, hop, modify_apply, pure_apply, failAt_apply]

/-- Whatever becomes of an operator, only the heap has changed. -/
theorem after_operate (t : Token) (op : Operation Value) (w : World) :
    after (operate t op) w = { w with heap := after op w.heap } := by
  rw [after, after, operate_apply]
  cases op w.heap <;> rfl

theorem literalValue_apply (value : Literal) (w : World) :
    literalValue value w =
      .ok (value.toValue w.heap).1 { w with heap := (value.toValue w.heap).2 } := rfl

/-- A unary operator is the one that its name is bound to now. -/
theorem applyUnary_apply (t : Token) (v : Value) (w : World) :
    applyUnary t v w = match w.env.extension? t.lexeme with
      | some ⟨_, _, .unary action⟩ => operate t (action.run v) w
      | _                          => .error (.atToken t (.unknownOperator t.lexeme)) w := by
  simp only [applyUnary, bind_apply, get_apply]
  rcases w.env.extension? t.lexeme with - | ⟨ident, name, action⟩
  · rfl
  · cases action <;> rfl

/-- A binary operator is the one that its name is bound to now. -/
theorem applyBinary_apply (t : Token) (left right : Value) (w : World) :
    applyBinary t left right w = match w.env.extension? t.lexeme with
      | some ⟨_, _, .binary action⟩ => operate t (action.run left right) w
      | _                           => .error (.atToken t (.unknownOperator t.lexeme)) w := by
  simp only [applyBinary, bind_apply, get_apply]
  rcases w.env.extension? t.lexeme with - | ⟨ident, name, action⟩
  · rfl
  · cases action <;> rfl

/-! ### The world afterwards -/

/-- A computation that leaves the heap and the bindings as they are. -/
def Quiet (m : Eval α) : Prop := ∀ w, (after m w).heap = w.heap ∧ (after m w).env = w.env

/-- One quiet step after the other is quiet. -/
theorem Quiet.bind {m : Eval α} {k : α → Eval β} (hm : Quiet m) (hk : ∀ a, Quiet (k a)) :
    Quiet (m >>= k) := by
  intro w
  refine after_bind (P := fun w' : World => w'.heap = w.heap ∧ w'.env = w.env) (hm w) ?_
  rintro a w' - ⟨hheap, henv⟩
  rw [← hheap, ← henv]
  exact hk a w'

theorem quiet_pure (a : α) : Quiet (pure a : Eval α) := fun _ => ⟨rfl, rfl⟩

theorem quiet_failAt (t : Token) (fault : RuntimeFault) : Quiet (failAt t fault : Eval α) :=
  fun _ => ⟨rfl, rfl⟩

theorem quiet_inspect (t : Token) (op : Heap → Except OperatorFault α) : Quiet (inspect t op) := by
  intro w
  rw [after, inspect_apply]
  cases op w.heap <;> exact ⟨rfl, rfl⟩

theorem quiet_printLine (t : Token) (v : Value) : Quiet (printLine t v) := by
  intro w
  cases hout : w.out.write (w.shown v ++ "\n") with
  | error fault => simp [after, printLine, stream_apply, hout]
  | ok out => cases hflush : out.flush <;> simp [after, printLine, stream_apply, hout, hflush]

theorem quiet_reportLine (t : Token) (v : Value) : Quiet (reportLine t v) := by
  intro w
  cases hout : w.err.write (w.shown v ++ "\n") <;> simp [after, reportLine, stream_apply, hout]

theorem quiet_takeLine (t : Token) : Quiet (takeLine t) := by
  intro w
  cases hline : w.input.line <;> simp [after, takeLine, stream_apply, hline]

theorem quiet_readClock : Quiet readClock := fun _ => ⟨rfl, rfl⟩

/-- Reading, writing and the clock change neither lists nor bindings. -/
theorem quiet_exchange (t : Token) (left right : Value) : Quiet (exchange t left right) := by
  unfold exchange
  split
  · exact (quiet_takeLine t).bind fun _ => quiet_pure left
  · exact (quiet_printLine t left).bind fun _ => quiet_pure left
  · exact (quiet_reportLine t left).bind fun _ => quiet_pure left
  · exact quiet_readClock.bind fun n => quiet_pure _
  · exact quiet_pure left

/-! ### Binary nodes -/

/-- Whether the operator takes the values of both operands. -/
def BinaryOp.isStrict : BinaryOp → Bool
  | assign       => false
  | logic _ true => false
  | _            => true

section
variable {left right : Expr} {t : Token}

/-- How a binary tree is evaluated, by its operator; the equations below are its cases. -/
theorem evaluate_binary (left : Expr) (t : Token) (right : Expr) :
    evaluate (.binary left t right) =
      match BinaryOp.ofKind? t.kind with
      | some .assign =>
        match left with
        | .name target => do
          let v ← evaluate right
          modify fun w => { w with env := w.env.set target.lexeme v }
          return v
        | _ => failAt t .invalidTarget
      | some (.logic op true) => do
        let l ← evaluate left
        if ← inspect t fun h => op.proceeds h l then
          let r ← evaluate right
          inspect t fun h => op.apply h l r
        else return .boolean op.settled
      | some op => do
        let l ← evaluate left
        let r ← evaluate right
        operateBinary t op l r
      | none => (do
        let l ← evaluate left
        let r ← evaluate right
        applyBinary t l r) := by
  rfl

/-- An assignment evaluates its right side and binds the name to the result. -/
theorem evaluate_assign (h : BinaryOp.ofKind? t.kind = some .assign) (target : Token) :
    evaluate (.binary (.name target) t right) = (do
      let v ← evaluate right
      modify fun w => { w with env := w.env.set target.lexeme v }
      return v) := by
  rw [evaluate_binary, h]

/-- An assignment to anything but a name fails before anything is evaluated. -/
theorem evaluate_invalidTarget (h : BinaryOp.ofKind? t.kind = some .assign)
    (hleft : ∀ target, left ≠ .name target) :
    evaluate (.binary left t right) = failAt t .invalidTarget := by
  rw [evaluate_binary, h]
  cases left with
  | name target => exact absurd rfl (hleft target)
  | _ => rfl

/-- The short-circuit forms evaluate their right side only where they go on to it. -/
theorem evaluate_shortCircuit {op : Logic} (h : BinaryOp.ofKind? t.kind = some (.logic op true)) :
    evaluate (.binary left t right) = (do
      let l ← evaluate left
      if ← inspect t fun h => op.proceeds h l then
        let r ← evaluate right
        inspect t fun h => op.apply h l r
      else return .boolean op.settled) := by
  rw [evaluate_binary, h]

/-- All other operators by token evaluate both sides, the left one first. -/
theorem evaluate_strict {op : BinaryOp} (h : BinaryOp.ofKind? t.kind = some op)
    (hop : op.isStrict = true) :
    evaluate (.binary left t right) = (do
      let l ← evaluate left
      let r ← evaluate right
      operateBinary t op l r) := by
  rw [evaluate_binary, h]
  split <;> simp_all [BinaryOp.isStrict]

/-- A binary operator by name evaluates both sides, the left one first. -/
theorem evaluate_extension (h : BinaryOp.ofKind? t.kind = none) :
    evaluate (.binary left t right) = (do
      let l ← evaluate left
      let r ← evaluate right
      applyBinary t l r) := by
  rw [evaluate_binary, h]

end

/-! ### Calls -/

/-- What a value does to an argument, if it is an operator with one operand. -/
def Value.unaryAction? : Value → Option UnaryAction
  | callable ⟨_, _, .unary action⟩ => some action
  | _                              => none

/-- A call evaluates what is called, then the argument, and applies it. -/
theorem evaluate_call (callee : Expr) (t : Token) (argument : Expr) :
    evaluate (.call callee t argument) = (do
      let c ← evaluate callee
      match c.unaryAction? with
      | some action => do
        let v ← evaluate argument
        operate t (action.run v)
      | none => failAt t .notCallable) := by
  rw [evaluate]
  congr 1
  funext c
  cases c with
  | callable c =>
    obtain ⟨ident, name, action⟩ := c
    cases action <;> rfl
  | _ => rfl

/-! ### Trees -/

/-- Induction over trees, with a case for each way in which a tree is evaluated. -/
theorem evaluation_induction {P : Expr → Prop} (literal : ∀ t value, P (.literal t value))
    (name : ∀ t, P (.name t))
    (group : ∀ opener e closer, P e → P (.group opener e closer))
    (unary : ∀ t e, P e → P (.unary t e))
    (assign : ∀ target t right, BinaryOp.ofKind? t.kind = some .assign → P right →
      P (.binary (.name target) t right))
    (invalidTarget : ∀ left t right, BinaryOp.ofKind? t.kind = some .assign →
      (∀ target, left ≠ .name target) → P (.binary left t right))
    (shortCircuit : ∀ left t right op, BinaryOp.ofKind? t.kind = some (.logic op true) →
      P left → P right → P (.binary left t right))
    (strict : ∀ left t right op, BinaryOp.ofKind? t.kind = some op → op.isStrict = true →
      P left → P right → P (.binary left t right))
    (extension : ∀ left t right, BinaryOp.ofKind? t.kind = none → P left → P right →
      P (.binary left t right))
    (call : ∀ callee t argument, P callee → P argument → P (.call callee t argument))
    (e : Expr) : P e := by
  induction e with
  | literal t value => exact literal t value
  | name t => exact name t
  | group opener e closer ih => exact group opener e closer ih
  | unary t e ih => exact unary t e ih
  | binary left t right ihl ihr =>
    cases hop : BinaryOp.ofKind? t.kind with
    | none => exact extension left t right hop ihl ihr
    | some op =>
      by_cases hs : op.isStrict = true
      · exact strict left t right op hop hs ihl ihr
      · cases op with
        | assign =>
          by_cases hleft : ∃ target, left = .name target
          · obtain ⟨target, rfl⟩ := hleft
            exact assign target t right hop ihr
          · exact invalidTarget left t right hop (not_exists.mp hleft)
        | logic op circuit =>
          cases circuit with
          | true => exact shortCircuit left t right op hop ihl ihr
          | false => exact absurd rfl hs
        | _ => exact absurd rfl hs
  | call callee t argument ihc iha => exact call callee t argument ihc iha

end ListCalc
