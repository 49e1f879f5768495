import ListCalc.Proofs.Eval.Growth
import ListCalc.Proofs.Value.Closed

/-!
# Proofs — evaluation stays within the heap

A world is closed if all lists that its bindings and its lists refer to are there.  Evaluation keeps
it closed and gives a value that is within its heap (`evaluate_keeps`).  An operand that was
evaluated before another one is still within the heap after that, because the heap only grows.
-/

namespace ListCalc

/-! ### Closed worlds -/

/-- Nothing in the world refers to a list that is not there. -/
structure World.Closed (w : World) : Prop where
  heap : w.heap.Closed
  env : ∀ name v, w.env.get? name = some v → v.Within w.heap

/-- A world stays closed when its heap grows to a closed one. -/
theorem World.Closed.grew {w : World} {h : Heap} {joins : List (Value × Value)} (hw : w.Closed)
    (hg : Grew w.heap h joins) (hc : h.Closed) : World.Closed { w with heap := h } :=
  ⟨hc, fun name v hv => (hw.env name v hv).grew hg⟩

/-- A world stays closed when a value of its heap is bound. -/
theorem World.Closed.set {w : World} {v : Value} (hw : w.Closed) (hv : v.Within w.heap)
    (name : String) : World.Closed { w with env := w.env.set name v } := by
  refine ⟨hw.heap, fun other x hx => ?_⟩
  rw [Env.get?_set] at hx
  split at hx
  · exact Option.some.inj hx ▸ hv
  · exact hw.env other x hx

/-- The computation leaves a closed world, and its result is within that. -/
abbrev Keeps (m : Eval Value) (w : World) : Prop :=
  Leaves World.Closed (fun v w => v.Within w.heap) m w

variable {w : World}

/-- What changes no lists and no bindings keeps the world closed. -/
theorem Quiet.closed {α : Type} {m : Eval α} (hm : Quiet m) (hw : w.Closed) :
    (after m w).Closed := by
  obtain ⟨hheap, henv⟩ := hm w
  refine ⟨hheap ▸ hw.heap, fun name v hget => ?_⟩
  rw [henv] at hget
  rw [hheap]
  exact hw.env name v hget

/-- What changes no lists and no bindings has to be asked for its result only. -/
theorem Quiet.keeps {m : Eval Value} (hm : Quiet m) (hw : w.Closed)
    (hv : ∀ {v w'}, m w = .ok v w' → v.Within w.heap) : Keeps m w := by
  refine ⟨hm.closed hw, fun {v w'} hx => ?_⟩
  have hheap := (hm w).1
  rw [after_of_ok hx] at hheap
  rw [hheap]
  exact hv hx

/-- An operation of the heap keeps the world closed if it contains what it gives. -/
theorem Keeps.operate {t : Token} {op : Operation Value} {joins : List (Value × Value)}
    (hw : w.Closed) (hg : Grew w.heap (after op w.heap) joins) (hc : Contained op w.heap) :
    Keeps (operate t op) w := by
  refine ⟨?_, fun {v w'} hv => ?_⟩
  · rw [after_operate]
    exact hw.grew hg hc.state
  · rw [operate_apply] at hv
    cases hop : op w.heap with
    | ok x h =>
      rw [hop] at hv
      cases hv
      exact hc.value hop
    | error fault h =>
      rw [hop] at hv
      cases hv

/-- A look at the heap keeps the world closed if it gives no list. -/
theorem keeps_inspect (t : Token) (op : Heap → Except OperatorFault Value) (hw : w.Closed)
    (hop : ∀ v, op w.heap = .ok v → ∀ r, v ≠ .list r) : Keeps (inspect t op) w := by
  refine (quiet_inspect t op).keeps hw fun {v w'} hv => ?_
  obtain ⟨hout, -⟩ := inspect_eq_ok hv
  exact Value.within_of_not_list (hop v hout)

/-! ### Operators -/

/-- No number is a list. -/
theorem toValue_ne_list (n : Number) (r : ListRef) : n.toValue ≠ .list r := by
  cases n <;> nofun

/-- Arithmetic gives no list. -/
theorem arith_ne_list {op : Arith} {h : Heap} {left right v : Value}
    (hv : op.apply h left right = .ok v) (r : ListRef) : v ≠ .list r := by
  unfold Arith.apply at hv
  split at hv
  · cases hv
    nofun
  · obtain ⟨a, -, hv⟩ := steps_of_bind_ok hv
    obtain ⟨b, -, hv⟩ := steps_of_bind_ok hv
    obtain ⟨n, -, hv⟩ := steps_of_bind_ok hv
    cases hv
    exact toValue_ne_list n r

/-- Logic gives no list. -/
theorem logic_ne_list {op : Logic} {h : Heap} {left right v : Value}
    (hv : op.apply h left right = .ok v) (r : ListRef) : v ≠ .list r := by
  obtain ⟨a, -, hv⟩ := steps_of_bind_ok hv
  obtain ⟨b, -, hv⟩ := steps_of_bind_ok hv
  cases hv
  nofun

/-- The unary operators give no list. -/
theorem unaryOp_ne_list {op : UnaryOp} {h : Heap} {x v : Value} (hv : op.apply h x = .ok v)
    (r : ListRef) : v ≠ .list r := by
  unfold UnaryOp.apply at hv
  split at hv
  · cases hb : x.isTruthy h <;> rw [hb] at hv <;> cases hv
    nofun
  · cases hv
    nofun
  · cases hv
    nofun
  · cases hv

/-- A literal is a new list or none. -/
theorem keeps_literalValue (value : Literal) (hw : w.Closed) : Keeps (literalValue value) w := by
  obtain ⟨hc, hv⟩ := closed_literal hw.heap value
  exact .of_ok (literalValue_apply value w) (hw.grew (.literal w.heap value) hc) hv

theorem keeps_failAt (t : Token) (fault : RuntimeFault) (hw : w.Closed) :
    Keeps (failAt t fault) w :=
  (quiet_failAt t fault).keeps hw nofun

theorem keeps_pure {v : Value} (hw : w.Closed) (hv : v.Within w.heap) : Keeps (pure v) w := by
  refine (quiet_pure v).keeps hw ?_
  rintro _ _ ⟨⟩
  exact hv

/-- A unary operator by name gives what is in the heap afterwards. -/
theorem keeps_applyUnary (t : Token) {v : Value} (hw : w.Closed) (hv : v.Within w.heap) :
    Keeps (applyUnary t v) w := by
  have happly := applyUnary_apply t v w
  rcases hext : w.env.extension? t.lexeme with - | ⟨ident, name, action⟩ <;> rw [hext] at happly
  · exact (keeps_failAt t _ hw).of_eq happly
  · cases action with
    | unary action =>
      have hop : Keeps (operate t (action.run v)) w :=
        .operate hw (action.grows v w.heap) (action.contained hw.heap hv)
      exact hop.of_eq happly
    | binary action => exact (keeps_failAt t _ hw).of_eq happly

/-- A binary operator by name gives what is in the heap afterwards. -/
theorem keeps_applyBinary (t : Token) {left right : Value} (hw : w.Closed)
    (hl : left.Within w.heap) (hr : right.Within w.heap) : Keeps (applyBinary t left right) w := by
  have happly := applyBinary_apply t left right w
  rcases hext : w.env.extension? t.lexeme with - | ⟨ident, name, action⟩ <;> rw [hext] at happly
  · exact (keeps_failAt t _ hw).of_eq happly
  · cases action with
    | unary action => exact (keeps_failAt t _ hw).of_eq happly
    | binary action =>
      have hop : Keeps (operate t (action.run left right)) w :=
        .operate hw (action.grows left right w.heap) (action.contained hw.heap hl hr)
      exact hop.of_eq happly

/-- What a computation returns last is what it returns. -/
theorem result_of_bind_pure {α : Type} {m : Eval α} {f : α → Value} {v : Value} {w' : World}
    (h : (m >>= fun a => pure (f a)) w = .ok v w') : ∃ a, v = f a := by
  obtain ⟨a, w'', -, h⟩ := bind_eq_ok h
  cases h
  exact ⟨a, rfl⟩

/-- What is read is a text or a number, and what is written was there before. -/
theorem keeps_exchange (t : Token) {left : Value} (hw : w.Closed) (hl : left.Within w.heap)
    (right : Value) : Keeps (exchange t left right) w := by
  refine (quiet_exchange t left right).keeps hw fun {v w'} hv => ?_
  have hresult : v = left ∨ ∃ n, v = .integer n := by
    unfold exchange at hv
    split at hv
    · exact .inl (result_of_bind_pure hv).choose_spec
    · exact .inl (result_of_bind_pure hv).choose_spec
    · exact .inl (result_of_bind_pure hv).choose_spec
    · obtain ⟨n, hn⟩ := result_of_bind_pure hv
      exact .inr ⟨n, hn⟩
    · cases hv
      exact .inl rfl
  rcases hresult with rfl | ⟨n, rfl⟩
  · exact hl
  · exact Value.within_of_not_list nofun

/-- A binary operator by token gives what is in the heap afterwards. -/
theorem keeps_operateBinary (t : Token) (op : BinaryOp) {left right : Value} (hw : w.Closed)
    (hl : left.Within w.heap) (hr : right.Within w.heap) :
    Keeps (operateBinary t op left right) w := by
  cases op with
  | cons =>
    rw [operateBinary]
    exact Keeps.operate hw (Grew.cons w.heap left right) (.cons hw.heap hl hr)
  | intersect =>
    rw [operateBinary]
    exact Keeps.operate hw (Grew.newList w.heap _) (.intersect hw.heap hl hr)
  | range =>
    rw [operateBinary]
    exact Keeps.operate hw (Grew.range w.heap left right) (.range hw.heap left right)
  | arith op =>
    rw [operateBinary]
    exact keeps_inspect t _ hw fun v hv => arith_ne_list hv
  | compare op =>
    rw [operateBinary]
    exact keeps_inspect t _ hw fun v hv => compare_ne_list hv
  | logic op circuit =>
    rw [operateBinary]
    exact keeps_inspect t _ hw fun v hv => logic_ne_list hv
  | exchange =>
    rw [operateBinary]
    exact keeps_exchange t hw hl right
  | assign => exact keeps_pure hw hr

/-! ### Trees -/

/-- What was within the heap is so after an evaluation. -/
theorem Value.Within.evaluated {v x : Value} {e : Expr} {w' : World} (hv : v.Within w.heap)
    (he : evaluate e w = .ok x w') : v.Within w'.heap := by
  have hg := evaluate_grows e w
  rw [Grows, after_of_ok he] at hg
  exact hv.grew hg

/-- **Evaluation stays within the heap.** -/
theorem evaluate_keeps (e : Expr) (hw : w.Closed) : Keeps (evaluate e) w := by
  induction e using evaluation_induction generalizing w with
  | literal t value => exact keeps_literalValue value hw
  | name t =>
    have hv : ((w.env.get? t.lexeme).getD (.symbol t.lexeme)).Within w.heap := by
      cases hget : w.env.get? t.lexeme with
      | some v => exact hw.env t.lexeme v hget
      | none => exact Value.within_of_not_list (by simp)
    exact (keeps_pure hw hv).of_eq rfl
  | group opener e closer ih => exact ih hw
  | unary t e ih =>
    rw [evaluate]
    refine (ih hw).bind fun v w₁ _ hw₁ hv => ?_
    cases UnaryOp.ofKind? t.kind with
    | some op => exact keeps_inspect t _ hw₁ fun x hx => unaryOp_ne_list hx
    | none => exact keeps_applyUnary t hw₁ hv
  | assign target t right hop ih =>
    rw [evaluate_assign hop]
    refine (ih hw).bind fun v w₁ _ hw₁ hv => ⟨hw₁.set hv target.lexeme, ?_⟩
    rintro _ _ ⟨⟩
    exact hv
  | invalidTarget left t right hop hleft =>
    rw [evaluate_invalidTarget hop hleft]
    exact keeps_failAt t _ hw
  | shortCircuit left t right op hop ihl ihr =>
    rw [evaluate_shortCircuit hop]
    refine (ihl hw).bind fun l w₁ _ hw₁ hl => ?_
    cases hp : op.proceeds w₁.heap l with
    | error fault => exact (keeps_failAt t _ hw₁).of_eq (inspect_bind_of_error hp _)
    | ok proceeds =>
      refine Leaves.of_eq ?_ (inspect_bind_of_ok hp _)
      cases proceeds with
      | true =>
        refine (ihr hw₁).bind fun r w₂ _ hw₂ _ => ?_
        exact keeps_inspect t _ hw₂ fun v hv => logic_ne_list hv
      | false => exact keeps_pure hw₁ (Value.within_of_not_list (by simp))
  | strict left t right op hop hs ihl ihr =>
    rw [evaluate_strict hop hs]
    refine (ihl hw).bind fun l w₁ _ hw₁ hl => ?_
    refine (ihr hw₁).bind fun r w₂ hr₂ hw₂ hr => ?_
    -- the left value was found before the right operand changed the heap
    exact keeps_operateBinary t op hw₂ (Value.Within.evaluated hl hr₂) hr
  | extension left t right hop ihl ihr =>
    rw [evaluate_extension hop]
    refine (ihl hw).bind fun l w₁ _ hw₁ hl => ?_
    refine (ihr hw₁).bind fun r w₂ hr₂ hw₂ hr => ?_
    exact keeps_applyBinary t hw₂ (Value.Within.evaluated hl hr₂) hr
  | call callee t argument ihc iha =>
    rw [evaluate_call]
    refine (ihc hw).bind fun c w₁ _ hw₁ _ => ?_
    cases c.unaryAction? with
    | some action =>
      refine (iha hw₁).bind fun v w₂ _ hw₂ hv => ?_
      exact Keeps.operate hw₂ (action.grows v w₂.heap) (action.contained hw₂.heap hv)
    | none => exact keeps_failAt t _ hw₁

/-- Trees one after the other keep the world closed. -/
theorem interpret_closed (es : List Expr) (hw : w.Closed) : (after (interpret es) w).Closed := by
  induction es generalizing w with
  | nil => exact hw
  | cons e es ih =>
    rw [interpret]
    refine after_bind (evaluate_keeps e hw).state fun v w₁ _ hw₁ => ?_
    exact after_bind ((quiet_printLine e.token v).closed hw₁) fun _ w₂ _ hw₂ => ih hw₂

end ListCalc
