import ListCalc.Proofs.Eval.Assignments
import ListCalc.Proofs.Session.Lists
import ListCalc.Proofs.Session.Run

/-!
# Proofs — operators between reading and evaluating

The parser takes the operators that names are bound to when a source is read; the evaluator looks
each of them up again, after the operands.  A look-up can fail only at a name that the parser took
for an operator (`Phrase.operatorsIn`), and only if the name is not bound to one of that arity any
more (`evaluate_missesOnly`).  Bindings change by assignments alone (`interpret_assigns`), so the
run has assigned to that name before (`unknown_operator_was_reassigned`).
-/

namespace ListCalc

variable {α β : Type} {arities : Arities}

/-! ### Operators in trees -/

/-- Every name that stands as an operator in the tree has that arity in the table. -/
def Expr.OperatorsIn (arities : Arities) : Expr → Prop
  | literal _ _   => True
  | name _        => True
  | group _ e _   => e.OperatorsIn arities
  | unary op e    =>
    (UnaryOp.ofKind? op.kind = none → arities op.lexeme = some .unary) ∧ e.OperatorsIn arities
  | binary l op r =>
    (BinaryOp.ofKind? op.kind = none → arities op.lexeme = some .binary) ∧
      l.OperatorsIn arities ∧ r.OperatorsIn arities
  | call f _ a    => f.OperatorsIn arities ∧ a.OperatorsIn arities

/-- The operators in a phrase are in the table it is read under. -/
theorem Phrase.operatorsIn {k : Category} {e : Expr} (h : Phrase arities k e) :
    e.OperatorsIn arities := by
  induction h with
  | assign _ hop _ ih =>
    refine ⟨fun hnone => ?_, trivial, ih⟩
    rw [hop] at hnone
    cases hnone
  | series _ ih | operand _ ih | application _ ih | primary _ ih => exact ih
  | joined _ hop _ _ ihl ihr =>
    refine ⟨fun hnone => ?_, ihl, ihr⟩
    rcases hop with hsome | ⟨-, harity⟩
    · rw [hnone] at hsome
      cases hsome
    · exact harity
  | prefixed hop _ ih =>
    refine ⟨fun hnone => ?_, ih⟩
    rcases hop with hkind | hkind | ⟨-, harity⟩
    · rw [hkind] at hnone
      cases hnone
    · rw [hkind] at hnone
      cases hnone
    · exact harity
  | call _ _ _ ihc iha => exact ⟨ihc, iha⟩
  | literal => trivial
  | name => trivial
  | group _ _ _ ih => exact ih

/-! ### Look-ups that fail -/

/-- If the computation fails because an operator is unknown, then the table has the name, which is
not bound to an operator of that arity any more. -/
def MissesOnly (arities : Arities) (m : Eval α) : Prop :=
  ∀ w error w' name, m w = .error error w' → error.fault = .unknownOperator name →
    ∃ arity, arities name = some arity ∧ w'.env.arity? name ≠ some arity

/-- One step after the other misses what one of them does. -/
theorem MissesOnly.bind {m : Eval α} {k : α → Eval β} (hm : MissesOnly arities m)
    (hk : ∀ a, MissesOnly arities (k a)) : MissesOnly arities (m >>= k) := by
  intro w error w' name h hfault
  rw [bind_apply] at h
  cases hw : m w with
  | ok a w₁ =>
    rw [hw] at h
    exact hk a w₁ error w' name h hfault
  | error e w₁ =>
    rw [hw] at h
    cases h
    exact hm w error w' name hw hfault

/-- What never fails misses nothing. -/
theorem missesOnly_of_ok {m : Eval α} (h : ∀ w, ∃ a w', m w = .ok a w') :
    MissesOnly arities m := by
  intro w error w' name herror
  obtain ⟨a, w₁, hok⟩ := h w
  cases hok.symm.trans herror

theorem missesOnly_get : MissesOnly arities (get : Eval World) :=
  missesOnly_of_ok fun w => ⟨w, w, rfl⟩

theorem missesOnly_pure (a : α) : MissesOnly arities (pure a : Eval α) :=
  missesOnly_of_ok fun w => ⟨a, w, rfl⟩

/-- Other faults are no matter here. -/
theorem missesOnly_failAt (t : Token) {fault : RuntimeFault}
    (h : ∀ name, fault ≠ .unknownOperator name) : MissesOnly arities (failAt t fault : Eval α) := by
  rintro w _ _ name ⟨⟩ hfault
  exact absurd hfault (h name)

theorem missesOnly_stream (t : Token) (result : Except StreamFault α) :
    MissesOnly arities (stream t result) := by
  cases result with
  | ok a => exact missesOnly_pure a
  | error fault => exact missesOnly_failAt t (by simp)

theorem missesOnly_inspect (t : Token) (op : Heap → Except OperatorFault α) :
    MissesOnly arities (inspect t op) := by
  refine missesOnly_get.bind fun w => ?_
  cases op w.heap with
  | ok a => exact missesOnly_pure a
  | error fault => exact missesOnly_failAt t (by simp)

theorem missesOnly_operate (t : Token) (op : Operation Value) :
    MissesOnly arities (operate t op) := by
  refine missesOnly_get.bind fun w => ?_
  cases op w.heap with
  | ok v h => exact missesOnly_of_ok fun w' => ⟨_, _, rfl⟩
  | error fault h =>
    exact MissesOnly.bind (missesOnly_of_ok fun w' => ⟨_, _, rfl⟩)
      fun _ => missesOnly_failAt t (by simp)

theorem missesOnly_printLine (t : Token) (v : Value) : MissesOnly arities (printLine t v) := by
  refine missesOnly_get.bind fun w => ?_
  refine (missesOnly_stream t _).bind fun out => ?_
  exact MissesOnly.bind (missesOnly_of_ok fun w' => ⟨_, _, rfl⟩) fun _ => missesOnly_stream t _

theorem missesOnly_reportLine (t : Token) (v : Value) : MissesOnly arities (reportLine t v) := by
  refine missesOnly_get.bind fun w => ?_
  exact (missesOnly_stream t _).bind fun err => missesOnly_of_ok fun w' => ⟨_, _, rfl⟩

theorem missesOnly_takeLine (t : Token) : MissesOnly arities (takeLine t) := by
  refine missesOnly_get.bind fun w => ?_
  exact MissesOnly.bind (missesOnly_of_ok fun w' => ⟨_, _, rfl⟩) fun _ => missesOnly_stream t _

theorem missesOnly_exchange (t : Token) (left right : Value) :
    MissesOnly arities (exchange t left right) := by
  unfold exchange
  split
  · exact (missesOnly_takeLine t).bind fun _ => missesOnly_pure left
  · exact (missesOnly_printLine t left).bind fun _ => missesOnly_pure left
  · exact (missesOnly_reportLine t left).bind fun _ => missesOnly_pure left
  · exact missesOnly_of_ok fun w => ⟨_, _, rfl⟩
  · exact missesOnly_pure left

theorem missesOnly_operateBinary (t : Token) (op : BinaryOp) (left right : Value) :
    MissesOnly arities (operateBinary t op left right) := by
  cases op with
  | arith op | compare op | logic op circuit =>
    rw [operateBinary]
    exact missesOnly_inspect t _
  | cons | intersect | range =>
    rw [operateBinary]
    exact missesOnly_operate t _
  | exchange => exact missesOnly_exchange t left right
  | assign => exact missesOnly_pure right

theorem missesOnly_literalValue (value : Literal) : MissesOnly arities (literalValue value) :=
  missesOnly_of_ok fun w => ⟨_, _, literalValue_apply value w⟩

/-- A unary operator by name is missed only under that name. -/
theorem missesOnly_applyUnary {t : Token} (ht : arities t.lexeme = some .unary) (v : Value) :
    MissesOnly arities (applyUnary t v) := by
  intro w error w' name h hfault
  rw [applyUnary_apply] at h
  split at h
  · exact missesOnly_operate t _ w error w' name h hfault
  · rename_i hnone
    cases h
    cases hfault
    refine ⟨.unary, ht, fun harity => ?_⟩
    obtain ⟨⟨ident, bound, action⟩, hc, haction⟩ := Option.map_eq_some_iff.mp harity
    cases action with
    | unary action => exact hnone ident bound action hc
    | binary action => cases haction

/-- A binary operator by name is missed only under that name. -/
theorem missesOnly_applyBinary {t : Token} (ht : arities t.lexeme = some .binary)
    (left right : Value) : MissesOnly arities (applyBinary t left right) := by
  intro w error w' name h hfault
  rw [applyBinary_apply] at h
  split at h
  · exact missesOnly_operate t _ w error w' name h hfault
  · rename_i hnone
    cases h
    cases hfault
    refine ⟨.binary, ht, fun harity => ?_⟩
    obtain ⟨⟨ident, bound, action⟩, hc, haction⟩ := Option.map_eq_some_iff.mp harity
    cases action with
    | unary action => cases haction
    | binary action => exact hnone ident bound action hc

/-- A tree misses only operators that were in the table. -/
theorem evaluate_missesOnly {e : Expr} (he : e.OperatorsIn arities) :
    MissesOnly arities (evaluate e) := by
  induction e using evaluation_induction with
  | literal t value => exact missesOnly_literalValue value
  | name t => exact missesOnly_of_ok fun w => ⟨_, _, rfl⟩
  | group opener e closer ih => exact ih he
  | unary t e ih =>
    rw [evaluate]
    refine (ih he.2).bind fun v => ?_
    cases hop : UnaryOp.ofKind? t.kind with
    | some op => exact missesOnly_inspect t _
    | none => exact missesOnly_applyUnary (he.1 hop) v
  | assign target t right hop ih =>
    rw [evaluate_assign hop]
    exact (ih he.2.2).bind fun v => missesOnly_of_ok fun w => ⟨_, _, rfl⟩
  | invalidTarget left t right hop hleft =>
    rw [evaluate_invalidTarget hop hleft]
    exact missesOnly_failAt t (by simp)
  | shortCircuit left t right op hop ihl ihr =>
    rw [evaluate_shortCircuit hop]
    refine (ihl he.2.1).bind fun l => (missesOnly_inspect t _).bind fun proceeds => ?_
    cases proceeds with
    | true => exact (ihr he.2.2).bind fun r => missesOnly_inspect t _
    | false => exact missesOnly_pure _
  | strict left t right op hop hs ihl ihr =>
    rw [evaluate_strict hop hs]
    refine (ihl he.2.1).bind fun l => (ihr he.2.2).bind fun r => ?_
    exact missesOnly_operateBinary t op l r
  | extension left t right hop ihl ihr =>
    rw [evaluate_extension hop]
    refine (ihl he.2.1).bind fun l => (ihr he.2.2).bind fun r => ?_
    exact missesOnly_applyBinary (he.1 hop) l r
  | call callee t argument ihc iha =>
    rw [evaluate_call]
    refine (ihc he.1).bind fun c => ?_
    cases c.unaryAction? with
    | some action => exact (iha he.2).bind fun v => missesOnly_operate t _
    | none => exact missesOnly_failAt t (by simp)

/-- Trees one after the other miss only operators that were in the table. -/
theorem interpret_missesOnly {es : List Expr} (hes : ∀ e ∈ es, e.OperatorsIn arities) :
    MissesOnly arities (interpret es) := by
  induction es with
  | nil => exact missesOnly_pure ()
  | cons e es ih =>
    rw [interpret]
    refine (evaluate_missesOnly (hes e (.head _))).bind fun v => ?_
    refine (missesOnly_printLine e.token v).bind fun _ => ?_
    exact ih fun f hf => hes f (.tail _ hf)

/-! ### Runs -/

/-- The assignments that a run makes, in order. -/
def runAssignments (w : World) (source : String) : List (String × Value) :=
  match readSource w.env.arity? source with
  | .ok trees => batchAssignments trees w
  | .error _  => []

variable {w : World} {source : String}

/-- A name is bound after a run to what the run assigned to it last, if anything. -/
theorem get?_run_world (w : World) (source name : String) :
    (run w source).world.env.get? name =
      (lastAssigned name (runAssignments w source)).or (w.env.get? name) := by
  rw [run_world, runAssignments]
  cases readSource w.env.arity? source with
  | ok trees => exact interpret_assigns trees w name
  | error errors => rfl

/-- A run that fails has read its trees, and fails where they are interpreted. -/
theorem run_eq_failed {error : RuntimeError} (h : (run w source).error? = some (.failed error)) :
    ∃ trees, readSource w.env.arity? source = .ok trees ∧
      interpret trees w = .error error (run w source).world := by
  rw [run] at h ⊢
  cases hread : readSource w.env.arity? source with
  | error errors =>
    rw [hread] at h
    cases h
  | ok trees =>
    rw [hread] at h
    refine ⟨trees, rfl, ?_⟩
    dsimp only at h ⊢
    cases hresult : interpret trees w with
    | ok _ w' =>
      rw [hresult] at h
      cases h
    | error e w' =>
      rw [hresult] at h
      cases h
      rfl

/-- A name has an arity if it is bound to an operator of that arity. -/
theorem arity?_eq_some_iff {env : Env} {name : String} {arity : Arity} :
    env.arity? name = some arity ↔
      ∃ c : Callable, env.get? name = some (.callable c) ∧ c.arity = arity := by
  rw [Env.arity?, Env.extension?, Option.map_eq_some_iff]
  constructor
  · rintro ⟨c, hc, harity⟩
    split at hc
    · rename_i hget
      cases hc
      exact ⟨c, hget, harity⟩
    · cases hc
  · rintro ⟨c, hget, harity⟩
    exact ⟨c, by rw [hget], harity⟩

/-- A run that fails because an operator is unknown has assigned to its name before, and last a
value that is no operator of the arity that the name was read with. -/
theorem exists_lastAssigned_of_unknown {error : RuntimeError} {name : String}
    (h : (run w source).error? = some (.failed error))
    (hfault : error.fault = .unknownOperator name) :
    ∃ (c : Callable) (v : Value), w.env.get? name = some (.callable c) ∧
      lastAssigned name (runAssignments w source) = some v ∧
      ∀ c' : Callable, v = .callable c' → c'.arity ≠ c.arity := by
  obtain ⟨trees, hread, hresult⟩ := run_eq_failed h
  have hoperators : ∀ e ∈ trees, e.OperatorsIn w.env.arity? := fun e he =>
    (phrase_of_parse (parse_of_readSource hread) e he).operatorsIn
  obtain ⟨arity, hstart, hend⟩ := interpret_missesOnly hoperators w error _ name hresult hfault
  obtain ⟨c, hc, rfl⟩ := arity?_eq_some_iff.mp hstart
  have hget := get?_run_world w source name
  -- without an assignment the operator of the start would still be found
  cases hlast : lastAssigned name (runAssignments w source) with
  | none =>
    rw [hlast, hc] at hget
    exact absurd (arity?_eq_some_iff.mpr ⟨c, hget, rfl⟩) hend
  | some v =>
    refine ⟨c, v, hc, rfl, ?_⟩
    rintro c' rfl harity
    rw [hlast] at hget
    exact hend (arity?_eq_some_iff.mpr ⟨c', hget, harity⟩)

/-- A name that a run assigns is the target of an assignment in its source. -/
theorem mem_targets_of_runAssignments {a : String × Value} (h : a ∈ runAssignments w source) :
    ∃ trees, readSource w.env.arity? source = .ok trees ∧ ∃ e ∈ trees, a.1 ∈ e.targets := by
  rw [runAssignments] at h
  cases hread : readSource w.env.arity? source with
  | ok trees =>
    rw [hread] at h
    exact ⟨trees, rfl, mem_targets_of_batchAssignments h⟩
  | error errors =>
    rw [hread] at h
    cases h

/-- **Operators get lost by reassignment only.**  A run that fails because an operator is unknown
was read with an operator bound to that name, and has assigned to the name before it failed.  The
assignments account for every change of the bindings.  So a source that assigns to no name bound to
an operator does not fail in this way. -/
theorem unknown_operator_was_reassigned (w : World) (source : String) :
    (∀ error name, (run w source).error? = some (.failed error) →
      error.fault = .unknownOperator name →
      ∃ (c : Callable) (v : Value), w.env.get? name = some (.callable c) ∧
        (name, v) ∈ runAssignments w source ∧
        lastAssigned name (runAssignments w source) = some v ∧
        ∀ c' : Callable, v = .callable c' → c'.arity ≠ c.arity) ∧
    (∀ name, (run w source).world.env.get? name =
      (lastAssigned name (runAssignments w source)).or (w.env.get? name)) ∧
    ((∀ trees, readSource w.env.arity? source = .ok trees → ∀ e ∈ trees, ∀ name ∈ e.targets,
        ∀ c : Callable, w.env.get? name ≠ some (.callable c)) →
      ∀ error name, (run w source).error? = some (.failed error) →
        error.fault ≠ .unknownOperator name) := by
  refine ⟨fun error name h hfault => ?_, get?_run_world w source,
    fun hnone error name h hfault => ?_⟩
  · obtain ⟨c, v, hc, hlast, hv⟩ := exists_lastAssigned_of_unknown h hfault
    exact ⟨c, v, hc, mem_of_lastAssigned hlast, hlast, hv⟩
  · obtain ⟨c, v, hc, hlast, -⟩ := exists_lastAssigned_of_unknown h hfault
    obtain ⟨trees, hread, e, he, hname⟩ :=
      mem_targets_of_runAssignments (mem_of_lastAssigned hlast)
    exact hnone trees hread e he name hname c hc

/-- A source that sets `size` and then uses it before an operand, as it was read. -/
theorem unknown_operator_was_reassigned_size :
    (run quietStart "size:3 size 4").error? =
      some (.failed (.atToken ⟨.identifier, "size", 7, 1⟩ (.unknownOperator "size"))) ∧
    ∃ (c : Callable) (v : Value), quietStart.env.get? "size" = some (.callable c) ∧
      ("size", v) ∈ runAssignments quietStart "size:3 size 4" := by
  have hrun : (run quietStart "size:3 size 4").error? =
      some (.failed (.atToken ⟨.identifier, "size", 7, 1⟩ (.unknownOperator "size"))) := by
    decide +kernel
  obtain ⟨hlost, -, -⟩ := unknown_operator_was_reassigned quietStart "size:3 size 4"
  obtain ⟨c, v, hc, hmem, -, -⟩ := hlost _ "size" hrun rfl
  exact ⟨hrun, c, v, hc, hmem⟩

end ListCalc
