import ListCalc.Proofs.Eval.Computation
import ListCalc.Proofs.Expr.Placement

/-!
# Proofs — two evaluations in step

One tree is evaluated in two worlds, on one side with its tokens moved.  The worlds have their
lists, streams and clock in common, and agree on the names that the tree mentions.  Then the two
evaluations go in step (`evaluate_lockstep`): the same value, or the same fault at corresponding
tokens, and worlds that are related as before.  A fault is always at a token of the tree.

Which worlds are related is left open.  `Twins names R` says what a relation `R` must give for trees
that mention only `names`: equal worlds are twins for all names (`twins_eq`).
-/

namespace ListCalc

variable {α β : Type}

/-! ### What worlds have in common -/

/-- What a world holds beside its bindings: the lists, the streams and the clock. -/
structure Shared where
  heap : Heap
  input : Input
  out : Output
  err : Output
  clock : Clock

namespace World

/-- The part of a world that two runs have in common. -/
def shared (w : World) : Shared := ⟨w.heap, w.input, w.out, w.err, w.clock⟩

/-- The bindings of the world, with other lists, streams and clock. -/
def withShared (w : World) (s : Shared) : World :=
  { w with heap := s.heap, input := s.input, out := s.out, err := s.err, clock := s.clock }

end World

/-- Worlds related by `R` cannot be told apart by what mentions only `names`, and stay related when
the same is done in both. -/
structure Twins (names : String → Prop) (R : World → World → Prop) : Prop where
  shared : ∀ {w w' : World}, R w w' → w'.shared = w.shared
  withShared : ∀ {w w' : World}, R w w' → ∀ s, R (w.withShared s) (w'.withShared s)
  get? : ∀ {w w' : World}, R w w' → ∀ name, names name → w'.env.get? name = w.env.get? name
  set : ∀ {w w' : World}, R w w' → ∀ name, names name → ∀ v,
    R { w with env := w.env.set name v } { w' with env := w'.env.set name v }

/-- Equal worlds are twins under any names. -/
theorem twins_eq (names : String → Prop) : Twins names Eq := by
  refine ⟨?_, ?_, ?_, ?_⟩ <;> rintro w _ rfl <;> intros <;> rfl

section

variable {names : String → Prop} {R : World → World → Prop} {w w' : World}

/-- What changes the shared part of both worlds in the same way keeps them related. -/
theorem Twins.change (hR : Twins names R) (h : R w w') (g : Shared → Shared) :
    R (w.withShared (g w.shared)) (w'.withShared (g w'.shared)) := by
  rw [hR.shared h]
  exact hR.withShared h _

/-- Twins have the same lists. -/
theorem Twins.heap (hR : Twins names R) (h : R w w') : w'.heap = w.heap :=
  congrArg Shared.heap (hR.shared h)

/-- Twins show a value as the same text. -/
theorem Twins.shown (hR : Twins names R) (h : R w w') (v : Value) : w'.shown v = w.shown v := by
  rw [World.shown, World.shown, hR.heap h]

/-- Twins know the same operators by the names that count. -/
theorem Twins.extension? (hR : Twins names R) (h : R w w') {name : String} (hname : names name) :
    w'.env.extension? name = w.env.extension? name := by
  rw [Env.extension?, Env.extension?, hR.get? h name hname]

end

/-! ### Computations in step -/

/-- Results in step: the same value, or the same fault at a token of `ts` and where `f` moves it. -/
inductive InStep (f : Token → Token) (ts : List Token) (R : World → World → Prop) :
    EStateM.Result RuntimeError World α → EStateM.Result RuntimeError World α → Prop where
  | ok {a : α} {w w' : World} : R w w' → InStep f ts R (.ok a w) (.ok a w')
  | error {t : Token} {fault : RuntimeFault} {w w' : World} : t ∈ ts → R w w' →
      InStep f ts R (.error (.atToken t fault) w) (.error (.atToken (f t) fault) w')

/-- The two computations have results in step in all related worlds. -/
def Lockstep (f : Token → Token) (ts : List Token) (R : World → World → Prop)
    (m m' : Eval α) : Prop :=
  ∀ w w', R w w' → InStep f ts R (m w) (m' w')

section Computations

variable {f : Token → Token} {ts us : List Token} {names : String → Prop}
  {R : World → World → Prop} {t : Token}

/-- More tokens may be pointed at. -/
theorem InStep.mono {result result' : EStateM.Result RuntimeError World α}
    (h : InStep f ts R result result') (hts : ts ⊆ us) : InStep f us R result result' := by
  cases h with
  | ok hw => exact .ok hw
  | error ht hw => exact .error (hts ht) hw

theorem Lockstep.mono {m m' : Eval α} (h : Lockstep f ts R m m') (hts : ts ⊆ us) :
    Lockstep f us R m m' :=
  fun w w' hw => (h w w' hw).mono hts

/-- One step after the other: if the first is in step, so are both. -/
theorem Lockstep.bind {m m' : Eval α} {k k' : α → Eval β} (hm : Lockstep f ts R m m')
    (hk : ∀ a, Lockstep f ts R (k a) (k' a)) : Lockstep f ts R (m >>= k) (m' >>= k') := by
  intro w w' hw
  have hstep := hm w w' hw
  rw [bind_apply, bind_apply]
  generalize m w = result, m' w' = result' at hstep ⊢
  cases hstep with
  | ok hw₁ => exact hk _ _ _ hw₁
  | error ht hw₁ => exact .error ht hw₁

theorem lockstep_pure (a : α) : Lockstep f ts R (pure a) (pure a) := fun _ _ hw => .ok hw

/-- Both fail, each at its own token. -/
theorem lockstep_failAt (ht : t ∈ ts) (fault : RuntimeFault) :
    Lockstep f ts R (failAt t fault : Eval α) (failAt (f t) fault) := fun _ _ hw => .error ht hw

/-- A stream that refuses one refuses the other. -/
theorem lockstep_stream (ht : t ∈ ts) (result : Except StreamFault α) :
    Lockstep f ts R (stream t result) (stream (f t) result) := by
  cases result with
  | ok a => exact lockstep_pure a
  | error fault => exact lockstep_failAt ht _

/-- Twins find the same in their lists. -/
theorem lockstep_inspect (hR : Twins names R) (ht : t ∈ ts) (op : Heap → Except OperatorFault α) :
    Lockstep f ts R (inspect t op) (inspect (f t) op) := by
  intro w w' hw
  rw [inspect_apply, inspect_apply, hR.heap hw]
  cases op w.heap with
  | ok a => exact .ok hw
  | error fault => exact .error ht hw

/-- Twins do the same to their lists. -/
theorem lockstep_operate (hR : Twins names R) (ht : t ∈ ts) (op : Operation Value) :
    Lockstep f ts R (operate t op) (operate (f t) op) := by
  intro w w' hw
  rw [operate_apply, operate_apply, hR.heap hw]
  cases op w.heap with
  | ok v h => exact .ok (hR.change hw fun s => { s with heap := h })
  | error fault h => exact .error ht (hR.change hw fun s => { s with heap := h })

/-- A literal is the same in both. -/
theorem lockstep_literalValue (hR : Twins names R) (value : Literal) :
    Lockstep f ts R (literalValue value) (literalValue value) := by
  intro w w' hw
  rw [literalValue_apply, literalValue_apply, hR.heap hw]
  exact .ok (hR.change hw fun s => { s with heap := (value.toValue w.heap).2 })

/-! ### Reading and writing -/

theorem lockstep_printLine (hR : Twins names R) (ht : t ∈ ts) (v : Value) :
    Lockstep f ts R (printLine t v) (printLine (f t) v) := by
  intro w w' hw
  have hout : w'.out = w.out := congrArg Shared.out (hR.shared hw)
  unfold printLine
  simp only [bind_apply, get_apply, hR.shown hw, hout]
  cases w.out.write (w.shown v ++ "\n") with
  | error fault => exact .error ht hw
  | ok out => exact lockstep_stream ht _ _ _ (hR.change hw fun s => { s with out := out })

theorem lockstep_reportLine (hR : Twins names R) (ht : t ∈ ts) (v : Value) :
    Lockstep f ts R (reportLine t v) (reportLine (f t) v) := by
  intro w w' hw
  have herr : w'.err = w.err := congrArg Shared.err (hR.shared hw)
  unfold reportLine
  simp only [bind_apply, get_apply, hR.shown hw, herr]
  cases w.err.write (w.shown v ++ "\n") with
  | error fault => exact .error ht hw
  | ok err => exact .ok (hR.change hw fun s => { s with err := err })

theorem lockstep_takeLine (hR : Twins names R) (ht : t ∈ ts) :
    Lockstep f ts R (takeLine t) (takeLine (f t)) := by
  intro w w' hw
  have hinput : w'.input = w.input := congrArg Shared.input (hR.shared hw)
  unfold takeLine
  simp only [bind_apply, get_apply, modify_apply, hinput]
  exact lockstep_stream ht _ _ _ (hR.change hw fun s => { s with input := w.input.skipLine })

theorem lockstep_readClock (hR : Twins names R) : Lockstep f ts R readClock readClock := by
  intro w w' hw
  have hclock : w'.clock = w.clock := congrArg Shared.clock (hR.shared hw)
  unfold readClock
  simp only [bind_apply, get_apply, modify_apply, pure_apply, hclock]
  exact .ok (hR.change hw fun s => { s with clock := w.clock.tick })

/-- Both take the same line, print the same text or read the same clock. -/
theorem lockstep_exchange (hR : Twins names R) (ht : t ∈ ts) (left right : Value) :
    Lockstep f ts R (exchange t left right) (exchange (f t) left right) := by
  unfold exchange
  split
  · exact (lockstep_takeLine hR ht).bind fun _ => lockstep_pure left
  · exact (lockstep_printLine hR ht left).bind fun _ => lockstep_pure left
  · exact (lockstep_reportLine hR ht left).bind fun _ => lockstep_pure left
  · exact (lockstep_readClock hR).bind fun n => lockstep_pure _
  · exact lockstep_pure left

/-! ### Operators -/

/-- An operator by token does the same in both. -/
theorem lockstep_operateBinary (hR : Twins names R) (ht : t ∈ ts) (op : BinaryOp)
    (left right : Value) :
    Lockstep f ts R (operateBinary t op left right) (operateBinary (f t) op left right) := by
  cases op with
  | arith op | compare op | logic op circuit =>
    rw [operateBinary, operateBinary]
    exact lockstep_inspect hR ht _
  | cons | intersect | range =>
    rw [operateBinary, operateBinary]
    exact lockstep_operate hR ht _
  | exchange => exact lockstep_exchange hR ht left right
  | assign => exact lockstep_pure right

/-- A unary operator by name is looked up under the same name in both. -/
theorem lockstep_applyUnary (hR : Twins names R) (hf : KeepsText f) (ht : t ∈ ts)
    (hname : names t.lexeme) (v : Value) :
    Lockstep f ts R (applyUnary t v) (applyUnary (f t) v) := by
  intro w w' hw
  rw [applyUnary_apply, applyUnary_apply, hf.lexeme, hR.extension? hw hname]
  rcases w.env.extension? t.lexeme with - | ⟨ident, name, action⟩
  · exact .error ht hw
  · cases action with
    | unary action => exact lockstep_operate hR ht _ w w' hw
    | binary action => exact .error ht hw

/-- A binary operator by name is looked up under the same name in both. -/
theorem lockstep_applyBinary (hR : Twins names R) (hf : KeepsText f) (ht : t ∈ ts)
    (hname : names t.lexeme) (left right : Value) :
    Lockstep f ts R (applyBinary t left right) (applyBinary (f t) left right) := by
  intro w w' hw
  rw [applyBinary_apply, applyBinary_apply, hf.lexeme, hR.extension? hw hname]
  rcases w.env.extension? t.lexeme with - | ⟨ident, name, action⟩
  · exact .error ht hw
  · cases action with
    | unary action => exact .error ht hw
    | binary action => exact lockstep_operate hR ht _ w w' hw

end Computations

/-! ### Trees -/

/-- Every name that the evaluation of the tree can look up or set is one of `names`. -/
def Expr.MentionsOnly (names : String → Prop) : Expr → Prop
  | literal _ _   => True
  | name t        => names t.lexeme
  | group _ e _   => e.MentionsOnly names
  | unary op e    => (UnaryOp.ofKind? op.kind = none → names op.lexeme) ∧ e.MentionsOnly names
  | binary l op r =>
    l.MentionsOnly names ∧ (BinaryOp.ofKind? op.kind = none → names op.lexeme) ∧
      r.MentionsOnly names
  | call c _ a    => c.MentionsOnly names ∧ a.MentionsOnly names

/-- Where all names count, a tree mentions no others. -/
theorem Expr.mentionsOnly_of_forall {names : String → Prop} (h : ∀ name, names name) (e : Expr) :
    e.MentionsOnly names := by
  induction e with
  | literal t value => trivial
  | name t => exact h _
  | group o e c ih => exact ih
  | unary op e ih => exact ⟨fun _ => h _, ih⟩
  | binary l op r ihl ihr => exact ⟨ihl, fun _ => h _, ihr⟩
  | call c d a ihc iha => exact ⟨ihc, iha⟩

section Trees

variable {f : Token → Token} {names : String → Prop} {R : World → World → Prop}

/-- **Two evaluations in step.**  A tree that mentions only `names`, and the tree with its tokens
moved, have results in step in worlds that are twins for `names`. -/
theorem evaluate_lockstep (hR : Twins names R) (hf : KeepsText f) (e : Expr)
    (he : e.MentionsOnly names) :
    Lockstep f e.tokens R (evaluate e) (evaluate (e.relocate f)) := by
  induction e using evaluation_induction with
  | literal t value => exact lockstep_literalValue hR value
  | name t =>
    intro w w' hw
    have hget := hR.get? hw t.lexeme he
    simp only [Expr.relocate, evaluate, bind_apply, get_apply, pure_apply, hf.lexeme, hget]
    exact .ok hw
  | group opener e closer ih =>
    exact (ih he).mono (by simp [Expr.tokens])
  | unary t e ih =>
    rw [Expr.relocate, evaluate, evaluate, hf.kind]
    refine ((ih he.2).mono (by simp [Expr.tokens])).bind fun v => ?_
    have ht : t ∈ (Expr.unary t e).tokens := by simp [Expr.tokens]
    cases hop : UnaryOp.ofKind? t.kind with
    | some op => exact lockstep_inspect hR ht _
    | none => exact lockstep_applyUnary hR hf ht (he.1 hop) v
  | assign target t right hop ih =>
    obtain ⟨htarget, -, hright⟩ := he
    rw [Expr.relocate, Expr.relocate, evaluate_assign hop, evaluate_assign (by rwa [hf.kind]),
      hf.lexeme]
    refine ((ih hright).mono (by simp [Expr.tokens])).bind fun v => ?_
    exact fun w w' hw => .ok (hR.set hw target.lexeme htarget v)
  | invalidTarget left t right hop hleft =>
    rw [Expr.relocate, evaluate_invalidTarget hop hleft,
      evaluate_invalidTarget (by rwa [hf.kind]) (Expr.relocate_ne_name hleft)]
    exact lockstep_failAt (by simp [Expr.tokens]) _
  | shortCircuit left t right op hop ihl ihr =>
    obtain ⟨hleft, -, hright⟩ := he
    have ht : t ∈ (Expr.binary left t right).tokens := by simp [Expr.tokens]
    rw [Expr.relocate, evaluate_shortCircuit hop, evaluate_shortCircuit (by rwa [hf.kind])]
    refine ((ihl hleft).mono (by simp [Expr.tokens])).bind fun l => ?_
    refine (lockstep_inspect hR ht _).bind fun proceeds => ?_
    cases proceeds with
    | true =>
      refine ((ihr hright).mono (by simp [Expr.tokens])).bind fun r => ?_
      exact lockstep_inspect hR ht _
    | false => exact lockstep_pure _
  | strict left t right op hop hs ihl ihr =>
    obtain ⟨hleft, -, hright⟩ := he
    rw [Expr.relocate, evaluate_strict hop hs, evaluate_strict (by rwa [hf.kind]) hs]
    refine ((ihl hleft).mono (by simp [Expr.tokens])).bind fun l => ?_
    refine ((ihr hright).mono (by simp [Expr.tokens])).bind fun r => ?_
    exact lockstep_operateBinary hR (by simp [Expr.tokens]) op l r
  | extension left t right hop ihl ihr =>
    obtain ⟨hleft, hname, hright⟩ := he
    rw [Expr.relocate, evaluate_extension hop, evaluate_extension (by rwa [hf.kind])]
    refine ((ihl hleft).mono (by simp [Expr.tokens])).bind fun l => ?_
    refine ((ihr hright).mono (by simp [Expr.tokens])).bind fun r => ?_
    exact lockstep_applyBinary hR hf (by simp [Expr.tokens]) (hname hop) l r
  | call callee t argument ihc iha =>
    have ht : t ∈ (Expr.call callee t argument).tokens := by simp [Expr.tokens]
    rw [Expr.relocate, evaluate_call, evaluate_call]
    refine ((ihc he.1).mono (by simp [Expr.tokens])).bind fun c => ?_
    cases c.unaryAction? with
    | some action =>
      refine ((iha he.2).mono (by simp [Expr.tokens])).bind fun v => ?_
      exact lockstep_operate hR ht _
    | none => exact lockstep_failAt ht _

/-- Trees one after the other are in step. -/
theorem interpret_lockstep (hR : Twins names R) (hf : KeepsText f) (es : List Expr)
    (hes : ∀ e ∈ es, e.MentionsOnly names) :
    Lockstep f (es.flatMap Expr.tokens) R (interpret es)
      (interpret (es.map (Expr.relocate f))) := by
  induction es with
  | nil => exact lockstep_pure ()
  | cons e es ih =>
    rw [List.map_cons, interpret, interpret, Expr.token_relocate]
    have htoken : e.token ∈ (e :: es).flatMap Expr.tokens := by simp [e.token_mem_tokens]
    have he := evaluate_lockstep hR hf e (hes e (.head _))
    refine (he.mono (by simp [List.flatMap_cons])).bind fun v => ?_
    refine (lockstep_printLine hR htoken v).bind fun _ => ?_
    exact (ih fun x hx => hes x (.tail _ hx)).mono (by simp [List.flatMap_cons])

/-- The same trees in two worlds. -/
theorem interpret_lockstep_self (hR : Twins names R) (es : List Expr)
    (hes : ∀ e ∈ es, e.MentionsOnly names) :
    Lockstep id (es.flatMap Expr.tokens) R (interpret es) (interpret es) := by
  have hstep := interpret_lockstep hR keepsText_id es hes
  rwa [Expr.relocate_id, List.map_id] at hstep

end Trees

end ListCalc
