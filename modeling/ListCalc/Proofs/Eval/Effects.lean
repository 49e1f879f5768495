import ListCalc.Proofs.Eval.Computation

/-!
# Proofs — what an evaluation touches

A tree names what its evaluation can change beside the lists: the targets of its assignments
(`Expr.targets`), and the streams if it has a node `@` (`Expr.exchanges`).
`Touched names talks w w'` says what is left of a world `w` when no other bindings than those of
`names` are set, and the streams are used only if `talks`.

* Every other name keeps its binding, and no name loses one.
* What was written stays written (`Output.Extends`).
* Of the input, whole lines are gone (`LinesTaken`).

`evaluate_touched` is the run lemma, by induction on the tree: the relation is reflexive and
transitive, and every step keeps to it.  It holds of failing evaluations as well, for it speaks
about the world that an evaluation leaves.
-/

namespace ListCalc

/-! ### What a tree names -/

namespace Expr

/-- The name that `left op …` assigns to, if it does. -/
def assigned? : Expr → Token → Option String
  | name t, op => if BinaryOp.ofKind? op.kind = some .assign then some t.lexeme else none
  | _,      _  => none

/-- The targets of the assignments in the tree. -/
def targets : Expr → List String
  | literal _ _   => []
  | name _        => []
  | group _ e _   => e.targets
  | unary _ e     => e.targets
  | binary l op r => (l.assigned? op).toList ++ l.targets ++ r.targets
  | call f _ a    => f.targets ++ a.targets

/-- Whether the tree has a node `@`. -/
def exchanges : Expr → Bool
  | literal _ _   => false
  | name _        => false
  | group _ e _   => e.exchanges
  | unary _ e     => e.exchanges
  | binary l op r => BinaryOp.ofKind? op.kind == some .exchange || l.exchanges || r.exchanges
  | call f _ a    => f.exchanges || a.exchanges

/-- The tree assigns to `names` only, and has a node `@` only if `talks`. -/
structure NamesOnly (names : String → Prop) (talks : Bool) (e : Expr) : Prop where
  targets : ∀ name ∈ e.targets, names name
  exchanges : e.exchanges = true → talks = true

section

variable {names : String → Prop} {talks : Bool} {l r : Expr} {op : Token}

theorem NamesOnly.left (h : (binary l op r).NamesOnly names talks) : l.NamesOnly names talks :=
  ⟨fun name hname => h.targets name (by simp [Expr.targets, hname]),
    fun hl => h.exchanges (by simp [Expr.exchanges, hl])⟩

theorem NamesOnly.right (h : (binary l op r).NamesOnly names talks) : r.NamesOnly names talks :=
  ⟨fun name hname => h.targets name (by simp [Expr.targets, hname]),
    fun hr => h.exchanges (by simp [Expr.exchanges, hr])⟩

/-- The target of an assignment is among the names. -/
theorem NamesOnly.target {t : Token} (h : (binary (.name t) op r).NamesOnly names talks)
    (hop : BinaryOp.ofKind? op.kind = some .assign) : names t.lexeme :=
  h.targets t.lexeme (by simp [Expr.targets, assigned?, hop])

/-- Only a tree that talks reads, writes or asks the clock. -/
theorem NamesOnly.exchange (h : (binary l op r).NamesOnly names talks)
    (hop : BinaryOp.ofKind? op.kind = some .exchange) : talks = true :=
  h.exchanges (by simp [Expr.exchanges, hop])

theorem NamesOnly.callee (h : (call l op r).NamesOnly names talks) : l.NamesOnly names talks :=
  ⟨fun name hname => h.targets name (by simp [Expr.targets, hname]),
    fun hl => h.exchanges (by simp [Expr.exchanges, hl])⟩

theorem NamesOnly.argument (h : (call l op r).NamesOnly names talks) : r.NamesOnly names talks :=
  ⟨fun name hname => h.targets name (by simp [Expr.targets, hname]),
    fun hr => h.exchanges (by simp [Expr.exchanges, hr])⟩

end

end Expr

/-! ### Streams before and after -/

/-- What has been written to the output stays, and more may come after it. -/
def Output.Extends (o o' : Output) : Prop := ∃ s, o' = { o with text := o.text ++ s }

namespace Output.Extends

variable {o o₁ o₂ : Output}

theorem refl (o : Output) : o.Extends o := ⟨"", by simp⟩

theorem trans (h : o.Extends o₁) (h' : o₁.Extends o₂) : o.Extends o₂ := by
  obtain ⟨s, rfl⟩ := h
  obtain ⟨s', rfl⟩ := h'
  exact ⟨s ++ s', by simp [String.append_assoc]⟩

/-- What is written comes after what was there. -/
theorem write {s : String} (h : o.write s = .ok o₁) : o.Extends o₁ := by
  unfold Output.write at h
  split at h
  · cases h
  · cases h
    exact ⟨s, rfl⟩

end Output.Extends

/-- What is left of the bytes of an input when lines have been taken from it.  A line goes up to and
including its newline; the last one may go up to the end of the input. -/
inductive LinesTaken : List UInt8 → List UInt8 → Prop where
  | none {bytes : List UInt8} : LinesTaken bytes bytes
  | line {body bytes rest : List UInt8} :
      10 ∉ body → LinesTaken bytes rest → LinesTaken (body ++ 10 :: bytes) rest
  | last {body : List UInt8} : 10 ∉ body → LinesTaken body []

namespace LinesTaken

variable {bytes rest rest' : List UInt8}

/-- The lines are taken from the front. -/
theorem isSuffix (h : LinesTaken bytes rest) : rest <:+ bytes := by
  induction h with
  | none => exact List.suffix_refl _
  | @line body bytes rest _ _ ih =>
    exact ih.trans ((List.suffix_cons 10 bytes).trans (List.suffix_append body _))
  | last => exact List.nil_suffix

theorem trans (h : LinesTaken bytes rest) (h' : LinesTaken rest rest') :
    LinesTaken bytes rest' := by
  induction h with
  | none => exact h'
  | line hbody _ ih => exact .line hbody (ih h')
  | last hbody =>
    rw [List.suffix_nil.mp h'.isSuffix]
    exact .last hbody

/-- A line ends behind its newline. -/
theorem skipLine_of_newline {i : Input} {body : List UInt8} (hbody : 10 ∉ body)
    (h : i.rest = body ++ 10 :: bytes) : i.skipLine.rest = bytes := by
  have htake : (body ++ 10 :: bytes).takeWhile (· ≠ 10) = body := by
    rw [List.takeWhile_append_of_pos (by simpa using fun b hb => ne_of_mem_of_not_mem hb hbody)]
    simp
  have hline : body ++ 10 :: bytes = (body ++ [10]) ++ bytes := by simp
  have hlength : body.length + 1 = (body ++ [(10 : UInt8)]).length := by simp
  simp only [Input.skipLine, Input.lineBytes, h, htake]
  rw [hline, hlength, List.take_left, List.drop_left]

/-- The last line may have no newline. -/
theorem skipLine_of_last {i : Input} (h : 10 ∉ i.rest) : i.skipLine.rest = [] := by
  have hall : ∀ b ∈ i.rest, decide (b ≠ 10) = true := by
    simpa using fun b hb => ne_of_mem_of_not_mem hb h
  have htake := @List.takeWhile_append_of_pos _ _ i.rest [] hall
  rw [List.append_nil, List.takeWhile_nil, List.append_nil] at htake
  simp only [Input.skipLine, Input.lineBytes, htake]
  simp

/-- The input after its next line has lost that line. -/
theorem skipLine (i : Input) : LinesTaken i.rest i.skipLine.rest := by
  by_cases h : 10 ∈ i.rest
  · obtain ⟨body, bytes, hrest, hbody⟩ := List.eq_append_cons_of_mem h
    rw [skipLine_of_newline hbody hrest, hrest]
    exact .line hbody .none
  · rw [skipLine_of_last h]
    exact .last h

end LinesTaken

/-! ### Worlds before and after -/

/-- What is left of the world `w` in `w'`, if bindings are set only under `names` and the streams
are used only if `talks`. -/
structure Touched (names : String → Prop) (talks : Bool) (w w' : World) : Prop where
  others : ∀ name, ¬ names name → w'.env.get? name = w.env.get? name
  bound : ∀ name, w.env.contains name = true → w'.env.contains name = true
  out : w.out.Extends w'.out
  err : w.err.Extends w'.err
  input : w'.input.rest <:+ w.input.rest ∧ LinesTaken w.input.rest w'.input.rest
  silent : talks = false → w'.input = w.input ∧ w'.out = w.out ∧ w'.err = w.err

namespace Touched

variable {names : String → Prop} {talks : Bool} {w w₁ w₂ : World}

/-- What changes neither the bindings nor the streams touches nothing. -/
theorem of_eq (henv : w₁.env = w.env) (hinput : w₁.input = w.input) (hout : w₁.out = w.out)
    (herr : w₁.err = w.err) : Touched names talks w w₁ := by
  refine ⟨fun name _ => ?_, fun name hname => ?_, ?_, ?_, ?_, fun _ => ⟨hinput, hout, herr⟩⟩
  · rw [henv]
  · rwa [henv]
  · exact hout ▸ .refl _
  · exact herr ▸ .refl _
  · rw [hinput]
    exact ⟨List.suffix_refl _, .none⟩

theorem refl (w : World) : Touched names talks w w := of_eq rfl rfl rfl rfl

theorem trans (h : Touched names talks w w₁) (h' : Touched names talks w₁ w₂) :
    Touched names talks w w₂ where
  others name hname := (h'.others name hname).trans (h.others name hname)
  bound name hname := h'.bound name (h.bound name hname)
  out := h.out.trans h'.out
  err := h.err.trans h'.err
  input := ⟨h'.input.1.trans h.input.1, h.input.2.trans h'.input.2⟩
  silent ht := by
    obtain ⟨hinput, hout, herr⟩ := h.silent ht
    obtain ⟨hinput', hout', herr'⟩ := h'.silent ht
    exact ⟨hinput'.trans hinput, hout'.trans hout, herr'.trans herr⟩

/-- Lists are not among what is told apart. -/
theorem setHeap (w : World) (h : Heap) : Touched names talks w { w with heap := h } :=
  of_eq rfl rfl rfl rfl

theorem tick (w : World) : Touched names talks w { w with clock := w.clock.tick } :=
  of_eq rfl rfl rfl rfl

/-- A name that may be bound is bound. -/
theorem setName {name : String} (hname : names name) (w : World) (v : Value) :
    Touched names talks w { w with env := w.env.set name v } := by
  refine ⟨fun other hother => ?_, fun other hbound => ?_, .refl _, .refl _,
    ⟨List.suffix_refl _, .none⟩, fun _ => ⟨rfl, rfl, rfl⟩⟩
  · have hne : other ≠ name := by
      rintro rfl
      exact hother hname
    rw [Env.get?_set, if_neg hne]
  · rw [Env.contains, Env.get?_set]
    split
    · rfl
    · exact hbound

/-- A tree that talks may add to the output. -/
theorem setOut {out : Output} (h : w.out.Extends out) :
    Touched names true w { w with out := out } :=
  ⟨fun _ _ => rfl, fun _ h => h, h, .refl _, ⟨List.suffix_refl _, .none⟩, nofun⟩

/-- A tree that talks may add to the error output. -/
theorem setErr {err : Output} (h : w.err.Extends err) :
    Touched names true w { w with err := err } :=
  ⟨fun _ _ => rfl, fun _ h => h, .refl _, h, ⟨List.suffix_refl _, .none⟩, nofun⟩

theorem skipLine (w : World) : Touched names true w { w with input := w.input.skipLine } := by
  have htaken := LinesTaken.skipLine w.input
  exact ⟨fun _ _ => rfl, fun _ h => h, .refl _, .refl _, ⟨htaken.isSuffix, htaken⟩, nofun⟩

end Touched

/-! ### Computations -/

/-- The computation keeps to the names, and to the streams if it may. -/
def Touches {α : Type} (names : String → Prop) (talks : Bool) (m : Eval α) : Prop :=
  ∀ w, Touched names talks w (after m w)

section Computations

variable {α β : Type} {names : String → Prop} {talks : Bool} {t : Token}

/-- One step after the other touches what both do. -/
theorem Touches.bind {m : Eval α} {k : α → Eval β} (hm : Touches names talks m)
    (hk : ∀ a, Touches names talks (k a)) : Touches names talks (m >>= k) := by
  intro w
  refine after_bind (hm w) fun a w' _ hw' => ?_
  exact hw'.trans (hk a w')

theorem touches_pure (a : α) : Touches names talks (pure a) := Touched.refl

theorem touches_failAt (t : Token) (fault : RuntimeFault) :
    Touches names talks (failAt t fault : Eval α) := Touched.refl

/-- A look at the heap touches nothing. -/
theorem touches_inspect (t : Token) (op : Heap → Except OperatorFault α) :
    Touches names talks (inspect t op) := by
  intro w
  rw [after, inspect_apply]
  cases op w.heap <;> exact .refl w

/-- An operation of the heap touches nothing else. -/
theorem touches_operate (t : Token) (op : Operation Value) :
    Touches names talks (operate t op) := by
  intro w
  rw [after_operate]
  exact .setHeap w _

theorem touches_literalValue (value : Literal) : Touches names talks (literalValue value) :=
  fun w => .setHeap w _

/-- A line is written as a whole before the flush can fail, and not at all if the write fails. -/
theorem touches_printLine (t : Token) (v : Value) : Touches names true (printLine t v) := by
  intro w
  cases hout : w.out.write (w.shown v ++ "\n") with
  | error fault =>
    have hafter : after (printLine t v) w = w := by simp [after, printLine, stream_apply, hout]
    rw [hafter]
    exact .refl w
  | ok out =>
    have hafter : after (printLine t v) w = { w with out := out } := by
      cases hflush : out.flush <;> simp [after, printLine, stream_apply, hout, hflush]
    rw [hafter]
    exact .setOut (.write hout)

theorem touches_reportLine (t : Token) (v : Value) : Touches names true (reportLine t v) := by
  intro w
  cases herr : w.err.write (w.shown v ++ "\n") with
  | error fault =>
    have hafter : after (reportLine t v) w = w := by simp [after, reportLine, stream_apply, herr]
    rw [hafter]
    exact .refl w
  | ok err =>
    have hafter : after (reportLine t v) w = { w with err := err } := by
      simp [after, reportLine, stream_apply, herr]
    rw [hafter]
    exact .setErr (.write herr)

/-- A line is gone also if it is no text. -/
theorem touches_takeLine (t : Token) : Touches names true (takeLine t) := by
  intro w
  have hafter : after (takeLine t) w = { w with input := w.input.skipLine } := by
    cases hline : w.input.line <;> simp [after, takeLine, stream_apply, hline]
  rw [hafter]
  exact .skipLine w

/-- Reading, writing and the clock touch the streams, and no name. -/
theorem touches_exchange (t : Token) (left right : Value) :
    Touches names true (exchange t left right) := by
  unfold exchange
  split
  · exact (touches_takeLine t).bind fun _ => touches_pure left
  · exact (touches_printLine t left).bind fun _ => touches_pure left
  · exact (touches_reportLine t left).bind fun _ => touches_pure left
  · have hclock : Touches names true readClock := fun w => .tick w
    exact hclock.bind fun n => touches_pure _
  · exact touches_pure left

/-- A unary operator by name touches neither names nor streams, the host's included. -/
theorem touches_applyUnary (t : Token) (v : Value) : Touches names talks (applyUnary t v) := by
  intro w
  rw [after, applyUnary_apply]
  rcases w.env.extension? t.lexeme with - | ⟨ident, name, action⟩
  · exact .refl w
  · cases action with
    | unary action => exact touches_operate t _ w
    | binary action => exact .refl w

/-- A binary operator by name touches neither names nor streams, the host's included. -/
theorem touches_applyBinary (t : Token) (left right : Value) :
    Touches names talks (applyBinary t left right) := by
  intro w
  rw [after, applyBinary_apply]
  rcases w.env.extension? t.lexeme with - | ⟨ident, name, action⟩
  · exact .refl w
  · cases action with
    | unary action => exact .refl w
    | binary action => exact touches_operate t _ w

/-- Of the operators by token, only one talks. -/
theorem touches_operateBinary (t : Token) (op : BinaryOp) (left right : Value)
    (htalks : op = .exchange → talks = true) :
    Touches names talks (operateBinary t op left right) := by
  cases op with
  | arith op | compare op | logic op circuit =>
    rw [operateBinary]
    exact touches_inspect t _
  | cons | intersect | range =>
    rw [operateBinary]
    exact touches_operate t _
  | exchange =>
    rw [htalks rfl, operateBinary]
    exact touches_exchange t left right
  | assign => exact touches_pure right

/-! ### Trees -/

/-- An evaluation sets only what the tree assigns to, and uses the streams only if the tree does. -/
theorem evaluate_touches (e : Expr) (he : e.NamesOnly names talks) :
    Touches names talks (evaluate e) := by
  induction e using evaluation_induction with
  | literal t value => exact touches_literalValue value
  | name t => exact Touched.refl
  | group opener e closer ih => exact ih ⟨he.targets, he.exchanges⟩
  | unary t e ih =>
    rw [evaluate]
    refine (ih ⟨he.targets, he.exchanges⟩).bind fun v => ?_
    cases UnaryOp.ofKind? t.kind with
    | some op => exact touches_inspect t _
    | none => exact touches_applyUnary t v
  | assign target t right hop ih =>
    rw [evaluate_assign hop]
    refine (ih he.right).bind fun v => ?_
    exact fun w => .setName (he.target hop) w v
  | invalidTarget left t right hop hleft =>
    rw [evaluate_invalidTarget hop hleft]
    exact touches_failAt t _
  | shortCircuit left t right op hop ihl ihr =>
    rw [evaluate_shortCircuit hop]
    refine (ihl he.left).bind fun l => (touches_inspect t _).bind fun proceeds => ?_
    cases proceeds with
    | true => exact (ihr he.right).bind fun r => touches_inspect t _
    | false => exact touches_pure _
  | strict left t right op hop hs ihl ihr =>
    rw [evaluate_strict hop hs]
    refine (ihl he.left).bind fun l => (ihr he.right).bind fun r => ?_
    exact touches_operateBinary t op l r fun hexchange => he.exchange (hexchange ▸ hop)
  | extension left t right hop ihl ihr =>
    rw [evaluate_extension hop]
    refine (ihl he.left).bind fun l => (ihr he.right).bind fun r => ?_
    exact touches_applyBinary t l r
  | call callee t argument ihc iha =>
    rw [evaluate_call]
    refine (ihc he.callee).bind fun c => ?_
    cases c.unaryAction? with
    | some action => exact (iha he.argument).bind fun v => touches_operate t _
    | none => exact touches_failAt t _

end Computations

/-- A name that a tree does not assign to is bound after its evaluation as it was before. -/
theorem get?_after_evaluate {e : Expr} {name : String} (hname : name ∉ e.targets) (w : World) :
    (after (evaluate e) w).env.get? name = w.env.get? name :=
  (evaluate_touches e ⟨fun _ h => h, fun h => h⟩ w).others name hname

/-- An assignment to a name fails only if its right side does, and leaves the world as that left
it. -/
theorem evaluate_assign_error {target op : Token} {right : Expr} {w w' : World}
    {error : RuntimeError} (hop : BinaryOp.ofKind? op.kind = some .assign)
    (h : evaluate (.binary (.name target) op right) w = .error error w') :
    evaluate right w = .error error w' := by
  rw [evaluate_assign hop, bind_apply] at h
  cases hr : evaluate right w with
  | ok v w₁ =>
    rw [hr] at h
    cases h
  | error e w₁ =>
    rw [hr] at h
    cases h
    rfl

/-- **Evaluation touches only what its tree names**, whether it succeeds or fails; and an assignment
that fails leaves its target bound as its right side left it. -/
theorem evaluate_touches_named (e : Expr) (w : World) :
    Touched (· ∈ e.targets) e.exchanges w (after (evaluate e) w) ∧
    ∀ target op right error w', e = .binary (.name target) op right →
      BinaryOp.ofKind? op.kind = some .assign → evaluate e w = .error error w' →
      evaluate right w = .error error w' ∧
        w'.env.get? target.lexeme = (after (evaluate right) w).env.get? target.lexeme := by
  refine ⟨evaluate_touches e ⟨fun _ h => h, fun h => h⟩ w, ?_⟩
  rintro target op right error w' rfl hop h
  have hright := evaluate_assign_error hop h
  exact ⟨hright, by rw [after_of_error hright]⟩

end ListCalc
