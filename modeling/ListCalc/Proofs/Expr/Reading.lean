import ListCalc.Proofs.Expr.Grammar

/-!
# Proofs — the machine reads every phrase

**Completeness** of the parser: run over the tokens of a phrase, the machine comes to hold that
phrase (`Phrase.reads`), and so a forest is what it returns for the tokens of the forest
(`run_forest`).

When the last token of a phrase has been taken, its last part is still open: the frames of the
phrase lie on the stack until a later token tells that nothing more belongs to them.  `HasRead`
says what the open frames come to under each of the ways in which they can be finished.  The proof
goes by induction on the phrase, with one lemma for each kind of token taken (`run_name`,
`run_binaryOp`, …).
-/

namespace ListCalc

open ListCalc.Expr (State)

/-! ### Taking one token -/

section Steps

variable {arities : Arities} {stop t : Token} {stack stack' : List Frame} {done : List Expr}
  {ts : List Token} {e e' : Expr}

/-- A step that succeeds is taken. -/
theorem run_cons_of_step {s s' : State}
    (h : s.step arities t (ts.head?.getD stop).kind = .ok s') :
    State.run arities stop s (t :: ts) = State.run arities stop s' ts := by
  rw [State.run, h]
  rfl

theorem Frame.depth_cons_of_nests {f : Frame} (h : f.nests = true) :
    Frame.depth (f :: stack) = Frame.depth stack + 1 :=
  List.countP_cons_of_pos h

theorem Frame.depth_cons_of_not_nests {f : Frame} (h : f.nests = false) :
    Frame.depth (f :: stack) = Frame.depth stack :=
  List.countP_cons_of_neg (by simp [h])

/-- A frame that nests can be entered below the limit. -/
theorem Frame.enter_of_lt {frame : Frame} (h : Frame.depth stack < maxNesting) :
    Frame.enter frame t stack = .ok (frame :: stack) :=
  if_pos h

/-- A name is an operand, unless it is a prefix operator here. -/
theorem run_name (ht : t.kind = .identifier)
    (hnext : arities t.lexeme = some .unary →
      startsOperand (ts.head?.getD stop).kind = false) :
    State.run arities stop ⟨stack, none, done⟩ (t :: ts) =
      State.run arities stop ⟨stack, some (.name t), done⟩ ts := by
  have hp : State.isPrefixOp arities t (ts.head?.getD stop).kind = false := by
    simpa [State.isPrefixOp, ht] using hnext
  refine run_cons_of_step ?_
  simp [State.step, State.takeOperand, hp, ht]

/-- A literal is an operand. -/
theorem run_literal {value : Literal} (ht : t.literal? = some value) :
    State.run arities stop ⟨stack, none, done⟩ (t :: ts) =
      State.run arities stop ⟨stack, some (.literal t value), done⟩ ts := by
  refine run_cons_of_step ?_
  rcases Token.kind_of_literal? ht with h | h | h | h | h <;>
    simp [State.step, State.takeOperand, State.isPrefixOp, h, ht]

/-- An opening bracket begins a group. -/
theorem run_opener {bracket : Bracket} (ht : Bracket.ofOpener? t.kind = some bracket)
    (hd : Frame.depth stack < maxNesting) :
    State.run arities stop ⟨stack, none, done⟩ (t :: ts) =
      State.run arities stop ⟨.group t bracket :: stack, none, done⟩ ts := by
  have hstep (next : TokenKind) : State.step arities ⟨stack, none, done⟩ t next =
      (do return ⟨← Frame.enter (.group t bracket) t stack, none, done⟩) := by
    rcases Bracket.kind_of_ofOpener? ht with h | h | h <;> rw [h] at ht <;>
      simp [State.step, State.takeOperand, State.isPrefixOp, h, ht]
  refine run_cons_of_step ?_
  rw [hstep, Frame.enter_of_lt hd]
  rfl

/-- A prefix operator waits for its operand. -/
theorem run_prefixOp (ht : PrefixToken arities t)
    (hnext : startsOperand (ts.head?.getD stop).kind = true)
    (hd : Frame.depth stack < maxNesting) :
    State.run arities stop ⟨stack, none, done⟩ (t :: ts) =
      State.run arities stop ⟨.prefixOp t :: stack, none, done⟩ ts := by
  have hp : State.isPrefixOp arities t (ts.head?.getD stop).kind = true := by
    rcases ht with h | h | ⟨h, ha⟩
    · simp [State.isPrefixOp, h]
    · simp [State.isPrefixOp, h]
    · simp [State.isPrefixOp, h, ha, hnext]
  refine run_cons_of_step ?_
  simp only [State.step, State.takeOperand, hp, if_true, Frame.enter_of_lt hd]
  rfl

/-- An operator token after an operand is taken by `takeBinaryOp`. -/
theorem step_binaryOp (ht : InfixToken arities t) (next : TokenKind) :
    State.step arities ⟨stack', some e', done⟩ t next =
      State.takeBinaryOp stack' e' done t := by
  simp [State.step, ht.ne_dollar, isBinaryOp_iff.mpr ht]

/-- A binary operator that does not assign takes what stands before it as its left side. -/
theorem takeBinaryOp_of_joins (hc : Frame.closeOperand e' stack' = (e, stack))
    (ha : e.assignsName t = false) :
    State.takeBinaryOp stack' e' done t = .ok ⟨.binary e t :: stack, none, done⟩ := by
  rw [State.takeBinaryOp, hc]
  dsimp only
  split
  · rename_i ho
    simp [Expr.assignsName, ho] at ha
  · rfl

/-- An assignment to a name waits for its right side, one level deeper. -/
theorem takeBinaryOp_of_assigns {target : Token} (ht : BinaryOp.ofKind? t.kind = some .assign)
    (hc : Frame.closeOperand e' stack' = (.name target, stack)) :
    State.takeBinaryOp stack' e' done t =
      (do return ⟨← Frame.enter (.assign target t) t stack, none, done⟩) := by
  simp only [State.takeBinaryOp, hc, ht]

/-- A run goes on behind a binary operator. -/
theorem run_binaryOp (ht : InfixToken arities t) (hc : Frame.closeOperand e' stack' = (e, stack))
    (ha : e.assignsName t = false) :
    State.run arities stop ⟨stack', some e', done⟩ (t :: ts) =
      State.run arities stop ⟨.binary e t :: stack, none, done⟩ ts :=
  run_cons_of_step ((step_binaryOp ht _).trans (takeBinaryOp_of_joins hc ha))

/-- A run goes on behind an assignment to a name. -/
theorem run_assign {target : Token} (ht : BinaryOp.ofKind? t.kind = some .assign)
    (hc : Frame.closeOperand e' stack' = (.name target, stack))
    (hd : Frame.depth stack < maxNesting) :
    State.run arities stop ⟨stack', some e', done⟩ (t :: ts) =
      State.run arities stop ⟨.assign target t :: stack, none, done⟩ ts := by
  have hi : InfixToken arities t := .inl (by rw [ht]; rfl)
  refine run_cons_of_step ((step_binaryOp hi _).trans ?_)
  rw [takeBinaryOp_of_assigns ht hc, Frame.enter_of_lt hd]
  rfl

/-- A run goes on behind `$`, with what it applies finished. -/
theorem run_dollar (ht : t.kind = .dollar)
    (hc : (if Frame.chains stack' then (e', stack') else Frame.closeArgument e' stack') =
      (e, stack)) :
    State.run arities stop ⟨stack', some e', done⟩ (t :: ts) =
      State.run arities stop ⟨.argument e t :: stack, none, done⟩ ts := by
  refine run_cons_of_step ?_
  simp [State.step, ht, State.takeDollar, hc]

/-- A closing bracket finishes everything in its group. -/
theorem run_closer {opener : Token} {bracket : Bracket} (ht : t.kind = bracket.closer)
    (hc : Frame.closeAll e' stack' = (e, .group opener bracket :: stack)) :
    State.run arities stop ⟨stack', some e', done⟩ (t :: ts) =
      State.run arities stop ⟨stack, some (.group opener e t), done⟩ ts := by
  refine run_cons_of_step ?_
  cases bracket <;>
    simp [State.step, State.isBinaryOp, BinaryOp.ofKind?, State.takeOther, hc, ht, Bracket.closer]

/-- A token that begins an operand, after a finished tree, begins the next one. -/
theorem run_next (ht : startsOperand t.kind = true) (hi : ¬ InfixToken arities t)
    (hc : Frame.closeAll e' stack' = (e, [])) :
    State.run arities stop ⟨stack', some e', done⟩ (t :: ts) =
      State.run arities stop ⟨[], none, e :: done⟩ (t :: ts) := by
  have hd : t.kind ≠ .dollar := by
    intro h
    rw [h] at ht
    cases ht
  simp [State.run, State.step, hd, isBinaryOp_eq_false hi, State.takeOther, hc]

end Steps

/-! ### What the open frames of a phrase come to -/

namespace Frame

/-- A new series may begin on this stack: no operator waits on its top for an operand. -/
def IsBase : List Frame → Prop
  | prefixOp _ :: _ => False
  | binary .. :: _  => False
  | _               => True

theorem IsBase.closePrefixes {fs : List Frame} (h : IsBase fs) (e : Expr) :
    closePrefixes e fs = (e, fs) := by
  match fs, h with
  | [], _ | group .. :: _, _ | assign .. :: _, _ | argument .. :: _, _ => rfl

theorem IsBase.closeOperand_of_eq {fs fs' : List Frame} {e e' : Expr} (h : IsBase fs)
    (hc : Frame.closePrefixes e' fs' = (e, fs)) : closeOperand e' fs' = (e, fs) := by
  rw [closeOperand, hc]
  match fs, h with
  | [], _ | group .. :: _, _ | assign .. :: _, _ | argument .. :: _, _ => rfl

/-- To finish the frames of `stack'` around `e'` is to finish those of `stack` around `e`,
whatever is finished: all up to the group, or only an enclosing argument. -/
structure Finishes (chain : Bool) (stack : List Frame) (e : Expr) (stack' : List Frame)
    (e' : Expr) : Prop where
  all : closeAll e' stack' = closeAll e stack
  argument : chain = false →
    chains stack' = false ∧ closeArgument e' stack' = closeArgument e stack

end Frame

/-- The stacks on which a phrase can begin. -/
def Category.Fits : Category → List Frame → Prop
  | expression chain,  stack => Frame.IsBase stack ∧ Frame.chains stack = chain
  | series chain,      stack => Frame.IsBase stack ∧ Frame.chains stack = chain
  | operand chain,     stack => Frame.chains stack = chain
  | application chain, stack => Frame.chains stack = chain
  | primary,           _     => True

/-- The machine with `stack'` and `e'` has read the phrase `e` on `stack`, and sees `next`.  Before
an infix operator, no argument is open, so what the operator closes is known. -/
def HasRead (arities : Arities) (next : Token) :
    Category → List Frame → Expr → List Frame → Expr → Prop
  | .expression chain, stack, e, stack', e' => Frame.Finishes chain stack e stack' e'
  | .series chain, stack, e, stack', e' =>
    Frame.Finishes chain stack e stack' e' ∧
      (InfixToken arities next → Frame.closeOperand e' stack' = (e, stack))
  | .operand chain, stack, e, stack', e' =>
    Frame.Finishes chain stack e stack' e' ∧
      (InfixToken arities next →
        Frame.closePrefixes e' stack' = Frame.closePrefixes e stack)
  | .application chain, stack, e, stack', e' =>
    Frame.Finishes chain stack e stack' e' ∧
      (InfixToken arities next → stack' = stack ∧ e' = e) ∧
      (chain = true →
        (if Frame.chains stack' then (e', stack') else Frame.closeArgument e' stack') =
          (e, stack))
  | .primary, stack, e, stack', e' => stack' = stack ∧ e' = e

/-- Run over the tokens of `e`, whatever comes after them, the machine reads `e` as a `k`. -/
def Reads (arities : Arities) (stop : Token) (k : Category) (e : Expr) : Prop :=
  ∀ (stack : List Frame) (done : List Expr) (rest : List Token), k.Fits stack →
    Frame.depth stack + e.nesting ≤ maxNesting → e.Longest arities (rest.head?.getD stop) →
    ∃ stack' e',
      State.run arities stop ⟨stack, none, done⟩ (e.tokens ++ rest) =
        State.run arities stop ⟨stack', some e', done⟩ rest ∧
      HasRead arities (rest.head?.getD stop) k stack e stack' e'

section Productions

variable {arities : Arities} {stop : Token} {chain : Bool} {e : Expr}

/-- What is read as a primary is read as an application. -/
theorem Reads.primary (h : Reads arities stop .primary e) :
    Reads arities stop (.application chain) e := by
  intro stack done rest hf hn hl
  obtain ⟨stack', e', hrun, rfl, rfl⟩ := h stack done rest trivial hn hl
  refine ⟨stack', e', hrun, ⟨rfl, fun hc => ⟨hf.trans hc, rfl⟩⟩, fun _ => ⟨rfl, rfl⟩, ?_⟩
  intro hc
  rw [show Frame.chains stack' = true from hf.trans hc, if_pos rfl]

/-- What is read as an application is read as an operand. -/
theorem Reads.application (h : Reads arities stop (.application chain) e) :
    Reads arities stop (.operand chain) e := by
  intro stack done rest hf hn hl
  obtain ⟨stack', e', hrun, hfin, hjoin, -⟩ := h stack done rest hf hn hl
  refine ⟨stack', e', hrun, hfin, fun hi => ?_⟩
  obtain ⟨rfl, rfl⟩ := hjoin hi
  rfl

/-- What is read as an operand is read as a series. -/
theorem Reads.operand (h : Reads arities stop (.operand chain) e) :
    Reads arities stop (.series chain) e := by
  intro stack done rest hf hn hl
  obtain ⟨stack', e', hrun, hfin, hjoin⟩ := h stack done rest hf.2 hn hl
  refine ⟨stack', e', hrun, hfin, fun hi => ?_⟩
  exact hf.1.closeOperand_of_eq ((hjoin hi).trans (hf.1.closePrefixes e))

/-- What is read as a series is read as an expression. -/
theorem Reads.series (h : Reads arities stop (.series chain) e) :
    Reads arities stop (.expression chain) e := by
  intro stack done rest hf hn hl
  obtain ⟨stack', e', hrun, hfin, -⟩ := h stack done rest hf hn hl
  exact ⟨stack', e', hrun, hfin⟩

theorem Reads.name {t : Token} (ht : t.kind = .identifier) :
    Reads arities stop .primary (.name t) := by
  intro stack done rest _ _ hl
  exact ⟨stack, .name t, run_name ht hl, rfl, rfl⟩

theorem Reads.literal {t : Token} {value : Literal} (ht : t.literal? = some value) :
    Reads arities stop .primary (.literal t value) := by
  intro stack done rest _ _ _
  exact ⟨stack, .literal t value, run_literal ht, rfl, rfl⟩

/-- A group is read if what stands in it is. -/
theorem Reads.group {opener closer : Token} {bracket : Bracket}
    (ho : Bracket.ofOpener? opener.kind = some bracket) (hc : closer.kind = bracket.closer)
    (h : Reads arities stop (.expression true) e) :
    Reads arities stop .primary (.group opener e closer) := by
  intro stack done rest _ hn hl
  have hdepth : Frame.depth (.group opener bracket :: stack) = Frame.depth stack + 1 :=
    Frame.depth_cons_of_nests rfl
  simp only [Expr.nesting] at hn
  -- inside the group the closer stands after the phrase, whatever comes after the group
  obtain ⟨stack', e', hrun, hfin⟩ :=
    h (.group opener bracket :: stack) done (closer :: rest) ⟨trivial, rfl⟩ (by omega) hl
  refine ⟨stack, .group opener e closer, ?_, rfl, rfl⟩
  simp only [Expr.tokens, List.cons_append, List.append_assoc, List.nil_append]
  rw [run_opener ho (by omega), hrun, run_closer hc hfin.all]

/-- A prefix operator is read with its operand. -/
theorem Reads.prefixed {op : Token} (hop : PrefixToken arities op)
    (he : startsOperand e.first.kind = true) (h : Reads arities stop (.operand chain) e) :
    Reads arities stop (.operand chain) (.unary op e) := by
  intro stack done rest hf hn hl
  have hdepth : Frame.depth (.prefixOp op :: stack) = Frame.depth stack + 1 :=
    Frame.depth_cons_of_nests rfl
  simp only [Expr.nesting] at hn
  obtain ⟨stack', e', hrun, hfin, hjoin⟩ :=
    h (.prefixOp op :: stack) done rest hf (by omega) hl
  refine ⟨stack', e', ?_, ⟨hfin.all, hfin.argument⟩, hjoin⟩
  rw [Expr.tokens, List.cons_append, run_prefixOp hop (by rwa [e.head?_tokens_append]) (by omega),
    hrun]

/-- An application is read if both of its sides are. -/
theorem Reads.call {callee argument : Expr} {dollar : Token} (hd : dollar.kind = .dollar)
    (hf : Reads arities stop (.application true) callee)
    (ha : Reads arities stop (.expression false) argument) :
    Reads arities stop (.application true) (.call callee dollar argument) := by
  intro stack done rest hfit hn hl
  obtain ⟨hlf, hla, hli⟩ := hl
  simp only [Expr.nesting] at hn
  -- the argument is read on top of its own frame, which a later `$` or the group closes
  obtain ⟨stack₁, e₁, hrun₁, -, -, hdollar⟩ :=
    hf stack done (dollar :: (argument.tokens ++ rest)) hfit (by omega) hlf
  have hdepth : Frame.depth (.argument callee dollar :: stack) = Frame.depth stack :=
    Frame.depth_cons_of_not_nests rfl
  obtain ⟨stack', e', hrun, hfin⟩ :=
    ha (.argument callee dollar :: stack) done rest ⟨trivial, rfl⟩ (by omega) hla
  obtain ⟨hchains, hclose⟩ := hfin.argument rfl
  refine ⟨stack', e', ?_, ⟨hfin.all, fun h => by cases h⟩, fun hi => absurd hi hli, fun _ => ?_⟩
  · rw [Expr.tokens, List.append_assoc, List.cons_append, hrun₁, run_dollar hd (hdollar rfl), hrun]
  · rw [hchains, if_neg Bool.false_ne_true, hclose]
    rfl

/-- A binary operator is read if both of its sides are. -/
theorem Reads.joined {left right : Expr} {op : Token} (hop : InfixToken arities op)
    (has : left.assignsName op = false) (hl : Reads arities stop (.series chain) left)
    (hr : Reads arities stop (.operand chain) right) :
    Reads arities stop (.series chain) (.binary left op right) := by
  intro stack done rest hfit hn hlong
  rw [Expr.nesting_joined has] at hn
  -- the operator closes all that was read of the left side, so the right one comes on `stack`
  obtain ⟨stack₁, e₁, hrun₁, -, hjoin₁⟩ :=
    hl stack done (op :: (right.tokens ++ rest)) hfit (by omega) hlong.1
  have hdepth : Frame.depth (.binary left op :: stack) = Frame.depth stack :=
    Frame.depth_cons_of_not_nests rfl
  obtain ⟨stack', e', hrun, hfin, hjoin⟩ :=
    hr (.binary left op :: stack) done rest hfit.2 (by omega) hlong.2
  refine ⟨stack', e', ?_, ⟨hfin.all, hfin.argument⟩, fun hi => ?_⟩
  · rw [Expr.tokens, List.append_assoc, List.cons_append, hrun₁, run_binaryOp hop (hjoin₁ hop) has,
      hrun]
  · rw [Frame.closeOperand, hjoin hi]
    rfl

/-- An assignment is read if its right side is. -/
theorem Reads.assign {target op : Token} (ht : target.kind = .identifier)
    (hop : BinaryOp.ofKind? op.kind = some .assign)
    (h : Reads arities stop (.expression chain) e) :
    Reads arities stop (.expression chain) (.binary (.name target) op e) := by
  intro stack done rest hfit hn hlong
  rw [Expr.nesting_assign hop] at hn
  have hdepth : Frame.depth (.assign target op :: stack) = Frame.depth stack + 1 :=
    Frame.depth_cons_of_nests rfl
  obtain ⟨stack', e', hrun, hfin⟩ :=
    h (.assign target op :: stack) done rest ⟨trivial, hfit.2⟩ (by omega) hlong.2
  have hclose := hfit.1.closeOperand_of_eq (hfit.1.closePrefixes (.name target))
  have hname : State.run arities stop ⟨stack, none, done⟩ (target :: op :: (e.tokens ++ rest)) =
      State.run arities stop ⟨stack, some (.name target), done⟩ (op :: (e.tokens ++ rest)) :=
    run_name ht hlong.1
  refine ⟨stack', e', ?_, ⟨hfin.all, hfin.argument⟩⟩
  simp only [Expr.tokens, List.cons_append, List.nil_append]
  rw [hname, run_assign hop hclose (by omega), hrun]

end Productions

/-- The machine reads every phrase. -/
theorem Phrase.reads {arities : Arities} (stop : Token) {k : Category} {e : Expr}
    (h : Phrase arities k e) : Reads arities stop k e := by
  induction h with
  | assign ht hop _ ih => exact .assign ht hop ih
  | series _ ih => exact .series ih
  | joined _ hop has _ ihl ihr => exact .joined hop has ihl ihr
  | operand _ ih => exact .operand ih
  | prefixed hop he ih => exact .prefixed hop he.startsOperand_first ih
  | application _ ih => exact .application ih
  | call _ hd _ ihf iha => exact .call hd ihf iha
  | primary _ ih => exact .primary ih
  | literal ht => exact .literal ht
  | name ht => exact .name ht
  | group ho _ hc ih => exact .group ho hc ih

/-- **Completeness.**  The machine returns every forest from the tokens of the forest. -/
theorem run_forest {arities : Arities} {stop : Token} {forest : List Expr} (done : List Expr)
    (h : IsForest arities stop forest) :
    State.run arities stop ⟨[], none, done⟩ (forest.flatMap Expr.tokens) =
      .ok (done.reverse ++ forest) := by
  induction forest generalizing done with
  | nil => simp [State.run, State.finish]
  | cons e es ih =>
    obtain ⟨hphrases, hnesting, hlong, hjoin, hlongs⟩ := h
    simp only [List.forall_mem_cons] at hphrases hnesting
    have hes : IsForest arities stop es := ⟨hphrases.2, hnesting.2, hlongs⟩
    have hhead := head?_forestTokens es stop
    obtain ⟨stack', e', hrun, hfin⟩ :=
      hphrases.1.reads stop [] done (es.flatMap Expr.tokens) ⟨trivial, rfl⟩
        (by simpa [Frame.depth] using hnesting.1) (by rwa [hhead])
    have hclose : Frame.closeAll e' stack' = (e, []) := hfin.all
    rw [List.flatMap_cons, hrun]
    cases es with
    | nil => simp [State.run, State.finish, hclose]
    | cons e₂ es =>
      -- the first token of the next tree finishes this one and is read again on the empty stack
      obtain ⟨ts, hts⟩ := e₂.exists_tokens_eq
      have hstart := (hphrases.2 e₂ List.mem_cons_self).startsOperand_first
      have hsplit : (e₂ :: es).flatMap Expr.tokens =
          e₂.first :: (ts ++ es.flatMap Expr.tokens) := by
        rw [List.flatMap_cons, hts, List.cons_append]
      rw [hsplit, run_next hstart hjoin hclose, ← hsplit, ih (e :: done) hes]
      simp

end ListCalc
