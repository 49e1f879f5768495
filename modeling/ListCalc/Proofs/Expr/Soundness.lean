import ListCalc.Proofs.Expr.Reading

/-!
# Proofs — what the machine returns is a forest

**Soundness** of the parser: every accepting run returns a forest whose tokens are the tokens that
were read, in order (`run_sound`).

The invariant of a run is a typing of the stack.  `Awaits arities k stack` says that every frame of
the stack holds phrases of the grammar and that a phrase of category `k` has to come on top of it.
Finishing frames keeps the typing and the tokens (`Awaits.closeOperand`, `Awaits.closeArgument`,
`Awaits.closeAll`), each by induction on the typing.  Every token taken then keeps the invariant
of the state (`Holds`), and puts itself behind the tokens of the state (`Expr.State.pending`).
-/

namespace ListCalc

open ListCalc.Expr (State)

/-! ### The tokens of a state -/

namespace Frame

/-- The tokens that a frame was read from. -/
@[simp] def tokens : Frame → List Token
  | group opener _         => [opener]
  | prefixOp op            => [op]
  | binary left op         => left.tokens ++ [op]
  | assign target op       => [target, op]
  | argument callee dollar => callee.tokens ++ [dollar]

/-- The tokens of the frames, from the bottom of the stack to its top. -/
@[simp] def stackTokens : List Frame → List Token
  | []      => []
  | f :: fs => stackTokens fs ++ f.tokens

end Frame

/-- The tokens of the tree that is being read, from left to right. -/
def Expr.State.pending (s : State) : List Token :=
  Frame.stackTokens s.stack ++ (s.operand?.map Expr.tokens).getD []

@[simp] theorem Expr.State.pending_none (stack : List Frame) (done : List Expr) :
    State.pending ⟨stack, none, done⟩ = Frame.stackTokens stack :=
  List.append_nil _

@[simp] theorem Expr.State.pending_some (stack : List Frame) (e : Expr) (done : List Expr) :
    State.pending ⟨stack, some e, done⟩ = Frame.stackTokens stack ++ e.tokens :=
  rfl

/-- All tokens taken so far. -/
def Expr.State.consumed (s : State) : List Token :=
  s.done.reverse.flatMap Expr.tokens ++ s.pending

/-! ### Typed stacks -/

/-- The tree is a phrase, could not be read further before `next`, and is not nested too deeply
on this stack. -/
structure Standing (arities : Arities) (k : Category) (stack : List Frame) (e : Expr)
    (next : Token) : Prop where
  phrase : Phrase arities k e
  longest : e.Longest arities next
  nesting : Frame.depth stack + e.nesting ≤ maxNesting

/-- A phrase of this category has to come on top of the stack, whose frames hold phrases. -/
inductive Awaits (arities : Arities) : Category → List Frame → Prop where
  | bottom : Awaits arities (.expression true) []
  | group {chain : Bool} {opener : Token} {bracket : Bracket} {fs : List Frame} :
      Bracket.ofOpener? opener.kind = some bracket → Frame.depth fs < maxNesting →
      Awaits arities (.operand chain) fs →
      Awaits arities (.expression true) (.group opener bracket :: fs)
  | argument {callee : Expr} {dollar : Token} {fs : List Frame} :
      dollar.kind = .dollar → Standing arities (.application true) fs callee dollar →
      Awaits arities (.operand true) fs →
      Awaits arities (.expression false) (.argument callee dollar :: fs)
  | assign {chain : Bool} {target op : Token} {fs : List Frame} :
      target.kind = .identifier → BinaryOp.ofKind? op.kind = some .assign →
      Frame.depth fs < maxNesting → Awaits arities (.expression chain) fs →
      Awaits arities (.expression chain) (.assign target op :: fs)
  | operand {chain : Bool} {fs : List Frame} :
      Awaits arities (.expression chain) fs → Awaits arities (.operand chain) fs
  | joined {chain : Bool} {left : Expr} {op : Token} {fs : List Frame} :
      InfixToken arities op → left.assignsName op = false →
      Standing arities (.series chain) fs left op → Awaits arities (.expression chain) fs →
      Awaits arities (.operand chain) (.binary left op :: fs)
  | prefixed {chain : Bool} {op : Token} {fs : List Frame} :
      PrefixToken arities op → Frame.depth fs < maxNesting →
      Awaits arities (.operand chain) fs →
      Awaits arities (.operand chain) (.prefixOp op :: fs)

/-- Whether `$` may apply what is read in the category. -/
def Category.chain : Category → Bool
  | expression chain  => chain
  | series chain      => chain
  | operand chain     => chain
  | application chain => chain
  | primary           => true

section Closing

variable {arities : Arities} {k : Category} {chain : Bool} {fs : List Frame} {e : Expr}
  {next : Token}

/-- Whether `$` chains is known of the category that is awaited. -/
theorem Awaits.chains (h : Awaits arities k fs) : Frame.chains fs = k.chain := by
  induction h with
  | bottom => rfl
  | group _ _ _ _ => rfl
  | argument _ _ _ _ => rfl
  | assign _ _ _ _ ih => exact ih
  | operand _ ih => exact ih
  | joined _ _ _ _ ih => exact ih
  | prefixed _ _ _ ih => exact ih

/-- A stack that awaits something is within the limit. -/
theorem Awaits.depth_le (h : Awaits arities k fs) : Frame.depth fs ≤ maxNesting := by
  induction h with
  | bottom => exact Nat.zero_le _
  | group _ hd _ _ => rw [Frame.depth_cons_of_nests rfl]; exact hd
  | argument _ _ _ ih => rw [Frame.depth_cons_of_not_nests rfl]; exact ih
  | assign _ _ hd _ _ => rw [Frame.depth_cons_of_nests rfl]; exact hd
  | operand _ ih => exact ih
  | joined _ _ _ _ ih => rw [Frame.depth_cons_of_not_nests rfl]; exact ih
  | prefixed _ hd _ _ => rw [Frame.depth_cons_of_nests rfl]; exact hd

/-- Where an expression has to come, no operator waits for an operand. -/
theorem Awaits.isBase (h : Awaits arities (.expression chain) fs) : Frame.IsBase fs := by
  cases h <;> trivial

/-! ### Finishing one frame -/

/-- A prefix operator is finished with its operand. -/
theorem Standing.unary {op : Token} (hop : PrefixToken arities op)
    (h : Standing arities (.operand chain) (.prefixOp op :: fs) e next) :
    Standing arities (.operand chain) fs (.unary op e) next := by
  obtain ⟨hp, hl, hn⟩ := h
  rw [Frame.depth_cons_of_nests rfl] at hn
  exact ⟨.prefixed hop hp, hl, by rw [Expr.nesting]; omega⟩

/-- A binary operator is finished with its right side. -/
theorem Standing.binary {left : Expr} {op : Token}
    (hleft : Standing arities (.series chain) fs left op) (hop : InfixToken arities op)
    (has : left.assignsName op = false)
    (h : Standing arities (.operand chain) (.binary left op :: fs) e next) :
    Standing arities (.series chain) fs (.binary left op e) next := by
  obtain ⟨hp, hl, hn⟩ := h
  rw [Frame.depth_cons_of_not_nests rfl] at hn
  refine ⟨.joined hleft.phrase hop has hp, ⟨hleft.longest, hl⟩, ?_⟩
  have := hleft.nesting
  rw [Expr.nesting_joined has]
  omega

/-- An assignment is finished with its right side. -/
theorem Standing.assign {target op : Token} (ht : target.kind = .identifier)
    (hop : BinaryOp.ofKind? op.kind = some .assign)
    (h : Standing arities (.expression chain) (.assign target op :: fs) e next) :
    Standing arities (.expression chain) fs (.binary (.name target) op e) next := by
  obtain ⟨hp, hl, hn⟩ := h
  rw [Frame.depth_cons_of_nests rfl] at hn
  -- a plain name before `:` is as long as can be: no operand begins with a colon
  have hcolon : startsOperand op.kind = false := by
    unfold BinaryOp.ofKind? at hop
    split at hop <;> simp_all [startsOperand]
  refine ⟨.assign ht hop hp, ⟨fun _ => hcolon, hl⟩, ?_⟩
  rw [Expr.nesting_assign hop]
  omega

/-- An application is finished with its argument. -/
theorem Standing.call {callee : Expr} {dollar : Token}
    (hf : Standing arities (.application true) fs callee dollar) (hd : dollar.kind = .dollar)
    (h : Standing arities (.expression false) (.argument callee dollar :: fs) e next)
    (hi : ¬ InfixToken arities next) :
    Standing arities (.application true) fs (.call callee dollar e) next := by
  obtain ⟨hp, hl, hn⟩ := h
  rw [Frame.depth_cons_of_not_nests rfl] at hn
  refine ⟨.call hf.phrase hd hp, ⟨hf.longest, hl, hi⟩, ?_⟩
  have := hf.nesting
  rw [Expr.nesting]
  omega

/-- What stands as one category stands as every wider one. -/
theorem Standing.weaken {k' : Category} (hk : Phrase arities k e → Phrase arities k' e)
    (h : Standing arities k fs e next) : Standing arities k' fs e next :=
  ⟨hk h.phrase, h.longest, h.nesting⟩

/-! ### Finishing several frames -/

/-- An operand is finished before a binary operator, and the tokens stay the same. -/
theorem Awaits.closeOperand (h : Awaits arities (.operand chain) fs)
    (he : Standing arities (.operand chain) fs e next) :
    ∃ e' fs', Frame.closeOperand e fs = (e', fs') ∧
      Standing arities (.series chain) fs' e' next ∧ Awaits arities (.expression chain) fs' ∧
      Frame.stackTokens fs' ++ e'.tokens = Frame.stackTokens fs ++ e.tokens := by
  generalize hk : Category.operand chain = k at h
  -- the induction is on the prefix operators on top, each of which wraps the operand once more
  induction h generalizing e with
  | bottom => cases hk
  | group => cases hk
  | argument => cases hk
  | assign => cases hk
  | operand h =>
    cases hk
    exact ⟨_, _, h.isBase.closeOperand_of_eq (h.isBase.closePrefixes _), he.weaken .operand, h,
      rfl⟩
  | joined hop has hleft h =>
    cases hk
    exact ⟨_, _, rfl, hleft.binary hop has he, h, by simp [Expr.tokens]⟩
  | prefixed hop _ _ ih =>
    cases hk
    obtain ⟨e', fs', hc, hs, ha, ht⟩ := ih (he.unary hop) rfl
    exact ⟨e', fs', hc, hs, ha, by simp [ht, Expr.tokens]⟩

/-- Before a token that is no infix operator, all frames up to the group can be finished. -/
theorem Awaits.closeAll (hi : ¬ InfixToken arities next) (h : Awaits arities k fs)
    (he : Standing arities k fs e next) :
    ∃ e' fs', Frame.closeAll e fs = (e', fs') ∧
      Standing arities (.expression true) fs' e' next ∧ Awaits arities (.expression true) fs' ∧
      (fs' = [] ∨ ∃ opener bracket gs, fs' = .group opener bracket :: gs) ∧
      Frame.stackTokens fs' ++ e'.tokens = Frame.stackTokens fs ++ e.tokens := by
  induction h generalizing e with
  | bottom => exact ⟨e, [], rfl, he, .bottom, .inl rfl, rfl⟩
  | group ho hd h => exact ⟨e, _, rfl, he, .group ho hd h, .inr ⟨_, _, _, rfl⟩, rfl⟩
  | argument hd hf _ ih =>
    obtain ⟨e', fs', hc, hs, ha, hg, ht⟩ :=
      ih ((hf.call hd he hi).weaken .application)
    exact ⟨e', fs', hc, hs, ha, hg, by simp [ht, Expr.tokens]⟩
  | assign ht' hop _ _ ih =>
    obtain ⟨e', fs', hc, hs, ha, hg, ht⟩ := ih (he.assign ht' hop)
    exact ⟨e', fs', hc, hs, ha, hg, by simp [ht, Expr.tokens]⟩
  | operand _ ih => exact ih (he.weaken fun h => .series (.operand h))
  | joined hop has hleft _ ih =>
    obtain ⟨e', fs', hc, hs, ha, hg, ht⟩ := ih ((hleft.binary hop has he).weaken .series)
    exact ⟨e', fs', hc, hs, ha, hg, by simp [ht, Expr.tokens]⟩
  | prefixed hop _ _ ih =>
    obtain ⟨e', fs', hc, hs, ha, hg, ht⟩ := ih (he.unary hop)
    exact ⟨e', fs', hc, hs, ha, hg, by simp [ht, Expr.tokens]⟩

/-- Inside an argument, before a token that is no infix operator, the argument can be finished. -/
theorem Awaits.closeArgument (hi : ¬ InfixToken arities next) (h : Awaits arities k fs)
    (hk : k.chain = false) (he : Standing arities k fs e next) :
    ∃ e' fs', Frame.closeArgument e fs = (e', fs') ∧
      Standing arities (.application true) fs' e' next ∧ Awaits arities (.operand true) fs' ∧
      Frame.stackTokens fs' ++ e'.tokens = Frame.stackTokens fs ++ e.tokens := by
  induction h generalizing e with
  | bottom => cases hk
  | group => cases hk
  | argument hd hf h =>
    exact ⟨_, _, rfl, hf.call hd he hi, h, by simp [Expr.tokens]⟩
  | assign ht' hop _ _ ih =>
    obtain ⟨e', fs', hc, hs, ha, ht⟩ := ih hk (he.assign ht' hop)
    exact ⟨e', fs', hc, hs, ha, by simp [ht, Expr.tokens]⟩
  | operand _ ih => exact ih hk (he.weaken fun h => .series (.operand h))
  | joined hop has hleft _ ih =>
    obtain ⟨e', fs', hc, hs, ha, ht⟩ := ih hk ((hleft.binary hop has he).weaken .series)
    exact ⟨e', fs', hc, hs, ha, by simp [ht, Expr.tokens]⟩
  | prefixed hop _ _ ih =>
    obtain ⟨e', fs', hc, hs, ha, ht⟩ := ih hk (he.unary hop)
    exact ⟨e', fs', hc, hs, ha, by simp [ht, Expr.tokens]⟩

end Closing

/-! ### Taking one token -/

/-- What is true of every state the machine comes to, seeing `next`. -/
def Holds (arities : Arities) (next : Token) (s : State) : Prop :=
  ∃ chain, Awaits arities (.operand chain) s.stack ∧
    ∀ e ∈ s.operand?, Standing arities (.application chain) s.stack e next

section Taking

variable {arities : Arities} {chain : Bool} {stack fs : List Frame} {done : List Expr}
  {t next : Token} {e : Expr} {s' : State}

/-- The invariant where an operand is expected. -/
theorem Holds.of_awaits (ha : Awaits arities (.operand chain) stack) :
    Holds arities next ⟨stack, none, done⟩ :=
  ⟨chain, ha, fun _ h => by cases h⟩

/-- The invariant where an operand has been read. -/
theorem Holds.of_standing (ha : Awaits arities (.operand chain) stack)
    (he : Standing arities (.application chain) stack e next) :
    Holds arities next ⟨stack, some e, done⟩ :=
  ⟨chain, ha, fun _ h => by cases h; exact he⟩

theorem Frame.enter_eq_ok {frame : Frame} (h : Frame.enter frame t stack = .ok fs) :
    Frame.depth stack < maxNesting ∧ fs = frame :: stack := by
  unfold Frame.enter at h
  split at h
  · rename_i hd
    cases h
    exact ⟨hd, rfl⟩
  · cases h

/-- A step that enters a frame and then waits for an operand. -/
theorem enter_bind_eq_ok {frame : Frame}
    (h : (do return ⟨← Frame.enter frame t stack, none, done⟩ : Except SyntaxError State) =
      .ok s') :
    Frame.depth stack < maxNesting ∧ s' = ⟨frame :: stack, none, done⟩ := by
  cases hf : Frame.enter frame t stack with
  | error err =>
    rw [hf] at h
    cases h
  | ok fs =>
    obtain ⟨hd, rfl⟩ := Frame.enter_eq_ok hf
    rw [hf] at h
    cases h
    exact ⟨hd, rfl⟩

/-- The parser takes only prefix operators as such. -/
theorem prefixToken_of_isPrefixOp {k : TokenKind}
    (h : State.isPrefixOp arities t k = true) : PrefixToken arities t := by
  unfold State.isPrefixOp at h
  split at h
  · exact .inl ‹_›
  · exact .inr (.inl ‹_›)
  · simp only [Bool.and_eq_true, beq_iff_eq] at h
    exact .inr (.inr ⟨‹_›, h.1⟩)
  · cases h

/-- A token taken where an operand is expected stays the last token of the state. -/
theorem takeOperand_ok (ha : Awaits arities (.operand chain) stack)
    (h : State.takeOperand arities stack done t next.kind = .ok s') :
    s'.done = done ∧ s'.pending = Frame.stackTokens stack ++ [t] ∧ Holds arities next s' := by
  have hd := ha.depth_le
  unfold State.takeOperand at h
  split at h
  · rename_i hp
    obtain ⟨hlt, rfl⟩ := enter_bind_eq_ok h
    exact ⟨rfl, by simp,
      .of_awaits (.prefixed (prefixToken_of_isPrefixOp hp) hlt ha)⟩
  · rename_i hp
    split at h
    · rename_i hk
      cases h
      have hnext : arities t.lexeme = some .unary → startsOperand next.kind = false := by
        simpa [State.isPrefixOp, hk] using hp
      exact ⟨rfl, by simp [Expr.tokens],
        .of_standing ha ⟨.primary (.name hk), hnext, hd⟩⟩
    case h_7 =>
      split at h
      · rename_i hb
        obtain ⟨hlt, rfl⟩ := enter_bind_eq_ok h
        exact ⟨rfl, by simp, .of_awaits (.operand (.group hb hlt ha))⟩
      · cases h
    -- the five kinds of literal
    all_goals
      split at h
      · rename_i hv
        cases h
        exact ⟨rfl, by simp [Expr.tokens],
          .of_standing ha ⟨.primary (.literal hv), trivial, hd⟩⟩
      · cases h

/-- A binary operator taken after an operand stays the last token of the state. -/
theorem takeBinaryOp_ok (ht : InfixToken arities t) (ha : Awaits arities (.operand chain) stack)
    (he : Standing arities (.application chain) stack e t)
    (h : State.takeBinaryOp stack e done t = .ok s') :
    s'.done = done ∧ s'.pending = Frame.stackTokens stack ++ e.tokens ++ [t] ∧
      Holds arities next s' := by
  obtain ⟨e', fs', hc, hs, ha', htok⟩ := ha.closeOperand (he.weaken .application)
  cases has : e'.assignsName t with
  | true =>
    obtain ⟨target, rfl, ho⟩ := Expr.assignsName_eq_true has
    rw [takeBinaryOp_of_assigns ho hc] at h
    obtain ⟨hlt, rfl⟩ := enter_bind_eq_ok h
    have ha'' := Awaits.assign hs.phrase.kind_of_name ho hlt ha'
    exact ⟨rfl, by simp [← htok, Expr.tokens], .of_awaits (.operand ha'')⟩
  | false =>
    rw [takeBinaryOp_of_joins hc has] at h
    cases h
    exact ⟨rfl, by simp [← htok], .of_awaits (.joined ht has hs ha')⟩

/-- A `$` taken after an application stays the last token of the state. -/
theorem takeDollar_ok (ht : t.kind = .dollar) (ha : Awaits arities (.operand chain) stack)
    (he : Standing arities (.application chain) stack e t) :
    (State.takeDollar stack e done t).done = done ∧
      (State.takeDollar stack e done t).pending = Frame.stackTokens stack ++ e.tokens ++ [t] ∧
      Holds arities next (State.takeDollar stack e done t) := by
  have hchains : Frame.chains stack = chain := ha.chains
  cases chain with
  | true =>
    simp only [State.takeDollar, hchains, if_true]
    exact ⟨trivial, by simp, .of_awaits (.operand (.argument ht he ha))⟩
  | false =>
    have hi : ¬ InfixToken arities t := fun hi => hi.ne_dollar ht
    obtain ⟨e', fs', hc, hs, ha', htok⟩ := ha.closeArgument hi rfl (he.weaken .application)
    simp only [State.takeDollar, hchains, Bool.false_eq_true, if_false, hc]
    exact ⟨trivial, by simp [← htok],
      .of_awaits (.operand (.argument ht hs ha'))⟩

end Taking

/-! ### The whole run -/

theorem LongestForest.append_singleton {arities : Arities} {stop : Token} {es : List Expr}
    {e : Expr} (h : LongestForest arities e.first es) (he : e.Longest arities stop)
    (hi : ¬ InfixToken arities stop) : LongestForest arities stop (es ++ [e]) := by
  induction es with
  | nil => exact ⟨he, hi, trivial⟩
  | cons d ds ih =>
    have hfirst : firstOf (ds ++ [e]) stop = firstOf ds e.first := by cases ds <;> rfl
    obtain ⟨hd, hdi, hds⟩ := h
    rw [List.cons_append, LongestForest, hfirst]
    exact ⟨hd, hdi, ih hds⟩

/-- A tree comes after those that are finished. -/
theorem IsForest.append_singleton {arities : Arities} {stop : Token} {es : List Expr} {e : Expr}
    (h : IsForest arities e.first es) (he : Standing arities (.expression true) [] e stop)
    (hi : ¬ InfixToken arities stop) : IsForest arities stop (es ++ [e]) := by
  have hn : e.nesting ≤ maxNesting := by simpa [Frame.depth] using he.nesting
  refine ⟨?_, ?_, h.longest.append_singleton he.longest hi⟩
  · simpa [or_imp, forall_and] using ⟨h.phrases, he.phrase⟩
  · simpa [or_imp, forall_and] using ⟨h.nesting, hn⟩

/-- The invariant of a run that has the tokens `ts` still before it: the finished trees are a
forest up to the tree that is being read. -/
structure Progress (arities : Arities) (stop : Token) (s : State) (ts : List Token) : Prop where
  forest : IsForest arities ((s.pending ++ ts).head?.getD stop) s.done.reverse
  holds : Holds arities (ts.head?.getD stop) s

section Run

variable {arities : Arities} {stop t : Token} {ts : List Token} {s s' : State}

/-- When the pending tokens are those of a finished tree, it is one more tree of the forest. -/
theorem Progress.forest_cons {e : Expr} {next : Token} (hp : Progress arities stop s ts)
    (hpend : s.pending = e.tokens) (he : Standing arities (.expression true) [] e next)
    (hi : ¬ InfixToken arities next) : IsForest arities next (e :: s.done).reverse := by
  have hforest := hp.forest
  rw [hpend, e.head?_tokens_append, Option.getD_some] at hforest
  rw [List.reverse_cons]
  exact hforest.append_singleton he hi

/-- A token that is put behind the pending ones keeps the finished trees a forest. -/
theorem Progress.of_pending (hp : Progress arities stop s (t :: ts)) (hd : s'.done = s.done)
    (hpend : s'.pending = s.pending ++ [t]) (hh : Holds arities (ts.head?.getD stop) s') :
    Progress arities stop s' ts ∧ s'.consumed = s.consumed ++ [t] := by
  refine ⟨⟨?_, hh⟩, by simp [State.consumed, hd, hpend]⟩
  have := hp.forest
  rwa [hd, hpend, List.append_assoc, List.singleton_append]

/-- Every token that is taken keeps the invariant, and is the last one taken. -/
theorem Progress.step (hp : Progress arities stop s (t :: ts))
    (h : s.step arities t (ts.head?.getD stop).kind = .ok s') :
    Progress arities stop s' ts ∧ s'.consumed = s.consumed ++ [t] := by
  obtain ⟨stack, operand?, done⟩ := s
  obtain ⟨chain, ha, he⟩ := hp.holds
  cases operand? with
  | none =>
    obtain ⟨hd, hpend, hh⟩ := takeOperand_ok ha h
    exact hp.of_pending hd (by simpa using hpend) hh
  | some e =>
    -- after an operand there are three cases: `$`, an infix operator, and anything else
    have he : Standing arities (.application chain) stack e t := he e rfl
    unfold State.step at h
    dsimp only at h
    split at h
    · rename_i hdollar
      cases h
      obtain ⟨hd, hpend, hh⟩ := takeDollar_ok hdollar ha he
      exact hp.of_pending hd (by simpa using hpend) hh
    split at h
    · rename_i hop
      obtain ⟨hd, hpend, hh⟩ := takeBinaryOp_ok (isBinaryOp_iff.mp hop) ha he h
      exact hp.of_pending hd (by simpa using hpend) hh
    rename_i hop
    have hi : ¬ InfixToken arities t := fun hi => hop (isBinaryOp_iff.mpr hi)
    obtain ⟨e', fs', hc, hs, ha', hbottom, htok⟩ := ha.closeAll hi (he.weaken .application)
    rw [State.takeOther, hc] at h
    rcases hbottom with rfl | ⟨opener, bracket, gs, rfl⟩
    · -- the tree is finished, and `t` begins the next one
      have hpending : State.pending ⟨stack, some e, done⟩ = e'.tokens := htok.symm
      obtain ⟨hd, hpend, hh⟩ := takeOperand_ok (.operand .bottom) h
      refine ⟨⟨?_, hh⟩, by simp [State.consumed, hd, hpend, ← htok]⟩
      rw [hd, hpend]
      exact hp.forest_cons hpending hs hi
    · -- the token closes the group on top, or there is no way on
      dsimp only at h
      split at h
      · rename_i hcloser
        cases h
        cases ha' with
        | @group chain' _ _ _ ho hlt ha' =>
        have hn := hs.nesting
        rw [Frame.depth_cons_of_nests rfl] at hn
        have he' : Standing arities (.application chain') gs (.group opener e' t)
            (ts.head?.getD stop) :=
          ⟨.primary (.group ho hs.phrase hcloser), hs.longest, by rw [Expr.nesting]; omega⟩
        refine hp.of_pending rfl ?_ (.of_standing ha' he')
        simp [← htok, Expr.tokens]
      · cases h

/-- At the end of the tokens the trees are what all of them are read as. -/
theorem Progress.finish {forest : List Expr} (hp : Progress arities stop s [])
    (hi : ¬ InfixToken arities stop) (h : s.finish stop = .ok forest) :
    IsForest arities stop forest ∧ forest.flatMap Expr.tokens = s.consumed := by
  obtain ⟨stack, operand?, done⟩ := s
  obtain ⟨chain, ha, he⟩ := hp.holds
  cases operand? with
  | none =>
    cases stack with
    | nil =>
      cases h
      exact ⟨hp.forest, by simp [State.consumed]⟩
    | cons f fs => cases h
  | some e =>
    have he : Standing arities (.application chain) stack e stop := he e rfl
    obtain ⟨e', fs', hc, hs, ha', hbottom, htok⟩ := ha.closeAll hi (he.weaken .application)
    simp only [State.finish, hc] at h
    rcases hbottom with rfl | ⟨opener, bracket, gs, rfl⟩
    · cases h
      exact ⟨hp.forest_cons htok.symm hs hi, by simp [State.consumed, ← htok]⟩
    · cases h

/-- **Soundness.**  An accepting run returns a forest, whose tokens are those of the run. -/
theorem run_sound {forest : List Expr} (hi : ¬ InfixToken arities stop)
    (hp : Progress arities stop s ts) (h : State.run arities stop s ts = .ok forest) :
    IsForest arities stop forest ∧ forest.flatMap Expr.tokens = s.consumed ++ ts := by
  induction ts generalizing s with
  | nil =>
    obtain ⟨hf, ht⟩ := hp.finish hi h
    exact ⟨hf, by rw [ht, List.append_nil]⟩
  | cons t ts ih =>
    rw [State.run] at h
    cases hs : s.step arities t (ts.head?.getD stop).kind with
    | error err =>
      rw [hs] at h
      cases h
    | ok s' =>
      rw [hs] at h
      obtain ⟨hp', hc⟩ := hp.step hs
      obtain ⟨hf, ht⟩ := ih hp' h
      exact ⟨hf, by rw [ht, hc, List.append_assoc, List.singleton_append]⟩

end Run

end ListCalc
