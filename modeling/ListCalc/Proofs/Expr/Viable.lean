import ListCalc.Proofs.Token.Rescan

/-!
# Proofs — an error is reported where the source goes wrong

Tokens are `Viable` if a source that parses begins with them, and `Dead` if nothing that parses
does, both up to places.  The parser reports its error at the first token that cannot be continued
(`parse_fails_at_first_offending`): the tokens before it are viable, and with that token and the one
after it they are dead.

From every state that the machine comes to there is a way to the end (`State.completion`): a literal
if an operand is expected, and then the closers of the groups that are still open.  No frame has to
be entered for it, so it is there at any depth.  The token after the ones that were taken becomes
another one by this; the machine does the same as long as the new one begins an operand exactly if
an operand is expected (`take_next`).
-/

namespace ListCalc

open ListCalc.Expr (State)

/-- Some source without faults begins with the tokens and parses. -/
def Viable (arities : Arities) (ts : List Token) : Prop :=
  ∃ source forest, (scan source).faults = [] ∧
    ts.map Token.unplaced <+: (scan source).tokens.map Token.unplaced ∧
    Expr.parse arities (scan source).tokens = .ok forest

/-- No tokens that begin with these parse. -/
def Dead (arities : Arities) (ts : List Token) : Prop :=
  ∀ us forest, ts.map Token.unplaced <+: us.map Token.unplaced →
    Expr.parse arities us ≠ .ok forest

/-- The beginning of what is viable is viable. -/
theorem Viable.mono {arities : Arities} {ts us : List Token} (h : Viable arities us)
    (hinit : ts <+: us) : Viable arities ts := by
  obtain ⟨source, forest, hfaults, htokens, hparse⟩ := h
  exact ⟨source, forest, hfaults, (hinit.map _).trans htokens, hparse⟩

/-! ### Another token in view -/

section Next

variable {arities : Arities} {stack : List Frame} {done : List Expr} {t : Token}
  {next next' : TokenKind} {s s' : State}

/-- Whether a token was taken as a prefix operator shows in what is expected after it. -/
theorem isPrefixOp_next (h : State.takeOperand arities stack done t next = .ok s')
    (hnext : startsOperand next' = s'.operand?.isNone) :
    State.isPrefixOp arities t next' = State.isPrefixOp arities t next := by
  by_cases hname : t.kind = .identifier
  · -- the kind in view counts for a name only: a prefix operator expects an operand, a name is one
    have hoperand : s'.operand?.isNone = State.isPrefixOp arities t next := by
      unfold State.takeOperand at h
      split at h
      · rename_i hp
        obtain ⟨-, rfl⟩ := enter_bind_eq_ok h
        rw [hp]
        rfl
      · rename_i hp
        rw [hname] at h
        cases h
        rw [Bool.eq_false_iff.mpr hp]
        rfl
    rw [hoperand] at hnext
    simp only [State.isPrefixOp, hname] at hnext ⊢
    rw [hnext]
    cases arities t.lexeme == some .unary <;> rfl
  · unfold State.isPrefixOp
    split
    · rfl
    · rfl
    · exact absurd ‹_› hname
    · rfl

/-- An operand is taken alike before other tokens that could begin an operand, or could not. -/
theorem takeOperand_next (h : State.takeOperand arities stack done t next = .ok s')
    (hnext : startsOperand next' = s'.operand?.isNone) :
    State.takeOperand arities stack done t next' = .ok s' := by
  have hp := isPrefixOp_next h hnext
  rw [State.takeOperand] at h ⊢
  rwa [hp]

/-- Any other token is taken alike before such tokens. -/
theorem takeOther_next {e : Expr} (h : State.takeOther arities stack e done t next = .ok s')
    (hnext : startsOperand next' = s'.operand?.isNone) :
    State.takeOther arities stack e done t next' = .ok s' := by
  unfold State.takeOther at h ⊢
  split at h
  · exact h
  · exact takeOperand_next h hnext

/-- A step is the same before other tokens that could begin an operand, or could not. -/
theorem step_next (h : s.step arities t next = .ok s')
    (hnext : startsOperand next' = s'.operand?.isNone) : s.step arities t next' = .ok s' := by
  obtain ⟨stack, operand?, done⟩ := s
  cases operand? with
  | none => exact takeOperand_next h hnext
  | some e =>
    by_cases hdollar : t.kind = .dollar
    · simpa only [State.step, if_pos hdollar] using h
    by_cases hop : State.isBinaryOp arities t = true
    · simpa only [State.step, if_neg hdollar, if_pos hop] using h
    · simp only [State.step, if_neg hdollar, if_neg hop] at h ⊢
      exact takeOther_next h hnext

/-- Tokens are taken alike before any token that begins an operand exactly if one is expected. -/
theorem take_next {ts : List Token} (h : s.take arities next ts = .ok s')
    (hnext : startsOperand next' = s'.operand?.isNone) : s.take arities next' ts = .ok s' := by
  induction ts generalizing s with
  | nil => exact h
  | cons t ts ih =>
    rw [State.take] at h ⊢
    cases hs : s.step arities t ((ts.head?.map Token.kind).getD next) with
    | error e =>
      rw [hs] at h
      cases h
    | ok s₁ =>
      rw [hs] at h
      cases ts with
      | nil =>
        cases h
        have hstep : s.step arities t next' = .ok s' := step_next hs hnext
        exact congrArg (· >>= _) hstep
      | cons u us =>
        have hstep : s.step arities t u.kind = .ok s₁ := hs
        exact (congrArg (· >>= _) hstep).trans (ih h)

end Next

/-! ### A way to the end -/

namespace Bracket

/-- The token that closes the group. -/
def closingToken (bracket : Bracket) : Token := ⟨bracket.closer, bracket.closing, 0, 0⟩

/-- A closing bracket is a lexeme. -/
theorem lexeme_closingToken (bracket : Bracket) :
    Lexeme bracket.closingToken.kind bracket.closingToken.lexeme.toList := by
  cases bracket <;> exact .symbol (by decide)

end Bracket

/-- The shortest literal. -/
def Token.one : Token := ⟨.number, "1", 0, 0⟩

namespace Frame

/-- The tokens that close the groups of the stack, the innermost first. -/
def closers : List Frame → List Token
  | []                    => []
  | group _ bracket :: fs => bracket.closingToken :: closers fs
  | prefixOp _ :: fs      => closers fs
  | binary .. :: fs       => closers fs
  | assign .. :: fs       => closers fs
  | argument .. :: fs     => closers fs

/-- The first closer is that of the group which is left when the frames above it are finished. -/
theorem closeAll_closers (e : Expr) (stack : List Frame) :
    (∃ e', closeAll e stack = (e', []) ∧ closers stack = []) ∨
      ∃ e' opener bracket fs, closeAll e stack = (e', .group opener bracket :: fs) ∧
        closers stack = bracket.closingToken :: closers fs := by
  induction stack generalizing e with
  | nil => exact .inl ⟨e, rfl, rfl⟩
  | cons frame fs ih =>
    cases frame with
    | group opener bracket => exact .inr ⟨e, opener, bracket, fs, rfl, rfl⟩
    | prefixOp op => exact ih (.unary op e)
    | binary left op => exact ih (.binary left op e)
    | assign target op => exact ih (.binary (.name target) op e)
    | argument callee dollar => exact ih (.call callee dollar e)

theorem mem_closers {stack : List Frame} {t : Token} (h : t ∈ closers stack) :
    ∃ bracket : Bracket, t = bracket.closingToken := by
  induction stack with
  | nil => cases h
  | cons frame fs ih =>
    cases frame with
    | group opener bracket =>
      rcases List.mem_cons.mp h with rfl | h
      · exact ⟨bracket, rfl⟩
      · exact ih h
    | prefixOp | binary | assign | argument => exact ih h

end Frame

/-- Tokens with which the parse can be brought to an end. -/
def Expr.State.completion (s : State) : List Token :=
  match s.operand? with
  | none   => .one :: Frame.closers s.stack
  | some _ => Frame.closers s.stack

section Completion

variable {arities : Arities} {stop : Token} {s : State}

/-- After an operand, the closers of the open groups end the parse. -/
theorem run_closers (stack : List Frame) (e : Expr) (done : List Expr) :
    ∃ forest, State.run arities stop ⟨stack, some e, done⟩ (Frame.closers stack) = .ok forest := by
  generalize hcs : Frame.closers stack = cs
  induction cs generalizing stack e with
  | nil =>
    rcases Frame.closeAll_closers e stack with ⟨e', hclose, -⟩ | ⟨e', o, b, fs, -, hcons⟩
    · exact ⟨(e' :: done).reverse, by simp [State.run, State.finish, hclose]⟩
    · cases hcs.symm.trans hcons
  | cons c cs ih =>
    rcases Frame.closeAll_closers e stack with ⟨e', -, hnil⟩ | ⟨e', o, b, fs, hclose, hcons⟩
    · cases hcs.symm.trans hnil
    · obtain ⟨rfl, rfl⟩ := List.cons.inj (hcs.symm.trans hcons)
      rw [run_closer rfl hclose]
      exact ih fs (.group o e' b.closingToken) rfl

/-- From every state there is a way to the end. -/
theorem run_completion (s : State) :
    ∃ forest, State.run arities stop s s.completion = .ok forest := by
  obtain ⟨stack, operand?, done⟩ := s
  cases operand? with
  | none =>
    have hone : Token.one.literal? = some (.integer 1) := by decide
    obtain ⟨forest, hrun⟩ := @run_closers arities stop stack (.literal .one (.integer 1)) done
    exact ⟨forest, (run_literal hone).trans hrun⟩
  | some e => exact run_closers stack e done

/-- The completion begins with an operand exactly if one is expected. -/
theorem startsOperand_completion (s : State) (hstop : stop.kind = .endOfInput) :
    startsOperand (s.completion.head?.getD stop).kind = s.operand?.isNone := by
  obtain ⟨stack, operand?, done⟩ := s
  cases operand? with
  | none => rfl
  | some e =>
    show startsOperand ((Frame.closers stack).head?.getD stop).kind = false
    cases hcs : Frame.closers stack with
    | nil => simp [hstop, startsOperand]
    | cons c cs =>
      obtain ⟨bracket, rfl⟩ := Frame.mem_closers (hcs ▸ List.mem_cons_self)
      cases bracket <;> rfl

/-- The way to the end is made of lexemes. -/
theorem lexeme_completion (s : State) :
    ∀ t ∈ s.completion, Lexeme t.kind t.lexeme.toList := by
  have hclosers {stack : List Frame} :
      ∀ t ∈ Frame.closers stack, Lexeme t.kind t.lexeme.toList := by
    intro t ht
    obtain ⟨bracket, rfl⟩ := Frame.mem_closers ht
    exact bracket.lexeme_closingToken
  obtain ⟨stack, operand?, done⟩ := s
  cases operand? with
  | none =>
    have hone : Lexeme Token.one.kind Token.one.lexeme.toList :=
      .whole ⟨by decide, List.all_eq_true.mp (by decide)⟩
    exact List.forall_mem_cons.mpr ⟨hone, hclosers⟩
  | some e => exact hclosers

/-- What has been taken can be continued to the end. -/
theorem run_append_completion {next : TokenKind} {ts : List Token}
    (h : State.initial.take arities next ts = .ok s) (hstop : stop.kind = .endOfInput) :
    ∃ forest, State.run arities stop .initial (ts ++ s.completion) = .ok forest := by
  rw [run_append, take_next h (startsOperand_completion s hstop)]
  exact run_completion s

end Completion

/-- Lexemes that the machine has taken are viable. -/
theorem viable_of_take {arities : Arities} {next : TokenKind} {ts : List Token} {s : State}
    (hlex : ∀ t ∈ ts, Lexeme t.kind t.lexeme.toList)
    (h : State.initial.take arities next ts = .ok s) : Viable arities ts := by
  have hlex' : ∀ t ∈ ts ++ s.completion, Lexeme t.kind t.lexeme.toList :=
    fun t ht => (List.mem_append.mp ht).elim (hlex t) (lexeme_completion s t)
  obtain ⟨source, hfaults, htokens⟩ := exists_source hlex'
  obtain ⟨forest, hrun⟩ := run_append_completion h (show Token.ending.kind = _ from rfl)
  -- the source has the tokens of a run that succeeds, at places of its own
  have hparse : Expr.parse arities (ts ++ s.completion ++ [.ending]) = .ok forest := by
    rw [Expr.parse, body_append_stop (fun t ht => (hlex' t ht).kind_ne_end) rfl]
    exact hrun
  have hsame : (scan source).tokens.map Token.unplaced =
      (ts ++ s.completion ++ [Token.ending]).map Token.unplaced := by
    rw [htokens, List.map_append, List.map_append, List.map_append, List.map_singleton,
      Token.unplaced_ending]
  have hresult := parse_unplaced_congr arities hsame
  rw [hparse] at hresult
  cases hscan : Expr.parse arities (scan source).tokens with
  | error e =>
    rw [hscan] at hresult
    cases hresult
  | ok forest' =>
    refine ⟨source, forest', hfaults, ?_, hscan⟩
    rw [htokens, List.map_append, List.append_assoc]
    exact List.prefix_append _ _

/-! ### No way on -/

section Stuck

variable {arities : Arities} {f : Token → Token} {g : SyntaxError → SyntaxError}

/-- Taking several tokens does not depend on their places. -/
theorem take_relocate (hm : Moves f g) (next : TokenKind) (s : State) (ts : List Token) :
    (s.relocate f).take arities next (ts.map f) =
      relocateResult g (State.relocate f) (s.take arities next ts) := by
  induction ts generalizing s with
  | nil => rfl
  | cons t ts ih =>
    have hnext : ((ts.map f).head?.map Token.kind).getD next =
        (ts.head?.map Token.kind).getD next := by
      cases ts with
      | nil => rfl
      | cons u us => exact hm.kind u
    rw [List.map_cons, State.take, State.take, hnext, step_relocate hm]
    cases s.step arities t ((ts.head?.map Token.kind).getD next) with
    | ok s' => exact ih s'
    | error e => rfl

/-- Before the end of input or after it, the token behind the first ones is in view. -/
theorem body_append_cons {ts : List Token} (hts : ∀ t ∈ ts, t.kind ≠ .endOfInput) (u : Token)
    (us : List Token) : ∃ rest, (Expr.body (ts ++ u :: us)).1 = ts ++ rest ∧
      (rest.head?.getD (Expr.body (ts ++ u :: us)).2).kind = u.kind := by
  by_cases hu : u.kind = .endOfInput
  · rw [body_append_stop hts hu]
    exact ⟨[], (List.append_nil ts).symm, rfl⟩
  · refine ⟨u :: us.takeWhile (·.kind ≠ .endOfInput), ?_, rfl⟩
    show (ts ++ u :: us).takeWhile (·.kind ≠ .endOfInput) = _
    rw [List.takeWhile_append_of_pos (by simpa using hts),
      List.takeWhile_cons_of_pos (by simpa using hu)]

variable {before us more : List Token} {t u : Token} {s : State} {error : SyntaxError}

/-- Tokens without places are taken as the placed ones are. -/
theorem take_unplaced {next : TokenKind} (h : State.initial.take arities next before = .ok s) :
    State.initial.take arities next (before.map Token.unplaced) =
      .ok (s.relocate Token.unplaced) := by
  have hmoved := @take_relocate arities _ _ moves_unplaced next .initial before
  rwa [h] at hmoved

/-- Whatever stands behind the end of input, a parse that cannot end there fails. -/
theorem parse_ne_ok_of_finish (hbefore : ∀ u ∈ before, u.kind ≠ .endOfInput)
    (ht : t.kind = .endOfInput) (htake : State.initial.take arities t.kind before = .ok s)
    (h : s.finish t = .error error)
    (hus : us.map Token.unplaced = before.map Token.unplaced ++ t.unplaced :: more)
    (forest : List Expr) : Expr.parse arities us ≠ .ok forest := by
  intro hparse
  have hresult := unplacedResult_parse arities us
  have hfinish := finish_relocate moves_unplaced s t
  rw [h] at hfinish
  have hbody := @body_append_stop (before.map Token.unplaced) more t.unplaced
    (by simpa using hbefore) ht
  rw [hparse, hus, hbody] at hresult
  cases hresult.trans (run_of_finish_error (take_unplaced htake) hfinish)

/-- Whatever stands behind `u`, a parse that cannot take `t` with `u` in view fails. -/
theorem parse_ne_ok_of_step (hbefore : ∀ u ∈ before, u.kind ≠ .endOfInput)
    (ht : t.kind ≠ .endOfInput) (htake : State.initial.take arities t.kind before = .ok s)
    (h : s.step arities t u.kind = .error error)
    (hus : us.map Token.unplaced =
      before.map Token.unplaced ++ t.unplaced :: u.unplaced :: more)
    (forest : List Expr) : Expr.parse arities us ≠ .ok forest := by
  intro hparse
  have hresult := unplacedResult_parse arities us
  have hstep := @step_relocate _ _ arities moves_unplaced s t u.kind
  rw [h] at hstep
  have hkinds : ∀ v ∈ before.map Token.unplaced ++ [t.unplaced], v.kind ≠ .endOfInput := by
    simpa [or_imp, forall_and] using ⟨hbefore, ht⟩
  rw [List.append_cons] at hus
  obtain ⟨rest, hbody, hview⟩ := body_append_cons hkinds u.unplaced more
  have hview' : (rest.head?.getD (Expr.body (us.map Token.unplaced)).2.unplaced).kind = u.kind := by
    rw [hus]
    cases rest <;> exact hview
  rw [hparse, hus, hbody, ← hus, ← List.append_cons] at hresult
  rw [← hview'] at hstep
  cases hresult.trans (run_of_step_error (take_unplaced htake) hstep)

/-- Where the machine is stuck, the tokens up to the one in view are dead. -/
theorem dead_of_stuck {behind : List Token} (hbefore : ∀ u ∈ before, u.kind ≠ .endOfInput)
    (hend : t.kind = .endOfInput ↔ behind = [])
    (htake : State.initial.take arities t.kind before = .ok s)
    (hstuck : Stuck arities s error t behind) : Dead arities (before ++ t :: behind.take 1) := by
  rintro us forest ⟨more, hmore⟩
  rw [List.map_append, List.append_assoc] at hmore
  cases behind with
  | nil => exact parse_ne_ok_of_finish hbefore (hend.mpr rfl) htake hstuck hmore.symm forest
  | cons u behind =>
    have ht : t.kind ≠ .endOfInput := fun h => by cases hend.mp h
    exact parse_ne_ok_of_step hbefore ht htake hstuck hmore.symm forest

end Stuck

/-! ### The tokens of a source -/

section Source

variable {source : String}

/-- The end of input is the last token, and no other is one. -/
theorem end_of_scan {before behind : List Token} {t : Token}
    (hscan : (scan source).tokens = before ++ t :: behind) :
    (∀ u ∈ before, u.kind ≠ .endOfInput) ∧ (t.kind = .endOfInput ↔ behind = []) := by
  obtain ⟨ts, stop, hts, hstop, hkinds⟩ := scan_tokens_eq source
  rw [hscan] at hts
  rcases List.eq_nil_or_concat behind with rfl | ⟨init, last, rfl⟩
  · obtain ⟨rfl, ht⟩ := List.append_inj' hts rfl
    cases ht
    exact ⟨hkinds, by simp [hstop]⟩
  · rw [List.concat_eq_append, ← List.cons_append, ← List.append_assoc] at hts
    obtain ⟨rfl, -⟩ := List.append_inj' hts rfl
    exact ⟨fun u hu => hkinds u (by simp [hu]), by simpa using hkinds t (by simp)⟩

/-- The tokens of a source stand one after the other. -/
theorem tokens_pairwise (source : String) :
    (scan source).tokens.Pairwise fun t u => t.offset < u.offset := by
  refine List.pairwise_filterMap.mpr ?_
  refine (tiles_items source).pairwise.imp fun hij t ht u hu => ?_
  rw [Item.token?_eq_some.mp ht, Item.token?_eq_some.mp hu] at hij
  exact hij.1

/-- No two tokens of a source begin at the same place. -/
theorem index_unique {i j : Nat} {t u : Token} (ht : (scan source).tokens[i]? = some t)
    (hu : (scan source).tokens[j]? = some u) (h : u.offset = t.offset) : j = i := by
  obtain ⟨hi, rfl⟩ := List.getElem?_eq_some_iff.mp ht
  obtain ⟨hj, rfl⟩ := List.getElem?_eq_some_iff.mp hu
  have hlt := List.pairwise_iff_getElem.mp (tokens_pairwise source)
  rcases Nat.lt_trichotomy j i with hji | heq | hij
  · have := hlt j i hj hi hji
    omega
  · exact heq
  · have := hlt i j hi hj hij
    omega

/-- **The first offending token.**  An error of the parser is at one token of the source, number
`i`.  All the tokens before it can be continued to a source that parses, also where the nesting is
at its limit; nothing that parses begins with the tokens up to it and the one after it. -/
theorem parse_fails_at_first_offending {arities : Arities} {error : SyntaxError}
    (h : Expr.parse arities (scan source).tokens = .error error) :
    ∃ i t, (scan source).tokens[i]? = some t ∧ error = .atToken t error.fault ∧
      (∀ j u, (scan source).tokens[j]? = some u → u.offset = error.span.offset → j = i) ∧
      (∀ j ≤ i, Viable arities ((scan source).tokens.take j)) ∧
      Dead arities ((scan source).tokens.take (i + 2)) := by
  obtain ⟨before, t, behind, s, hscan, htake, hstuck⟩ := parse_scan_eq_error h
  obtain ⟨fault, rfl, -⟩ := hstuck.failsAt
  obtain ⟨hbefore, hend⟩ := end_of_scan hscan
  have ht : (scan source).tokens[before.length]? = some t := by simp [hscan]
  have hlex : ∀ u ∈ before, Lexeme u.kind u.lexeme.toList := by
    intro u hu
    have hmem : u ∈ (scan source).tokens := by simp [hscan, hu]
    exact lexeme_of_scan hmem (hbefore u hu)
  refine ⟨before.length, t, ht, rfl, fun j u hu => index_unique ht hu, fun j hj => ?_, ?_⟩
  · have hinit : (scan source).tokens.take j <+: before := by
      rw [hscan, List.take_append_of_le_length hj]
      exact List.take_prefix j before
    exact (viable_of_take hlex htake).mono hinit
  · have htaken : (scan source).tokens.take (before.length + 2) = before ++ t :: behind.take 1 := by
      rw [hscan, List.take_length_add_append]
      rfl
    rw [htaken]
    exact dead_of_stuck hbefore hend htake hstuck

end Source

/-- In a group that a name bound to a unary operator begins, the second operand has no place. -/
theorem parse_fails_at_first_offending_group :
    let arities : Arities := fun name => if name = "f" then some .unary else none
    let tokens := (scan "(f 2 3)").tokens
    let error := SyntaxError.atToken ⟨.number, "3", 5, 1⟩ (.expectCloser .round)
    Expr.parse arities tokens = .error error ∧
      ∃ i t, tokens[i]? = some t ∧ error = .atToken t error.fault ∧
        (∀ j u, tokens[j]? = some u → u.offset = error.span.offset → j = i) ∧
        (∀ j ≤ i, Viable arities (tokens.take j)) ∧ Dead arities (tokens.take (i + 2)) := by
  intro arities tokens error
  have htokens : tokens = [⟨.leftParen, "(", 0, 1⟩, ⟨.identifier, "f", 1, 1⟩, ⟨.number, "2", 3, 1⟩,
      ⟨.number, "3", 5, 1⟩, ⟨.rightParen, ")", 6, 1⟩, ⟨.endOfInput, "", 7, 1⟩] := by
    decide +kernel
  have h : Expr.parse arities tokens = .error error := by
    rw [htokens]
    rfl
  exact ⟨h, parse_fails_at_first_offending h⟩

end ListCalc
