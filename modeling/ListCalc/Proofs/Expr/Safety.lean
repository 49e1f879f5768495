import ListCalc.Proofs.Expr.Routines

/-!
# Proofs — the parser is safe on any tokens

`parse_safe` is about tokens of any kind, which need not come from a source: they may be none, lack
the end of input or have it several times.  On all of them the descent comes to what `Expr.parse`
gives, with fuel that grows with the number of tokens.  All the way its cursor is at a token and its
counter within bounds; whenever a tree is finished, the cursor has moved on and the counter is at
zero.

The tokens of a source parse in the same way without the end of input at their end, apart from the
place of an error there (`parse_dropLast`).
-/

namespace ListCalc

open ListCalc.Expr (State)

/-! ### Tokens closed by the end of input -/

/-- The tokens, with the end of input after them if they do not end with it. -/
def Expr.closed (tokens : List Token) : List Token :=
  if (tokens.getLast?.map Token.kind) = some .endOfInput then tokens
  else tokens ++ [Expr.endAfter tokens]

theorem Expr.kind_endAfter (tokens : List Token) : (Expr.endAfter tokens).kind = .endOfInput := by
  unfold Expr.endAfter
  split <;> rfl

/-- Tokens without an end of input are all parsed. -/
theorem body_of_no_end {tokens : List Token} (h : ∀ t ∈ tokens, t.kind ≠ .endOfInput) :
    Expr.body tokens = (tokens, Expr.endAfter tokens) := by
  have htake := @List.takeWhile_append_of_pos _ (·.kind ≠ .endOfInput) tokens [] (by simpa using h)
  rw [List.append_nil, List.takeWhile_nil, List.append_nil] at htake
  rw [Expr.body, htake, List.find?_eq_none.mpr (by simpa using h)]
  rfl

/-- What is parsed are the tokens up to the first end of input. -/
theorem ends_closed (tokens : List Token) :
    Ends (Expr.closed tokens) (Expr.body tokens).1 (Expr.body tokens).2 := by
  cases hfind : tokens.find? (·.kind = .endOfInput) with
  | some stop =>
    obtain ⟨hstop, before, behind, rfl, hkinds⟩ := List.find?_eq_some_iff_append.mp hfind
    have hstop : stop.kind = .endOfInput := by simpa using hstop
    have hkinds : ∀ t ∈ before, t.kind ≠ .endOfInput := by simpa using hkinds
    rw [body_append_stop hkinds hstop]
    refine ⟨?_, hstop, hkinds⟩
    rw [Expr.closed]
    split
    · exact ⟨behind, rfl⟩
    · exact ⟨behind ++ [Expr.endAfter (before ++ stop :: behind)], by simp⟩
  | none =>
    have hkinds : ∀ t ∈ tokens, t.kind ≠ .endOfInput := by simpa using hfind
    rw [body_of_no_end hkinds]
    refine ⟨⟨[], ?_⟩, Expr.kind_endAfter tokens, hkinds⟩
    rw [Expr.closed, if_neg]
    cases hlast : tokens.getLast? with
    | none => simp
    | some t => simpa using hkinds t (List.mem_of_getLast? hlast)

/-! ### Tree after tree -/

/-- After a finished tree, the token in view begins the next one. -/
theorem run_finished {arities : Arities} {stop : Token} {e : Expr} {done : List Expr}
    {rest : List Token} (hi : ¬ InfixToken arities (rest.head?.getD stop))
    (hdollar : (rest.head?.getD stop).kind ≠ .dollar) :
    State.run arities stop ⟨[], some e, done⟩ rest =
      State.run arities stop ⟨[], none, e :: done⟩ rest := by
  cases rest with
  | nil => rfl
  | cons t rest =>
    rw [List.head?_cons, Option.getD_some] at hi hdollar
    simp only [State.run, State.step, if_neg hdollar, isBinaryOp_eq_false hi, State.takeOther,
      Frame.closeAll, if_neg Bool.false_ne_true]

/-- The start, and the positions at which trees were finished, in order. -/
def Walk.finished (w : Walk) : List Position := ⟨0, 0⟩ :: w.trees.reverse.map Prod.snd

/-- Between each two trees at least one token was taken, and at most `n` tokens in all. -/
structure Walk.Grows (n : Nat) (w : Walk) : Prop where
  pairwise : w.finished.Pairwise fun p q => p.current < q.current
  bound : ∀ p ∈ w.finished, p.current ≤ n
  level : ∀ p ∈ w.finished, p.depth = 0
  count : w.trees.length ≤ n

namespace Walk.Grows

variable {n m : Nat} {w w' : Walk}

/-- The walk begins without trees. -/
theorem start : Walk.start.Grows 0 := by
  constructor <;> simp [Walk.finished, Walk.start]

theorem mono (h : w.Grows n) (hn : n ≤ m) (htrees : w'.trees = w.trees) : w'.Grows m := by
  have hfinished : w'.finished = w.finished := by rw [Walk.finished, Walk.finished, htrees]
  refine ⟨hfinished ▸ h.pairwise, ?_, hfinished ▸ h.level, ?_⟩
  · rw [hfinished]
    exact fun p hp => Nat.le_trans (h.bound p hp) hn
  · rw [htrees]
    exact Nat.le_trans h.count hn

/-- A finished tree has moved the cursor on. -/
theorem push (h : w.Grows n) (htrees : w'.trees = w.trees) (hlt : n < w'.here.current)
    (hlevel : w'.here.depth = 0) (e : Expr) : (w'.push e).Grows w'.here.current := by
  have hfinished : (w'.push e).finished = w.finished ++ [w'.here] := by
    simp [Walk.finished, Walk.push, htrees]
  refine ⟨?_, ?_, ?_, ?_⟩
  · rw [hfinished]
    refine List.pairwise_append.mpr ⟨h.pairwise, List.pairwise_singleton _ _, fun p hp q hq => ?_⟩
    rw [List.mem_singleton.mp hq]
    exact Nat.lt_of_le_of_lt (h.bound p hp) hlt
  · rw [hfinished]
    intro p hp
    rcases List.mem_append.mp hp with hp | hp
    · exact Nat.le_of_lt (Nat.lt_of_le_of_lt (h.bound p hp) hlt)
    · exact Nat.le_of_eq (congrArg Position.current (List.mem_singleton.mp hp))
  · rw [hfinished]
    intro p hp
    rcases List.mem_append.mp hp with hp | hp
    · exact h.level p hp
    · rw [List.mem_singleton.mp hp, hlevel]
  · have hcount : w'.trees.length ≤ n := htrees ▸ h.count
    show (w'.trees).length + 1 ≤ _
    omega

end Walk.Grows

namespace Descent

/-- From tree to tree, the descent does what the machine does. -/
theorem forest_meets {arities : Arities} {tokens ts : List Token} {stop : Token}
    (hends : Ends tokens ts stop) (fuel : Nat) {w : Walk} {done : List Expr}
    (hw : w.Sound ts []) (hgrows : w.Grows w.here.current) (hdone : w.trees.map Prod.fst = done)
    (hfuel : 6 * (w.rest ts).length + 6 ≤ fuel) :
    Meets
      (fun trees w' => w'.Sound ts [] ∧ w'.Grows ts.length ∧
        trees = w'.trees.reverse.map Prod.fst ∧
        State.run arities stop ⟨[], none, done⟩ (w.rest ts) = .ok trees)
      (fun error w' => w'.Sound ts [] ∧ w'.Grows ts.length ∧
        State.run arities stop ⟨[], none, done⟩ (w.rest ts) = .error error)
      (forest arities tokens fuel w) := by
  induction fuel generalizing w done with
  | zero => omega
  | succ fuel ih =>
    rw [forest, bind_of_ok (isAtEnd_apply hends hw)]
    cases hrest : w.rest ts with
    | nil =>
      refine ⟨hw, hgrows.mono hw.current_le rfl, rfl, ?_⟩
      show State.finish ⟨[], none, done⟩ stop = _
      rw [List.map_reverse, hdone]
      rfl
    | cons t rest =>
      have hbinary := @descend_correct arities tokens ts stop hends fuel (.binary true) w
        (by simp only [Routine.need, Routine.rank]; omega) [] done hw
        ⟨fun _ => by simp [hrest], trivial, rfl⟩
      rw [← hrest, if_neg (by simp [hrest])]
      refine Meets.bind (hbinary.mono (fun _ _ h => h) fun error w₁ h₁ =>
        ⟨h₁.sound, hgrows.mono hw.current_le h₁.trees, h₁.run⟩) ?_
      intro e w₁ h₁
      have htaken : (w₁.rest ts).length + 1 ≤ (w.rest ts).length := h₁.taken
      have hlt : w.here.current < w₁.here.current := by
        have := h₁.sound.current_le
        simp only [Walk.rest, List.length_drop] at htaken
        omega
      have hrun := h₁.run.trans (run_finished h₁.after.1 (h₁.after.2 rfl))
      have hpush : (modify (Walk.push e) : Descent Unit) w₁ = .ok () (w₁.push e) := rfl
      rw [bind_of_ok hpush]
      have hw₁ : (w₁.push e).Sound ts [] := ⟨h₁.sound.valid, h₁.sound.depth⟩
      refine (ih hw₁ (hgrows.push h₁.trees hlt h₁.sound.depth e)
        (by rw [Walk.push, List.map_cons, h₁.trees, hdone]) ?_).mono ?_ ?_
      · show 6 * (w₁.rest ts).length + 6 ≤ fuel
        omega
      · rintro trees w₂ ⟨hw₂, hgrows₂, htrees, hrun₂⟩
        exact ⟨hw₂, hgrows₂, htrees, hrun.trans hrun₂⟩
      · rintro error w₂ ⟨hw₂, hgrows₂, hrun₂⟩
        exact ⟨hw₂, hgrows₂, hrun.trans hrun₂⟩

/-- What a parse gives, as the end of a descent. -/
def outcome (w : Walk) : Except SyntaxError (List Expr) → EStateM.Result Halt Walk (List Expr)
  | .ok trees    => .ok trees w
  | .error error => .error (.fault error) w

/-- Fuel for so many tokens. -/
def enough (tokens : List Token) : Nat := 6 * tokens.length + 6

end Descent

/-- What holds of a walk over the tokens from its start to its end, however it ends. -/
structure Walk.Safe (tokens : List Token) (w : Walk) : Prop where
  inRange : ∀ p ∈ w.here :: w.trail, p.current < (Expr.closed tokens).length
  depth : ∀ p ∈ w.here :: w.trail, 0 ≤ p.depth ∧ p.depth ≤ maxNesting
  pairwise : w.finished.Pairwise fun p q => p.current < q.current
  level : ∀ p ∈ w.finished, p.depth = 0
  count : w.trees.length ≤ tokens.length

/-- A sound walk with growing trees is safe. -/
theorem Walk.Sound.safe {tokens : List Token} {w : Walk} (h : w.Sound (Expr.body tokens).1 [])
    (hgrows : w.Grows (Expr.body tokens).1.length) : w.Safe tokens := by
  obtain ⟨more, hmore⟩ := (ends_closed tokens).split
  have hbody : (Expr.body tokens).1.length ≤ tokens.length := (List.takeWhile_sublist _).length_le
  refine ⟨fun p hp => ?_, fun p hp => (h.valid p hp).depth, hgrows.pairwise, hgrows.level,
    Nat.le_trans hgrows.count hbody⟩
  have hcurrent := (h.valid p hp).current
  rw [hmore]
  simp only [List.length_append, List.length_cons]
  omega

/-- On any tokens the descent comes to the result of the parse, by a safe walk. -/
theorem forest_eq_outcome (arities : Arities) (tokens : List Token) (more : Nat) : ∃ w : Walk,
    Descent.forest arities (Expr.closed tokens) (Descent.enough tokens + more) .start =
        Descent.outcome w (Expr.parse arities tokens) ∧
      (∀ trees, Expr.parse arities tokens = .ok trees → trees = w.trees.reverse.map Prod.fst) ∧
      w.Safe tokens := by
  have hbody : (Expr.body tokens).1.length ≤ tokens.length := (List.takeWhile_sublist _).length_le
  have hstart : Walk.start.Sound (Expr.body tokens).1 [] := by
    refine ⟨fun p hp => ?_, rfl⟩
    rw [List.mem_singleton.mp hp]
    exact ⟨Nat.zero_le _, by decide⟩
  have hfuel : 6 * (Walk.start.rest (Expr.body tokens).1).length + 6 ≤
      Descent.enough tokens + more := by
    simp only [Walk.rest, Walk.start, List.drop_zero, Descent.enough]
    omega
  have hmeets := @Descent.forest_meets arities _ _ _ (ends_closed tokens) _ _ _ hstart .start rfl
    hfuel
  have hparse : Expr.parse arities tokens = State.run arities (Expr.body tokens).2 ⟨[], none, []⟩
    (Walk.start.rest (Expr.body tokens).1) := rfl
  rw [show Walk.start.trees.map Prod.fst = ([] : List Expr) from rfl, ← hparse] at hmeets
  obtain ⟨trees, w, hresult, hw, hgrows, htrees, hrun⟩ | ⟨error, w, hresult, hw, hgrows, hrun⟩ :=
    hmeets.cases
  · rw [hresult, hrun]
    refine ⟨w, rfl, ?_, hw.safe hgrows⟩
    rintro _ ⟨⟩
    exact htrees
  · rw [hresult, hrun]
    refine ⟨w, rfl, ?_, hw.safe hgrows⟩
    rintro _ ⟨⟩

/-! ### Without the end of input -/

/-- The results are the same, but for the place of an error at the end of input. -/
inductive SameButEnd : Except SyntaxError (List Expr) → Except SyntaxError (List Expr) → Prop where
  | ok (trees : List Expr) : SameButEnd (.ok trees) (.ok trees)
  | error (error : SyntaxError) : SameButEnd (.error error) (.error error)
  | atEnd {error error' : SyntaxError} : error.location = .endOfInput →
      error'.location = .endOfInput → error'.fault = error.fault →
      SameButEnd (.error error) (.error error')

section Stop

variable {arities : Arities} {stop stop' : Token}

/-- A parse ends alike whatever stands for the end of input. -/
theorem finish_sameButEnd (hstop : stop.kind = .endOfInput) (hstop' : stop'.kind = .endOfInput)
    (s : State) : SameButEnd (s.finish stop) (s.finish stop') := by
  have hfail (fault : SyntaxFault) :
      SameButEnd (.error (.atToken stop fault)) (.error (.atToken stop' fault)) :=
    .atEnd (if_pos hstop) (if_pos hstop') rfl
  unfold State.finish
  split
  · exact .ok _
  · exact hfail _
  · split
    · exact hfail _
    · exact .ok _

/-- Until its end, a run does not depend on where the end of input is. -/
theorem run_sameButEnd (hstop : stop.kind = .endOfInput) (hstop' : stop'.kind = .endOfInput)
    (s : State) (ts : List Token) :
    SameButEnd (State.run arities stop s ts) (State.run arities stop' s ts) := by
  induction ts generalizing s with
  | nil => exact finish_sameButEnd hstop hstop' s
  | cons t ts ih =>
    have hnext : (ts.head?.getD stop').kind = (ts.head?.getD stop).kind := by
      cases ts with
      | nil => exact hstop'.trans hstop.symm
      | cons u us => rfl
    rw [State.run, State.run, hnext]
    cases s.step arities t (ts.head?.getD stop).kind with
    | ok s' => exact ih s'
    | error error => exact .error error

end Stop

/-- A source without the end of input at the end of its tokens. -/
theorem parse_dropLast (arities : Arities) (source : String) :
    SameButEnd (Expr.parse arities (scan source).tokens)
      (Expr.parse arities (scan source).tokens.dropLast) := by
  obtain ⟨ts, stop, hscan, hstop, hts⟩ := scan_tokens_eq source
  rw [hscan, List.dropLast_concat, Expr.parse, Expr.parse, body_append_stop hts hstop,
    body_of_no_end hts]
  exact run_sameButEnd hstop (Expr.kind_endAfter ts) .initial ts

/-- **The parser is safe.**  On any tokens and any arities, the descent ends with the result of the
parse, if it has the fuel for their number; its cursor is always at a token, its counter never below
zero or above the limit, and at every finished tree the cursor has moved on and the counter is zero.
So there are no more trees than tokens.  For a source, the end of input at the end of its tokens
only matters for the place of an error there. -/
theorem parse_safe (arities : Arities) :
    (∀ tokens more, ∃ w : Walk,
      Descent.forest arities (Expr.closed tokens) (Descent.enough tokens + more) .start =
          Descent.outcome w (Expr.parse arities tokens) ∧
        (∀ trees, Expr.parse arities tokens = .ok trees →
          trees = w.trees.reverse.map Prod.fst) ∧
        w.Safe tokens) ∧
    ∀ source, SameButEnd (Expr.parse arities (scan source).tokens)
      (Expr.parse arities (scan source).tokens.dropLast) :=
  ⟨forest_eq_outcome arities, parse_dropLast arities⟩

end ListCalc
