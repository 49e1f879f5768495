import ListCalc.Expr.Parse

/-!
# Proofs — where a parse fails

A step of the machine fails at the token that it takes, and the end of a parse at the end of input
(`FailsAt`).  So a run that fails has taken every token before the one that it fails at, where it is
`Stuck` (`run_eq_error`).

`State.take` takes tokens with more tokens behind them, of which it sees only the kind of the first;
a run over appended tokens is a run over the second ones after it (`run_append`).
-/

namespace ListCalc

open ListCalc.Expr (State)

/-! ### Steps that fail -/

/-- The kinds of tokens that stand for a constant. -/
def TokenKind.isLiteral : TokenKind → Bool
  | .number | .string | .trueWord | .falseWord | .nullWord => true
  | _                                                      => false

/-- The result, if it is an error, is one at this token, and of an invalid literal only if the token
is one. -/
def FailsAt {α : Type} (t : Token) (result : Except SyntaxError α) : Prop :=
  ∀ error, result = .error error → ∃ fault, error = .atToken t fault ∧
    (fault = .invalidLiteral → t.kind.isLiteral = true ∧ t.literal? = none)

section Steps

variable {arities : Arities} {stop t : Token} {stack : List Frame} {done : List Expr} {e : Expr}
  {next : TokenKind}

theorem failsAt_ok {α : Type} (a : α) : FailsAt t (.ok a) := nofun

/-- Any fault but an invalid literal needs no more than to be at the token. -/
theorem failsAt_error {α : Type} {fault : SyntaxFault} (h : fault ≠ .invalidLiteral) :
    FailsAt t (.error (.atToken t fault) : Except SyntaxError α) := by
  rintro _ ⟨⟩
  exact ⟨fault, rfl, fun heq => absurd heq h⟩

/-- A literal without a constant is a fault of its own token. -/
theorem failsAt_invalidLiteral {α : Type} (hkind : t.kind.isLiteral = true)
    (h : t.literal? = none) :
    FailsAt t (.error (.atToken t .invalidLiteral) : Except SyntaxError α) := by
  rintro _ ⟨⟩
  exact ⟨_, rfl, fun _ => ⟨hkind, h⟩⟩

/-- A frame that nests too deeply fails at the token that begins it. -/
theorem failsAt_enter (frame : Frame) (stack : List Frame) (done : List Expr) :
    FailsAt t (do return ⟨← Frame.enter frame t stack, none, done⟩ : Except SyntaxError State) := by
  unfold Frame.enter
  split
  · exact failsAt_ok _
  · exact failsAt_error nofun

/-- Where an operand is expected, a step fails at the token it takes. -/
theorem failsAt_takeOperand : FailsAt t (State.takeOperand arities stack done t next) := by
  unfold State.takeOperand
  split
  · exact failsAt_enter _ _ _
  · split
    · exact failsAt_ok _
    case h_7 =>
      split
      · exact failsAt_enter _ _ _
      · exact failsAt_error nofun
    -- the five kinds of literal
    all_goals
      rename_i hkind
      split
      · exact failsAt_ok _
      · exact failsAt_invalidLiteral (by rw [hkind]; rfl) ‹_›

/-- At a binary operator, a step fails at the operator. -/
theorem failsAt_takeBinaryOp : FailsAt t (State.takeBinaryOp stack e done t) := by
  unfold State.takeBinaryOp
  dsimp only
  split
  · exact failsAt_enter _ _ _
  · exact failsAt_ok _

/-- At any other token, a step fails at the token it takes. -/
theorem failsAt_takeOther : FailsAt t (State.takeOther arities stack e done t next) := by
  unfold State.takeOther
  split
  · split
    · exact failsAt_ok _
    · exact failsAt_error nofun
  · exact failsAt_takeOperand

/-- A step fails at the token it takes. -/
theorem failsAt_step (s : State) : FailsAt t (s.step arities t next) := by
  unfold State.step
  split
  · exact failsAt_takeOperand
  · split
    · exact failsAt_ok _
    split
    · exact failsAt_takeBinaryOp
    · exact failsAt_takeOther

/-- The end of a parse fails at the end of input. -/
theorem failsAt_finish (s : State) : FailsAt stop (s.finish stop) := by
  unfold State.finish
  split
  · exact failsAt_ok _
  · exact failsAt_error nofun
  · split
    · exact failsAt_error nofun
    · exact failsAt_ok _

end Steps

/-! ### Runs cut in two -/

/-- Takes the tokens, with a token of the kind `next` after them. -/
def Expr.State.take (arities : Arities) (next : TokenKind) (s : State) :
    List Token → Except SyntaxError State
  | []      => .ok s
  | t :: ts => do
    let s ← s.step arities t ((ts.head?.map Token.kind).getD next)
    take arities next s ts

section Runs

variable {arities : Arities} {stop : Token} {error : SyntaxError}

/-- A run over tokens in two parts takes the first part, then the second. -/
theorem run_append (s : State) (ts us : List Token) :
    State.run arities stop s (ts ++ us) = (do
      let s' ← s.take arities (us.head?.getD stop).kind ts
      State.run arities stop s' us) := by
  induction ts generalizing s with
  | nil => rfl
  | cons t ts ih =>
    have hnext : ((ts ++ us).head?.getD stop).kind =
        (ts.head?.map Token.kind).getD (us.head?.getD stop).kind := by
      cases ts <;> rfl
    rw [List.cons_append, State.run, State.take, hnext]
    cases s.step arities t ((ts.head?.map Token.kind).getD (us.head?.getD stop).kind) with
    | error e => rfl
    | ok s' => exact ih s'

/-- A run fails if the state that it comes to cannot take the next token. -/
theorem run_of_step_error {s s' : State} {t : Token} {ts us : List Token}
    (htake : s.take arities t.kind ts = .ok s')
    (h : s'.step arities t (us.head?.getD stop).kind = .error error) :
    State.run arities stop s (ts ++ t :: us) = .error error := by
  rw [run_append, List.head?_cons, Option.getD_some, htake]
  show State.run arities stop s' (t :: us) = _
  rw [State.run, h]
  rfl

/-- A run fails if the state that it comes to cannot end. -/
theorem run_of_finish_error {s s' : State} {ts : List Token}
    (htake : s.take arities stop.kind ts = .ok s') (h : s'.finish stop = .error error) :
    State.run arities stop s ts = .error error := by
  rw [← List.append_nil ts, run_append, List.head?_nil, Option.getD_none, htake]
  exact h

/-- The machine cannot go on at `t`, with `behind` after it.  The end of input is what has nothing
behind it. -/
def Stuck (arities : Arities) (s : State) (error : SyntaxError) (t : Token) : List Token → Prop
  | []     => s.finish t = .error error
  | u :: _ => s.step arities t u.kind = .error error

/-- A stuck run fails at the token it is stuck at. -/
theorem Stuck.failsAt {s : State} {t : Token} {behind : List Token}
    (h : Stuck arities s error t behind) : ∃ fault, error = .atToken t fault ∧
      (fault = .invalidLiteral → t.kind.isLiteral = true ∧ t.literal? = none) := by
  cases behind with
  | nil => exact failsAt_finish s error h
  | cons u us => exact failsAt_step s error h

/-- A run that fails has taken every token before one at which it is stuck. -/
theorem run_eq_error {s : State} {ts : List Token}
    (h : State.run arities stop s ts = .error error) :
    ∃ before t behind s', ts ++ [stop] = before ++ t :: behind ∧
      s.take arities t.kind before = .ok s' ∧ Stuck arities s' error t behind := by
  induction ts generalizing s with
  | nil => exact ⟨[], stop, [], s, rfl, rfl, h⟩
  | cons t ts ih =>
    rw [State.run] at h
    cases hs : s.step arities t (ts.head?.getD stop).kind with
    | error err =>
      rw [hs] at h
      cases h
      refine ⟨[], t, ts ++ [stop], s, rfl, rfl, ?_⟩
      cases ts <;> exact hs
    | ok s' =>
      rw [hs] at h
      obtain ⟨before, u, behind, s'', hsplit, htake, hstuck⟩ := ih h
      refine ⟨t :: before, u, behind, s'', by rw [List.cons_append, hsplit]; rfl, ?_, hstuck⟩
      -- what comes after `t` is the first of the tokens, and so it is the first of `before`
      have hhead : before.head?.getD u = ts.head?.getD stop := by
        have h := congrArg List.head? hsplit
        rw [List.head?_append, List.head?_append] at h
        simpa [Option.or_some] using h.symm
      have hnext : (before.head?.map Token.kind).getD u.kind = (ts.head?.getD stop).kind := by
        rw [← hhead, Option.getD_map]
      rw [State.take, hnext, hs]
      exact htake

end Runs

end ListCalc
