import ListCalc.Proofs.Expr.Placement
import ListCalc.Proofs.Expr.Reading

/-!
# Proofs — the parser does not look at places

Where `f` only moves tokens, and `g` moves an error with the token that it stands at (`Moves`), the
machine over moved tokens does what it does over the tokens as they are, moved: every step
(`step_relocate`), the end (`finish_relocate`) and so every run (`run_relocate`).

`Token.unplaced` forgets where a token stands.  Two vectors of tokens with the same kinds and
lexemes parse to the same result, up to places (`parse_unplaced_congr`).
-/

namespace ListCalc

open ListCalc.Expr (State)

/-- The function `f` moves tokens, and `g` moves the errors that stand at them. -/
structure Moves (f : Token → Token) (g : SyntaxError → SyntaxError) : Prop extends KeepsText f where
  error : ∀ t fault, g (.atToken t fault) = .atToken (f t) fault

/-- The result with its value changed by `h` and its error by `g`. -/
def relocateResult {α β : Type} (g : SyntaxError → SyntaxError) (h : α → β) :
    Except SyntaxError α → Except SyntaxError β
  | .ok a    => .ok (h a)
  | .error e => .error (g e)

/-! ### Stacks -/

namespace Frame

/-- The frame with every token `t` replaced by `f t`. -/
def relocate (f : Token → Token) : Frame → Frame
  | group opener bracket   => group (f opener) bracket
  | prefixOp op            => prefixOp (f op)
  | binary left op         => binary (left.relocate f) (f op)
  | assign target op       => assign (f target) (f op)
  | argument callee dollar => argument (callee.relocate f) (f dollar)

/-- The tree and the stack, both with every token `t` replaced by `f t`. -/
def relocateTop (f : Token → Token) (top : Expr × List Frame) : Expr × List Frame :=
  (top.1.relocate f, top.2.map (relocate f))

variable {f : Token → Token}

theorem nests_relocate (frame : Frame) : (frame.relocate f).nests = frame.nests := by
  cases frame <;> rfl

/-- Moved frames are nested as deeply. -/
theorem depth_relocate (stack : List Frame) : depth (stack.map (relocate f)) = depth stack := by
  rw [depth, depth, List.countP_map]
  exact List.countP_congr fun frame _ => by rw [Function.comp_apply, nests_relocate]

/-- Whether `$` chains does not depend on places. -/
theorem chains_relocate (stack : List Frame) : chains (stack.map (relocate f)) = chains stack := by
  induction stack with
  | nil => rfl
  | cons frame fs ih =>
    cases frame with
    | group | argument => rfl
    | prefixOp | binary | assign => exact ih

/-- Prefix operators are finished alike wherever they stand. -/
theorem closePrefixes_relocate (e : Expr) (stack : List Frame) :
    closePrefixes (e.relocate f) (stack.map (relocate f)) =
      relocateTop f (closePrefixes e stack) := by
  induction stack generalizing e with
  | nil => rfl
  | cons frame fs ih =>
    cases frame with
    | prefixOp op => exact ih (.unary op e)
    | _ => rfl

/-- Operands are finished alike wherever they stand. -/
theorem closeOperand_relocate (e : Expr) (stack : List Frame) :
    closeOperand (e.relocate f) (stack.map (relocate f)) =
      relocateTop f (closeOperand e stack) := by
  rw [closeOperand, closeOperand, closePrefixes_relocate]
  obtain ⟨e', fs⟩ := closePrefixes e stack
  cases fs with
  | nil => rfl
  | cons frame fs => cases frame <;> rfl

/-- Arguments are finished alike wherever they stand. -/
theorem closeArgument_relocate (e : Expr) (stack : List Frame) :
    closeArgument (e.relocate f) (stack.map (relocate f)) =
      relocateTop f (closeArgument e stack) := by
  induction stack generalizing e with
  | nil => rfl
  | cons frame fs ih =>
    cases frame with
    | prefixOp op => exact ih (.unary op e)
    | binary left op => exact ih (.binary left op e)
    | assign target op => exact ih (.binary (.name target) op e)
    | _ => rfl

/-- Groups are finished alike wherever they stand. -/
theorem closeAll_relocate (e : Expr) (stack : List Frame) :
    closeAll (e.relocate f) (stack.map (relocate f)) = relocateTop f (closeAll e stack) := by
  induction stack generalizing e with
  | nil => rfl
  | cons frame fs ih =>
    cases frame with
    | prefixOp op => exact ih (.unary op e)
    | binary left op => exact ih (.binary left op e)
    | assign target op => exact ih (.binary (.name target) op e)
    | argument callee dollar => exact ih (.call callee dollar e)
    | group => rfl

end Frame

/-! ### Steps and runs -/

/-- The state with every token `t` replaced by `f t`. -/
def Expr.State.relocate (f : Token → Token) (s : State) : State :=
  ⟨s.stack.map (Frame.relocate f), s.operand?.map (Expr.relocate f), s.done.map (Expr.relocate f)⟩

section Machine

variable {f : Token → Token} {g : SyntaxError → SyntaxError} {arities : Arities}

theorem isPrefixOp_relocate (hm : Moves f g) (t : Token) (next : TokenKind) :
    State.isPrefixOp arities (f t) next = State.isPrefixOp arities t next := by
  rw [State.isPrefixOp, State.isPrefixOp, hm.kind, hm.lexeme]

theorem isBinaryOp_relocate (hm : Moves f g) (t : Token) :
    State.isBinaryOp arities (f t) = State.isBinaryOp arities t := by
  rw [State.isBinaryOp, State.isBinaryOp, hm.kind, hm.lexeme]

/-- Entering a frame and then waiting for an operand. -/
theorem enter_relocate (hm : Moves f g) (frame : Frame) (t : Token) (stack : List Frame)
    (done : List Expr) :
    (do return ⟨← Frame.enter (frame.relocate f) (f t) (stack.map (Frame.relocate f)), none,
        done.map (Expr.relocate f)⟩ : Except SyntaxError State) =
      relocateResult g (State.relocate f)
        (do return ⟨← Frame.enter frame t stack, none, done⟩) := by
  rw [Frame.enter, Frame.enter, Frame.depth_relocate]
  split
  · rfl
  · exact congrArg Except.error (hm.error t .nestedTooDeeply).symm

/-- An operand is taken alike wherever it stands. -/
theorem takeOperand_relocate (hm : Moves f g) (stack : List Frame) (done : List Expr) (t : Token)
    (next : TokenKind) :
    State.takeOperand arities (stack.map (Frame.relocate f)) (done.map (Expr.relocate f)) (f t)
        next =
      relocateResult g (State.relocate f) (State.takeOperand arities stack done t next) := by
  have hfail (fault : SyntaxFault) : (.error (.atToken (f t) fault) : Except SyntaxError State) =
      relocateResult g (State.relocate f) (.error (.atToken t fault)) :=
    congrArg Except.error (hm.error t fault).symm
  rw [State.takeOperand, State.takeOperand, isPrefixOp_relocate hm, hm.kind, hm.literal?]
  split
  · exact enter_relocate hm (.prefixOp t) t stack done
  · split
    · rfl
    case h_7 =>
      split
      · exact enter_relocate hm (.group t _) t stack done
      · exact hfail _
    -- the five kinds of literal
    all_goals
      split
      · rfl
      · exact hfail _

/-- A binary operator is taken alike wherever it stands. -/
theorem takeBinaryOp_relocate (hm : Moves f g) (stack : List Frame) (e : Expr) (done : List Expr)
    (t : Token) :
    State.takeBinaryOp (stack.map (Frame.relocate f)) (e.relocate f) (done.map (Expr.relocate f))
        (f t) =
      relocateResult g (State.relocate f) (State.takeBinaryOp stack e done t) := by
  obtain ⟨e', stack', hclose⟩ : ∃ e' stack', Frame.closeOperand e stack = (e', stack') :=
    ⟨_, _, rfl⟩
  have hclose' : Frame.closeOperand (e.relocate f) (stack.map (Frame.relocate f)) =
      (e'.relocate f, stack'.map (Frame.relocate f)) := by
    rw [Frame.closeOperand_relocate, hclose]
    rfl
  cases has : e'.assignsName t with
  | true =>
    obtain ⟨target, rfl, hop⟩ := Expr.assignsName_eq_true has
    rw [takeBinaryOp_of_assigns hop hclose, takeBinaryOp_of_assigns (by rwa [hm.kind]) hclose']
    exact enter_relocate hm (.assign target t) t stack' done
  | false =>
    have has' : (e'.relocate f).assignsName (f t) = false := by
      rwa [Expr.assignsName_relocate hm.toKeepsText]
    rw [takeBinaryOp_of_joins hclose has, takeBinaryOp_of_joins hclose' has']
    rfl

/-- The token `$` is taken alike wherever it stands. -/
theorem takeDollar_relocate (stack : List Frame) (e : Expr) (done : List Expr) (t : Token) :
    State.takeDollar (stack.map (Frame.relocate f)) (e.relocate f) (done.map (Expr.relocate f))
        (f t) =
      (State.takeDollar stack e done t).relocate f := by
  rw [State.takeDollar, State.takeDollar, Frame.chains_relocate, Frame.closeArgument_relocate]
  cases Frame.chains stack <;> rfl

/-- Any other token is taken alike wherever it stands. -/
theorem takeOther_relocate (hm : Moves f g) (stack : List Frame) (e : Expr) (done : List Expr)
    (t : Token) (next : TokenKind) :
    State.takeOther arities (stack.map (Frame.relocate f)) (e.relocate f)
        (done.map (Expr.relocate f)) (f t) next =
      relocateResult g (State.relocate f) (State.takeOther arities stack e done t next) := by
  have hnext (e : Expr) := @takeOperand_relocate f g arities hm [] (e :: done) t next
  rw [State.takeOther, State.takeOther, Frame.closeAll_relocate, hm.kind]
  obtain ⟨e', fs⟩ := Frame.closeAll e stack
  cases fs with
  | nil => exact hnext e'
  | cons frame fs =>
    cases frame with
    | group opener bracket =>
      by_cases hcloser : t.kind = bracket.closer
      · simp only [Frame.relocateTop, List.map_cons, Frame.relocate, if_pos hcloser]
        rfl
      · simp only [Frame.relocateTop, List.map_cons, Frame.relocate, if_neg hcloser]
        exact congrArg Except.error (hm.error t (.expectCloser bracket)).symm
    | prefixOp | binary | assign | argument => exact hnext e'

/-- A step over a moved token is the step over the token, moved. -/
theorem step_relocate (hm : Moves f g) (s : State) (t : Token) (next : TokenKind) :
    (s.relocate f).step arities (f t) next =
      relocateResult g (State.relocate f) (s.step arities t next) := by
  obtain ⟨stack, operand?, done⟩ := s
  cases operand? with
  | none => exact takeOperand_relocate hm stack done t next
  | some e =>
    rw [State.step, State.step]
    dsimp only [State.relocate, Option.map_some]
    rw [hm.kind, isBinaryOp_relocate hm]
    split
    · exact congrArg Except.ok (takeDollar_relocate stack e done t)
    split
    · exact takeBinaryOp_relocate hm stack e done t
    · exact takeOther_relocate hm stack e done t next

/-- A parse ends alike wherever its tokens stand. -/
theorem finish_relocate (hm : Moves f g) (s : State) (stop : Token) :
    (s.relocate f).finish (f stop) =
      relocateResult g (List.map (Expr.relocate f)) (s.finish stop) := by
  have hfail (fault : SyntaxFault) :
      (.error (.atToken (f stop) fault) : Except SyntaxError (List Expr)) =
        relocateResult g (List.map (Expr.relocate f)) (.error (.atToken stop fault)) :=
    congrArg Except.error (hm.error stop fault).symm
  have hdone (es : List Expr) : (.ok (es.map (Expr.relocate f)).reverse : Except SyntaxError _) =
      relocateResult g (List.map (Expr.relocate f)) (.ok es.reverse) := by
    rw [← List.map_reverse]
    rfl
  obtain ⟨stack, operand?, done⟩ := s
  cases operand? with
  | none =>
    cases stack with
    | nil => exact hdone done
    | cons frame fs => exact hfail _
  | some e =>
    simp only [State.finish, State.relocate, Option.map_some, Frame.closeAll_relocate]
    obtain ⟨e', fs⟩ := Frame.closeAll e stack
    cases fs with
    | nil => exact hdone (e' :: done)
    | cons frame fs =>
      cases frame with
      | group opener bracket => exact hfail _
      | prefixOp | binary | assign | argument => exact hdone (e' :: done)

/-- A run over moved tokens is the run over the tokens, moved. -/
theorem run_relocate (hm : Moves f g) (stop : Token) (s : State) (ts : List Token) :
    State.run arities (f stop) (s.relocate f) (ts.map f) =
      relocateResult g (List.map (Expr.relocate f)) (State.run arities stop s ts) := by
  induction ts generalizing s with
  | nil => exact finish_relocate hm s stop
  | cons t ts ih =>
    have hnext : ((ts.map f).head?.getD (f stop)).kind = (ts.head?.getD stop).kind := by
      cases ts <;> exact hm.kind _
    rw [List.map_cons, State.run, State.run, hnext, step_relocate hm]
    cases s.step arities t (ts.head?.getD stop).kind with
    | ok s' => exact ih s'
    | error e => rfl

end Machine

/-! ### Forgetting places -/

/-- The token, wherever it stands. -/
def Token.unplaced (t : Token) : Token := { t with offset := 0, line := 0 }

/-- The error, wherever it stands. -/
def SyntaxError.unplaced (e : SyntaxError) : SyntaxError :=
  { e with line := 0, span := ⟨0, e.span.length⟩ }

/-- What a parse gives, wherever its tokens stand. -/
def unplacedResult : Except SyntaxError (List Expr) → Except SyntaxError (List Expr) :=
  relocateResult SyntaxError.unplaced (List.map (Expr.relocate Token.unplaced))

@[simp] theorem Token.kind_unplaced (t : Token) : t.unplaced.kind = t.kind := rfl

/-- Forgetting places moves every token to the same one. -/
theorem moves_unplaced : Moves Token.unplaced SyntaxError.unplaced :=
  { kind := fun _ => rfl, lexeme := fun _ => rfl, error := fun _ _ => rfl }

/-- The end of input, wherever it stands. -/
def Token.ending : Token := ⟨.endOfInput, "", 0, 0⟩

@[simp] theorem Token.unplaced_ending : Token.ending.unplaced = .ending := rfl

/-- Which tokens are parsed does not depend on places. -/
theorem body_unplaced (ts : List Token) :
    (Expr.body (ts.map Token.unplaced)).1 = (Expr.body ts).1.map Token.unplaced ∧
      (Expr.body (ts.map Token.unplaced)).2.unplaced = (Expr.body ts).2.unplaced := by
  have hend (us : List Token) : (Expr.endAfter us).unplaced = .ending := by
    unfold Expr.endAfter
    split <;> rfl
  constructor
  · exact List.takeWhile_map
  · have hfind : (ts.map Token.unplaced).find? (·.kind = .endOfInput) =
        (ts.find? (·.kind = .endOfInput)).map Token.unplaced := List.find?_map
    rw [Expr.body, Expr.body, hfind]
    cases ts.find? (·.kind = .endOfInput) with
    | some stop => rfl
    | none => exact (hend _).trans (hend _).symm

/-- A parse with its places forgotten is the parse of tokens without places. -/
theorem unplacedResult_parse (arities : Arities) (ts : List Token) :
    unplacedResult (Expr.parse arities ts) =
      State.run arities (Expr.body (ts.map Token.unplaced)).2.unplaced .initial
        (Expr.body (ts.map Token.unplaced)).1 := by
  obtain ⟨htokens, hstop⟩ := body_unplaced ts
  rw [htokens, hstop]
  exact (run_relocate moves_unplaced _ .initial _).symm

/-- **Places do not matter.**  Tokens of the same kinds and lexemes parse to the same result, up to
places. -/
theorem parse_unplaced_congr (arities : Arities) {ts us : List Token}
    (h : ts.map Token.unplaced = us.map Token.unplaced) :
    unplacedResult (Expr.parse arities ts) = unplacedResult (Expr.parse arities us) := by
  rw [unplacedResult_parse, unplacedResult_parse, h]

end ListCalc
