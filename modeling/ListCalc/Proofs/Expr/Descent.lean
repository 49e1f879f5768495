import ListCalc.Proofs.Computation
import ListCalc.Proofs.Expr.Parse

/-!
# Proofs — the parser as a recursive descent

The machine is a recursive descent whose calls lie on its stack as frames.  Here is the descent
itself: routines that call each other, with a cursor into the tokens and a counter for the nesting.
Nothing in it keeps the cursor inside the tokens, the counter is an integer, and the calls are
bounded by fuel alone; a `Walk` records every position that it was at.

`Walk.Sound` is what the walk has to keep: positions at tokens, and a counter that is the depth of
the stack of the machine.  Each primitive is an equation on sound walks (`peek_apply`,
`advance_apply`, …).  `Meets` says how a computation ends, and `meets_nested` what one level deeper
comes to.
-/

namespace ListCalc

open ListCalc.Expr (State)

/-! ### The descent -/

/-- Where a descent stands: the number of the token in view, and the counter for the nesting. -/
structure Position where
  current : Nat
  depth : Int
deriving DecidableEq

/-- Why a descent stops. -/
inductive Halt where
  | fault (error : SyntaxError)
  | outOfRange
  | outOfFuel
deriving DecidableEq

/-- A descent in progress. -/
structure Walk where
  here : Position
  /-- The positions before, the last one first. -/
  trail : List Position
  /-- The finished trees, the last one first, each with the position after it. -/
  trees : List (Expr × Position)

namespace Walk

/-- The walk before the first token. -/
def start : Walk := ⟨⟨0, 0⟩, [], []⟩

/-- The walk at another position, with the one that it leaves on record. -/
def moveTo (p : Position) (w : Walk) : Walk := { w with here := p, trail := w.here :: w.trail }

/-- The walk one token further on. -/
def forward (w : Walk) : Walk := w.moveTo ⟨w.here.current + 1, w.here.depth⟩

/-- The walk one level deeper. -/
def down (w : Walk) : Walk := w.moveTo ⟨w.here.current, w.here.depth + 1⟩

/-- The walk one level up. -/
def up (w : Walk) : Walk := w.moveTo ⟨w.here.current, w.here.depth - 1⟩

/-- The walk with one more tree finished. -/
def push (e : Expr) (w : Walk) : Walk := { w with trees := (e, w.here) :: w.trees }

end Walk

/-- A computation over a walk; where it halts, the walk stays as it is then. -/
abbrev Descent := EStateM Halt Walk

namespace Descent

variable (arities : Arities) (tokens : List Token)

/-- The token of a number; there may be none. -/
def read (i : Nat) : Descent Token :=
  match tokens[i]? with
  | some t => pure t
  | none   => throw .outOfRange

/-- The token in view. -/
def peek : Descent Token := do read tokens (← get).here.current

/-- The token after the one in view, or the last one again. -/
def peekNext : Descent Token := do
  read tokens (min ((← get).here.current + 1) (tokens.length - 1))

/-- Whether the end of input is in view. -/
def isAtEnd : Descent Bool := do return (← peek tokens).kind = .endOfInput

/-- Takes the token in view, unless it is the end of input. -/
def advance : Descent Token := do
  let t ← peek tokens
  if ← isAtEnd tokens then pure t
  else do
    modify Walk.forward
    return t

/-- Whether a token of the kind is in view; the end of input never is one. -/
def check (kind : TokenKind) : Descent Bool := do
  return !(← isAtEnd tokens) && (← peek tokens).kind = kind

/-- Takes the token in view if it is of the kind, and halts with the fault otherwise. -/
def consume (kind : TokenKind) (fault : SyntaxFault) : Descent Token := do
  if ← check tokens kind then advance tokens
  else throw (.fault (.atToken (← peek tokens) fault))

/-- Takes the token in view if it is a binary operator. -/
def matchBinary : Descent (Option Token) := do
  if State.isBinaryOp arities (← peek tokens) then return some (← advance tokens)
  else return none

/-- Whether the token in view is a prefix operator; for a name, the token after it decides. -/
def atPrefix : Descent Bool := do
  let t ← peek tokens
  match t.kind with
  | .tilde | .minus => return true
  | .identifier     =>
    if arities t.lexeme == some .unary then return startsOperand (← peekNext tokens).kind
    else return false
  | _               => return false

/-- Goes one level deeper, unless the nesting is at its limit. -/
def enter (t : Token) : Descent Unit := do
  if (← get).here.depth = maxNesting then throw (.fault (.atToken t .nestedTooDeeply))
  else modify Walk.down

/-- Reads what `t` begins one level deeper, and comes back up also where that fails. -/
def nested {α : Type} (t : Token) (m : Descent α) : Descent α := do
  enter t
  tryFinally m (modify Walk.up)

/-- The routines.  `operators` and `arguments` are the loops of `binary` and `call`. -/
inductive Routine where
  | binary (chain : Bool)
  | operators (chain : Bool) (left : Expr)
  | unary (chain : Bool)
  | call (chain : Bool)
  | arguments (callee : Expr)
  | primary
  | grouping (bracket : Bracket)

/-- What stands on the right of an operator: for an assignment to a name, all that follows. -/
def rightSide (go : Routine → Descent Expr) (chain : Bool) (left : Expr) (op : Token) :
    Descent Expr :=
  if left.assignsName op then nested op (go (.binary chain)) else go (.unary chain)

/-- What a routine does, with `go` for the routines that it calls. -/
def Routine.body (go : Routine → Descent Expr) : Routine → Descent Expr
  | binary chain => do go (.operators chain (← go (.unary chain)))
  | operators chain left => do
    match ← matchBinary arities tokens with
    | none    => return left
    | some op =>
      go (.operators chain (.binary left op (← rightSide go chain left op)))
  | unary chain => do
    if ← atPrefix arities tokens then
      let op ← advance tokens
      return .unary op (← nested op (go (.unary chain)))
    else go (.call chain)
  | call chain => do
    let e ← go .primary
    if chain then go (.arguments e) else return e
  | arguments callee => do
    if ← check tokens .dollar then
      let dollar ← advance tokens
      go (.arguments (.call callee dollar (← go (.binary false))))
    else return callee
  | primary => do
    let t ← peek tokens
    if t.kind.isLiteral then
      let _ ← advance tokens
      match t.literal? with
      | some value => return .literal t value
      | none       => throw (.fault (.atToken t .invalidLiteral))
    else if t.kind = .identifier then return .name (← advance tokens)
    else
      match Bracket.ofOpener? t.kind with
      | some bracket => go (.grouping bracket)
      | none         => throw (.fault (.atToken t .expectExpression))
  | grouping bracket => do
    let opener ← advance tokens
    let e ← nested opener (go (.binary true))
    return .group opener e (← consume tokens bracket.closer (.expectCloser bracket))

/-- A routine with as many calls below it as the fuel allows. -/
def descend : Nat → Routine → Descent Expr
  | 0,        _ => throw .outOfFuel
  | fuel + 1, r => r.body arities tokens (descend fuel)

/-- Reads trees up to the end of input. -/
def forest : Nat → Descent (List Expr)
  | 0        => throw .outOfFuel
  | fuel + 1 => do
    if ← isAtEnd tokens then return (← get).trees.reverse.map Prod.fst
    else do
      let e ← descend arities tokens fuel (.binary true)
      modify (Walk.push e)
      forest fuel

end Descent

/-! ### The primitives on tokens that end -/

/-- The tokens are `ts`, then `stop`, the first end of input, and then anything. -/
structure Ends (tokens ts : List Token) (stop : Token) : Prop where
  split : ∃ more, tokens = ts ++ stop :: more
  atStop : stop.kind = .endOfInput
  before : ∀ t ∈ ts, t.kind ≠ .endOfInput

/-- The tokens that are left before the end of input. -/
def Walk.rest (ts : List Token) (w : Walk) : List Token := ts.drop w.here.current

/-- The position is at a token, and the counter within its bounds. -/
structure Position.Valid (ts : List Token) (p : Position) : Prop where
  current : p.current ≤ ts.length
  depth : 0 ≤ p.depth ∧ p.depth ≤ maxNesting

/-- All positions so far are valid, and the counter is the depth of the stack. -/
structure Walk.Sound (ts : List Token) (stack : List Frame) (w : Walk) : Prop where
  valid : ∀ p ∈ w.here :: w.trail, p.Valid ts
  depth : w.here.depth = Frame.depth stack

namespace Walk

variable {ts rest : List Token} {stack : List Frame} {t : Token} {w : Walk}

/-- A sound walk is at a token. -/
theorem Sound.current_le (h : w.Sound ts stack) : w.here.current ≤ ts.length :=
  (h.valid _ (.head _)).current

/-- Frames that do not count toward the nesting may come and go. -/
theorem Sound.congr {stack' : List Frame} (h : w.Sound ts stack)
    (hdepth : Frame.depth stack' = Frame.depth stack) : w.Sound ts stack' :=
  ⟨h.valid, by rw [hdepth, h.depth]⟩

/-- A sound walk may move to a valid position. -/
theorem Sound.moveTo {stack' : List Frame} {p : Position} (h : w.Sound ts stack) (hp : p.Valid ts)
    (hdepth : p.depth = Frame.depth stack') : (w.moveTo p).Sound ts stack' :=
  ⟨List.forall_mem_cons.mpr ⟨hp, h.valid⟩, hdepth⟩

theorem lt_of_rest_eq_cons (h : w.rest ts = t :: rest) : w.here.current < ts.length := by
  refine Nat.lt_of_not_le fun hle => ?_
  rw [Walk.rest, List.drop_eq_nil_of_le hle] at h
  cases h

/-- One token further on, one token less is left. -/
theorem rest_forward (h : w.rest ts = t :: rest) : w.forward.rest ts = rest := by
  show ts.drop (w.here.current + 1) = rest
  rw [← List.tail_drop, show ts.drop w.here.current = t :: rest from h, List.tail_cons]

/-- A sound walk may go on while tokens are left. -/
theorem Sound.forward (h : w.Sound ts stack) (hrest : w.rest ts = t :: rest) :
    w.forward.Sound ts stack :=
  h.moveTo ⟨lt_of_rest_eq_cons hrest, (h.valid _ (.head _)).depth⟩ h.depth

/-- A sound walk may go down below the limit, with a frame on the stack. -/
theorem Sound.down {frame : Frame} (h : w.Sound ts stack) (hframe : frame.nests = true)
    (hlt : Frame.depth stack < maxNesting) : w.down.Sound ts (frame :: stack) := by
  have hdepth := h.depth
  refine h.moveTo ⟨h.current_le, ?_⟩ ?_
  · dsimp only
    omega
  · rw [Frame.depth_cons_of_nests hframe]
    push_cast
    omega

/-- A sound walk may come up, with the frame gone. -/
theorem Sound.up {frame : Frame} (h : w.Sound ts (frame :: stack)) (hframe : frame.nests = true) :
    w.up.Sound ts stack := by
  have hdepth := h.depth
  have hvalid := (h.valid _ (.head _)).depth
  rw [Frame.depth_cons_of_nests hframe] at hdepth
  push_cast at hdepth
  refine h.moveTo ⟨h.current_le, ?_⟩ ?_ <;> dsimp only <;> omega

end Walk

namespace Descent

variable {arities : Arities} {tokens ts rest : List Token} {stop t : Token} {stack : List Frame}
  {w : Walk} {α β : Type}

/-- Up to the end of input, every number has a token. -/
theorem read_apply (h : Ends tokens ts stop) {i : Nat} (hi : i ≤ ts.length) :
    read tokens i w = .ok ((ts.drop i).head?.getD stop) w := by
  obtain ⟨more, rfl⟩ := h.split
  have hread : (ts ++ stop :: more)[i]? = some ((ts.drop i).head?.getD stop) := by
    rcases Nat.lt_or_eq_of_le hi with hlt | rfl
    · rw [List.getElem?_append_left hlt, List.head?_drop, List.getElem?_eq_getElem hlt]
      rfl
    · simp
  rw [read, hread]
  rfl

/-- The token in view is the next one, or the end of input. -/
theorem peek_apply (h : Ends tokens ts stop) (hw : w.Sound ts stack) :
    peek tokens w = .ok ((w.rest ts).head?.getD stop) w :=
  (bind_of_ok rfl).trans (read_apply h hw.current_le)

/-- The token after the one in view is the next but one, or the end of input. -/
theorem peekNext_apply (h : Ends tokens ts stop) (hrest : w.rest ts = t :: rest) :
    peekNext tokens w = .ok (rest.head?.getD stop) w := by
  have hlt := Walk.lt_of_rest_eq_cons hrest
  have hmin : min (w.here.current + 1) (tokens.length - 1) = w.here.current + 1 := by
    obtain ⟨more, rfl⟩ := h.split
    simp only [List.length_append, List.length_cons]
    omega
  have hread := @read_apply _ _ _ w h (w.here.current + 1) hlt
  rw [show ts.drop (w.here.current + 1) = rest from Walk.rest_forward hrest, ← hmin] at hread
  exact (bind_of_ok rfl).trans hread

/-- The end of input is in view when no tokens are left. -/
theorem isAtEnd_apply (h : Ends tokens ts stop) (hw : w.Sound ts stack) :
    isAtEnd tokens w = .ok (w.rest ts).isEmpty w := by
  refine (bind_of_ok (peek_apply h hw)).trans ?_
  cases hrest : w.rest ts with
  | nil => simp [h.atStop, pure, EStateM.pure]
  | cons t rest =>
    have ht : t ∈ w.rest ts := by simp [hrest]
    simp [h.before t (List.mem_of_mem_drop ht), pure, EStateM.pure]

/-- The token in view is taken. -/
theorem advance_apply (h : Ends tokens ts stop) (hw : w.Sound ts stack)
    (hrest : w.rest ts = t :: rest) : advance tokens w = .ok t w.forward := by
  refine (bind_of_ok (peek_apply h hw)).trans ((bind_of_ok (isAtEnd_apply h hw)).trans ?_)
  rw [hrest]
  rfl

/-- The end of input is never of the kind that is looked for. -/
theorem check_apply (h : Ends tokens ts stop) (hw : w.Sound ts stack) {kind : TokenKind}
    (hkind : kind ≠ .endOfInput) :
    check tokens kind w = .ok (((w.rest ts).head?.getD stop).kind = kind) w := by
  refine (bind_of_ok (isAtEnd_apply h hw)).trans ((bind_of_ok (peek_apply h hw)).trans ?_)
  cases hrest : w.rest ts with
  | nil => simp [h.atStop, hkind.symm, pure, EStateM.pure]
  | cons t rest => simp [pure, EStateM.pure]

/-- A token of the kind is taken. -/
theorem consume_apply (h : Ends tokens ts stop) (hw : w.Sound ts stack) {kind : TokenKind}
    (hkind : kind ≠ .endOfInput) (hrest : w.rest ts = t :: rest) (ht : t.kind = kind)
    (fault : SyntaxFault) : consume tokens kind fault w = .ok t w.forward := by
  have hnext : ((w.rest ts).head?.getD stop).kind = kind := by rwa [hrest]
  rw [consume, bind_of_ok (check_apply h hw hkind), if_pos (decide_eq_true hnext)]
  exact advance_apply h hw hrest

/-- A token of another kind is what the fault is at. -/
theorem consume_apply_error (h : Ends tokens ts stop) (hw : w.Sound ts stack)
    {kind : TokenKind} (hkind : kind ≠ .endOfInput)
    (ht : ((w.rest ts).head?.getD stop).kind ≠ kind) (fault : SyntaxFault) :
    consume tokens kind fault w =
      .error (.fault (.atToken ((w.rest ts).head?.getD stop) fault)) w := by
  rw [consume, bind_of_ok (check_apply h hw hkind), if_neg (by simpa using ht)]
  exact bind_of_ok (peek_apply h hw)

/-- Before any other token no binary operator is taken. -/
theorem matchBinary_apply_none (h : Ends tokens ts stop) (hw : w.Sound ts stack)
    (hi : ¬ InfixToken arities ((w.rest ts).head?.getD stop)) :
    matchBinary arities tokens w = .ok none w := by
  refine (bind_of_ok (peek_apply h hw)).trans ?_
  rw [isBinaryOp_eq_false hi]
  rfl

/-- A binary operator in view is taken. -/
theorem matchBinary_apply_some (h : Ends tokens ts stop) (hw : w.Sound ts stack)
    (hrest : w.rest ts = t :: rest) (hi : InfixToken arities t) :
    matchBinary arities tokens w = .ok (some t) w.forward := by
  refine (bind_of_ok (peek_apply h hw)).trans ?_
  rw [hrest, List.head?_cons, Option.getD_some, isBinaryOp_iff.mpr hi, if_pos rfl]
  exact bind_of_ok (advance_apply h hw hrest)

/-- Whether the first of the tokens is a prefix operator, with the second one in view. -/
def startsPrefixed (arities : Arities) (stop : Token) : List Token → Bool
  | []        => false
  | t :: rest => State.isPrefixOp arities t (rest.head?.getD stop).kind

/-- Whether a prefix operator is in view is decided as the machine does. -/
theorem atPrefix_apply (h : Ends tokens ts stop) (hw : w.Sound ts stack) :
    atPrefix arities tokens w = .ok (startsPrefixed arities stop (w.rest ts)) w := by
  have hpeek := peek_apply h hw
  cases hrest : w.rest ts with
  | nil =>
    rw [hrest] at hpeek
    rw [atPrefix, bind_of_ok hpeek]
    simp only [List.head?_nil, Option.getD_none, h.atStop]
    rfl
  | cons t rest =>
    rw [hrest, List.head?_cons, Option.getD_some] at hpeek
    rw [atPrefix, bind_of_ok hpeek, startsPrefixed, State.isPrefixOp]
    cases t.kind
    case identifier =>
      dsimp only
      by_cases hunary : (arities t.lexeme == some .unary) = true
      · rw [if_pos hunary, hunary, Bool.true_and]
        exact bind_of_ok (peekNext_apply h hrest)
      · rw [if_neg hunary, Bool.eq_false_iff.mpr hunary]
        rfl
    all_goals rfl

/-! ### Ways to end -/

/-- The computation returns or fails at the syntax, and in no other way. -/
def Meets (returned : α → Walk → Prop) (failed : SyntaxError → Walk → Prop) :
    EStateM.Result Halt Walk α → Prop
  | .ok a w                => returned a w
  | .error (.fault error) w => failed error w
  | .error _ _             => False

section Meets

variable {returned returned' : α → Walk → Prop} {failed failed' : SyntaxError → Walk → Prop}

/-- A computation that meets its description returns, or fails at the syntax. -/
theorem Meets.cases {result : EStateM.Result Halt Walk α} (h : Meets returned failed result) :
    (∃ a w, result = .ok a w ∧ returned a w) ∨
      ∃ e w, result = .error (.fault e) w ∧ failed e w := by
  cases result with
  | ok a w => exact .inl ⟨a, w, rfl, h⟩
  | error halt w =>
    cases halt with
    | fault e => exact .inr ⟨e, w, rfl, h⟩
    | _ => exact h.elim

/-- A description may be weakened. -/
theorem Meets.mono {result : EStateM.Result Halt Walk α} (h : Meets returned failed result)
    (hok : ∀ a w, returned a w → returned' a w) (hfail : ∀ e w, failed e w → failed' e w) :
    Meets returned' failed' result := by
  obtain ⟨a, w, rfl, ha⟩ | ⟨e, w, rfl, he⟩ := h.cases
  · exact hok a w ha
  · exact hfail e w he

/-- One step after the other: the second is described where the first returns. -/
theorem Meets.bind {m : Descent α} {k : α → Descent β} {next : β → Walk → Prop}
    (hm : Meets returned failed (m w))
    (hk : ∀ a w', returned a w' → Meets next failed (k a w')) :
    Meets next failed ((m >>= k) w) := by
  obtain ⟨a, w', hresult, ha⟩ | ⟨e, w', hresult, he⟩ := hm.cases
  · rw [bind_of_ok hresult]
    exact hk a w' ha
  · rw [bind_of_error hresult]
    exact he

theorem Meets.of_eq {m : Descent α} {a : α} {w' : Walk} (h : m w = .ok a w') (hok : returned a w') :
    Meets returned failed (m w) := by
  rw [h]
  exact hok

/-- One level deeper there is a frame more on the stack, and it is gone afterwards. -/
theorem meets_nested {m : Descent α} {frame : Frame} (hframe : frame.nests = true)
    (hw : w.Sound ts stack)
    (hdeep : ¬ Frame.depth stack < maxNesting → failed (.atToken t .nestedTooDeeply) w)
    (hm : Frame.depth stack < maxNesting → Meets (fun a w' => w'.Sound ts (frame :: stack) ∧
      (w'.up.Sound ts stack → returned a w'.up)) (fun e w' => w'.Sound ts (frame :: stack) ∧
        (w'.up.Sound ts stack → failed e w'.up)) (m w.down)) :
    Meets returned failed (nested t m w) := by
  have hdepth := hw.depth
  by_cases hlt : Frame.depth stack < maxNesting
  · have henter : enter t w = .ok () w.down := by
      refine (bind_of_ok rfl).trans ?_
      rw [if_neg (by omega)]
      rfl
    rw [nested, bind_of_ok henter]
    show Meets returned failed (EStateM.bind (tryFinally' m fun _ => modify Walk.up) _ w.down)
    obtain ⟨a, w', hresult, hw', hok⟩ | ⟨e, w', hresult, hw', hfail⟩ := (hm hlt).cases
    · simp only [EStateM.bind, tryFinally', hresult]
      exact hok (hw'.up hframe)
    · simp only [EStateM.bind, tryFinally', hresult]
      exact hfail (hw'.up hframe)
  · have henter : enter t w = .error (.fault (.atToken t .nestedTooDeeply)) w := by
      refine (bind_of_ok rfl).trans ?_
      have hle := (hw.valid _ (.head _)).depth.2
      rw [if_pos (by omega)]
      rfl
    rw [nested, bind_of_error henter]
    exact hdeep hlt

end Meets

end Descent

end ListCalc
