import ListCalc.Proofs.Expr.Descent

/-!
# Proofs — the routines of the descent and the machine

`descend_correct` says that the routines do what the machine does, with fuel for the tokens that are
left and for the calls that take none (`Routine.rank`).

While a routine runs, the frames of its callers are the stack of the machine.  A routine that
returns leaves the machine with that stack and with the tree as its operand (`Routine.Returned`).
The machine itself closes its frames later than the routines return; that makes no difference, as
the token in view is none that would continue them (`run_unary`, `run_binary`, `run_assigned`,
`run_call`).
-/

namespace ListCalc

open ListCalc.Expr (State)

/-! ### Frames closed early -/

section Closing

variable {arities : Arities} {stop next : Token} {stack : List Frame} {done : List Expr}
  {e : Expr} {rest : List Token}

/-- The machine does the same with one operand on one stack and another on another if each way to
go on from them is the same. -/
theorem run_congr_operand {stack' : List Frame} {e' : Expr}
    (hall : Frame.closeAll e' stack' = Frame.closeAll e stack)
    (hjoin : InfixToken arities (rest.head?.getD stop) →
      Frame.closeOperand e' stack' = Frame.closeOperand e stack)
    (hdollar : (rest.head?.getD stop).kind = .dollar →
      (if Frame.chains stack' then (e', stack') else Frame.closeArgument e' stack') =
        if Frame.chains stack then (e, stack) else Frame.closeArgument e stack) :
    State.run arities stop ⟨stack', some e', done⟩ rest =
      State.run arities stop ⟨stack, some e, done⟩ rest := by
  cases rest with
  | nil => simp only [State.run, State.finish, hall]
  | cons t rest =>
    have hstep (next : TokenKind) : State.step arities ⟨stack', some e', done⟩ t next =
        State.step arities ⟨stack, some e, done⟩ t next := by
      unfold State.step
      dsimp only
      split
      · rename_i ht
        rw [State.takeDollar, State.takeDollar, hdollar ht]
      split
      · rename_i ht
        rw [State.takeBinaryOp, State.takeBinaryOp, hjoin (isBinaryOp_iff.mp ht)]
      · rw [State.takeOther, State.takeOther, hall]
    rw [State.run, State.run, hstep]

/-- Where `$` would apply what was read, none is in view. -/
def Unapplied (stack : List Frame) (next : Token) : Prop :=
  Frame.chains stack = true → next.kind ≠ .dollar

/-- A frame that a `$` would go through can be closed where none applies what was read. -/
theorem run_closed {frame : Frame} {e' : Expr} (h : Unapplied stack (rest.head?.getD stop))
    (hchains : Frame.chains (frame :: stack) = Frame.chains stack)
    (hargument : Frame.closeArgument e' (frame :: stack) = Frame.closeArgument e stack)
    (hall : Frame.closeAll e' (frame :: stack) = Frame.closeAll e stack)
    (hjoin : InfixToken arities (rest.head?.getD stop) →
      Frame.closeOperand e' (frame :: stack) = Frame.closeOperand e stack) :
    State.run arities stop ⟨frame :: stack, some e', done⟩ rest =
      State.run arities stop ⟨stack, some e, done⟩ rest := by
  refine run_congr_operand hall hjoin fun hdollar => ?_
  have hfalse : Frame.chains stack = false := Bool.eq_false_iff.mpr fun hc => h hc hdollar
  rw [hchains, hfalse, if_neg Bool.false_ne_true, if_neg Bool.false_ne_true, hargument]

/-- A prefix operator may be finished early where nothing is applied. -/
theorem run_unary {op : Token} (h : Unapplied stack (rest.head?.getD stop)) :
    State.run arities stop ⟨.prefixOp op :: stack, some e, done⟩ rest =
      State.run arities stop ⟨stack, some (.unary op e), done⟩ rest :=
  run_closed h rfl rfl rfl fun _ => rfl

/-- A binary operator may be finished early where nothing is applied. -/
theorem run_binary {left : Expr} {op : Token} (hbase : Frame.IsBase stack)
    (h : Unapplied stack (rest.head?.getD stop)) :
    State.run arities stop ⟨.binary left op :: stack, some e, done⟩ rest =
      State.run arities stop ⟨stack, some (.binary left op e), done⟩ rest :=
  run_closed h rfl rfl rfl fun _ => (hbase.closeOperand_of_eq (hbase.closePrefixes _)).symm

/-- An assignment may be finished early before what is no binary operator. -/
theorem run_assigned {target op : Token} (hi : ¬ InfixToken arities (rest.head?.getD stop))
    (h : Unapplied stack (rest.head?.getD stop)) :
    State.run arities stop ⟨.assign target op :: stack, some e, done⟩ rest =
      State.run arities stop ⟨stack, some (.binary (.name target) op e), done⟩ rest :=
  run_closed h rfl rfl rfl fun hjoins => absurd hjoins hi

/-- An application may be finished early before what is no binary operator. -/
theorem run_call {callee : Expr} {dollar : Token}
    (hi : ¬ InfixToken arities (rest.head?.getD stop)) (hchains : Frame.chains stack = true) :
    State.run arities stop ⟨.argument callee dollar :: stack, some e, done⟩ rest =
      State.run arities stop ⟨stack, some (.call callee dollar e), done⟩ rest := by
  refine run_congr_operand rfl (fun hjoins => absurd hjoins hi) fun _ => ?_
  rw [Frame.chains, hchains, if_neg Bool.false_ne_true, if_pos rfl, Frame.closeArgument]

/-- A step that enters a frame, if that is not too deep. -/
theorem run_of_enter {s : State} {t : Token} {frame : Frame}
    (h : s.step arities t (rest.head?.getD stop).kind =
      (do return ⟨← Frame.enter frame t stack, none, done⟩)) :
    State.run arities stop s (t :: rest) =
      if Frame.depth stack < maxNesting then
        State.run arities stop ⟨frame :: stack, none, done⟩ rest
      else .error (.atToken t .nestedTooDeeply) := by
  rw [State.run, h, Frame.enter]
  split <;> rfl

/-- In a group, a token that ends the expression has to be the closer. -/
theorem run_unclosed {opener : Token} {bracket : Bracket}
    (hi : ¬ InfixToken arities (rest.head?.getD stop))
    (hdollar : (rest.head?.getD stop).kind ≠ .dollar)
    (hcloser : (rest.head?.getD stop).kind ≠ bracket.closer) :
    State.run arities stop ⟨.group opener bracket :: stack, some e, done⟩ rest =
      .error (.atToken (rest.head?.getD stop) (.expectCloser bracket)) := by
  cases rest with
  | nil => rfl
  | cons t rest =>
    rw [List.head?_cons, Option.getD_some] at hi hdollar hcloser ⊢
    rw [State.run]
    simp only [State.step, if_neg hdollar, isBinaryOp_eq_false hi, State.takeOther, Frame.closeAll,
      if_neg hcloser, if_neg Bool.false_ne_true]
    rfl

/-- A token where an operand is expected, if it is no prefix operator. -/
theorem takeOperand_of_not_prefixOp {t : Token} {next : TokenKind}
    (h : State.isPrefixOp arities t next = false) :
    State.takeOperand arities stack done t next =
      if t.kind.isLiteral then
        match t.literal? with
        | some value => .ok ⟨stack, some (.literal t value), done⟩
        | none       => .error (.atToken t .invalidLiteral)
      else if t.kind = .identifier then .ok ⟨stack, some (.name t), done⟩
      else
        match Bracket.ofOpener? t.kind with
        | some bracket => do return ⟨← Frame.enter (.group t bracket) t stack, none, done⟩
        | none         => .error (.atToken t .expectExpression) := by
  rw [State.takeOperand, if_neg (by simp [h])]
  cases t.kind <;> rfl

end Closing

namespace Descent

variable {arities : Arities} {tokens ts rest : List Token} {stop t : Token} {stack : List Frame}
  {w : Walk}

/-! ### The routines and the machine -/

/-- An operand has to come. -/
def Wanted (stack : List Frame) (rest : List Token) : Prop := stack = [] → rest ≠ []

theorem wanted_cons {frame : Frame} : Wanted (frame :: stack) rest :=
  fun h => absurd h (List.cons_ne_nil _ _)

namespace Routine

/-- The state of the machine where the routine is called. -/
def state (stack : List Frame) (done : List Expr) : Routine → State
  | operators _ left => ⟨stack, some left, done⟩
  | arguments callee => ⟨stack, some callee, done⟩
  | _                => ⟨stack, none, done⟩

/-- Where the routine can be called. -/
def Ready (arities : Arities) (stop : Token) (stack : List Frame) (rest : List Token) :
    Routine → Prop
  | binary chain      => Wanted stack rest ∧ Frame.IsBase stack ∧ Frame.chains stack = chain
  | operators chain _ =>
    Frame.IsBase stack ∧ Frame.chains stack = chain ∧ Unapplied stack (rest.head?.getD stop)
  | unary chain       => Wanted stack rest ∧ Frame.chains stack = chain
  | call chain        =>
    Wanted stack rest ∧ Frame.chains stack = chain ∧ startsPrefixed arities stop rest = false
  | arguments _       => Frame.chains stack = true
  | primary           => Wanted stack rest ∧ startsPrefixed arities stop rest = false
  | grouping bracket  => ∃ t rest', rest = t :: rest' ∧ Bracket.ofOpener? t.kind = some bracket

/-- What is in view after the routine. -/
def After (arities : Arities) (stack : List Frame) (next : Token) : Routine → Prop
  | binary _ | operators _ _ => ¬ InfixToken arities next ∧ Unapplied stack next
  | unary _ | call _         => Unapplied stack next
  | arguments _              => next.kind ≠ .dollar
  | primary | grouping _     => True

/-- The fewest tokens that the routine takes. -/
def takes : Routine → Nat
  | operators _ _ | arguments _ => 0
  | _                           => 1

/-- How many routines can be called one inside the other before a token is taken. -/
def rank : Routine → Nat
  | operators _ _ | arguments _ | grouping _ => 1
  | primary                                  => 2
  | call _                                   => 3
  | unary _                                  => 4
  | binary _                                 => 5

/-- The fuel that is enough for the routine with so many tokens left. -/
def need (r : Routine) (rest : List Token) : Nat := 6 * rest.length + r.rank

/-- A call that takes no token before it has a lower rank. -/
theorem need_of_rank {r r' : Routine} {fuel : Nat} (hfuel : r.need rest ≤ fuel + 1)
    (h : r'.rank < r.rank) : r'.need rest ≤ fuel := by
  unfold need at hfuel ⊢
  omega

/-- After a token is taken, any routine can be called. -/
theorem need_of_lt {r r' : Routine} {rest' : List Token} {fuel : Nat}
    (hfuel : r.need rest ≤ fuel + 1) (h : rest'.length < rest.length) : r'.need rest' ≤ fuel := by
  have hrank : r'.rank ≤ 5 := by cases r' <;> simp [rank]
  have hrank' : 1 ≤ r.rank := by cases r <;> simp [rank]
  unfold need at hfuel ⊢
  omega

section Specification

variable (arities : Arities) (ts : List Token) (stop : Token) (r : Routine)

/-- The routine has come from `w` to `w'` with the tree `e`, and so has the machine. -/
structure Returned (w : Walk) (stack : List Frame) (done : List Expr) (e : Expr) (w' : Walk) :
    Prop where
  sound : w'.Sound ts stack
  trees : w'.trees = w.trees
  taken : (w'.rest ts).length + r.takes ≤ (w.rest ts).length
  after : r.After arities stack ((w'.rest ts).head?.getD stop)
  run : State.run arities stop (r.state stack done) (w.rest ts) =
    State.run arities stop ⟨stack, some e, done⟩ (w'.rest ts)

/-- The routine has failed, and so does the machine. -/
structure Failed (w : Walk) (stack : List Frame) (done : List Expr) (error : SyntaxError)
    (w' : Walk) : Prop where
  sound : w'.Sound ts stack
  trees : w'.trees = w.trees
  run : State.run arities stop (r.state stack done) (w.rest ts) = .error error

/-- The computation does what the routine is for. -/
def Correct (m : Descent Expr) (w : Walk) : Prop :=
  ∀ stack done, w.Sound ts stack → r.Ready arities stop stack (w.rest ts) →
    Meets (r.Returned arities ts stop w stack done) (r.Failed arities ts stop w stack done) (m w)

end Specification

variable {done : List Expr} {r : Routine}

/-- A routine that ends with another one does what that does from there on. -/
theorem Correct.tail {r' : Routine} {m : Descent Expr} {w' : Walk}
    (h : r'.Correct arities ts stop m w') (hw : w'.Sound ts stack)
    (hready : r'.Ready arities stop stack (w'.rest ts)) (htrees : w'.trees = w.trees)
    (htaken : (w'.rest ts).length + r.takes ≤ (w.rest ts).length + r'.takes)
    (hafter : ∀ next, r'.After arities stack next → r.After arities stack next)
    (hrun : State.run arities stop (r.state stack done) (w.rest ts) =
      State.run arities stop (r'.state stack done) (w'.rest ts)) :
    Meets (r.Returned arities ts stop w stack done) (r.Failed arities ts stop w stack done)
      (m w') := by
  refine (h stack done hw hready).mono (fun e w₁ h₁ => ?_) (fun error w₁ h₁ => ?_)
  · have := h₁.taken
    exact ⟨h₁.sound, h₁.trees.trans htrees, by omega, hafter _ h₁.after, hrun.trans h₁.run⟩
  · exact ⟨h₁.sound, h₁.trees.trans htrees, hrun.trans h₁.run⟩

end Routine

section Routines

variable {fuel : Nat} {go : Routine → Descent Expr} {chain : Bool}

/-- The routines that are called are correct as far as the fuel goes. -/
def Supplies (arities : Arities) (ts : List Token) (stop : Token) (go : Routine → Descent Expr)
    (fuel : Nat) : Prop :=
  ∀ r w, Routine.need r (w.rest ts) ≤ fuel → r.Correct arities ts stop (go r) w

/-- The routine for an expression does what the machine does. -/
theorem correct_binary (hgo : Supplies arities ts stop go fuel)
    (hfuel : (Routine.binary chain).need (w.rest ts) ≤ fuel + 1) :
    (Routine.binary chain).Correct arities ts stop
      ((Routine.binary chain).body arities tokens go) w := by
  rintro stack done hw ⟨hwanted, hbase, hchain⟩
  have hunary := hgo (.unary chain) w (Routine.need_of_rank hfuel (Nat.lt_add_one 4)) stack done hw
    ⟨hwanted, hchain⟩
  refine Meets.bind (hunary.mono (fun _ _ h => h) fun _ _ h => ⟨h.sound, h.trees, h.run⟩) ?_
  intro e w₁ h₁
  exact (hgo (.operators chain e) w₁ (Routine.need_of_lt hfuel h₁.taken)).tail h₁.sound
    ⟨hbase, hchain, h₁.after⟩ h₁.trees h₁.taken (fun _ h => h) h₁.run

/-- A routine that is called one level deeper, where the machine enters a frame for it. -/
theorem meets_deeper {r : Routine} (r' : Routine) {frame : Frame} {done : List Expr}
    (hgo : Supplies arities ts stop go fuel) (hfuel : r.need (w.rest ts) ≤ fuel + 1)
    (hw : w.Sound ts stack) (hrest : w.rest ts = t :: rest) (hframe : frame.nests = true)
    (hstep : (r.state stack done).step arities t (rest.head?.getD stop).kind =
      (do return ⟨← Frame.enter frame t stack, none, done⟩))
    (hstate : r'.state (frame :: stack) done = ⟨frame :: stack, none, done⟩)
    (hready : r'.Ready arities stop (frame :: stack) rest) :
    Meets (fun e w' => w'.Sound ts stack ∧ w'.trees = w.trees ∧
        (w'.rest ts).length < (w.rest ts).length ∧
        r'.After arities (frame :: stack) ((w'.rest ts).head?.getD stop) ∧
        State.run arities stop (r.state stack done) (w.rest ts) =
          State.run arities stop ⟨frame :: stack, some e, done⟩ (w'.rest ts))
      (r.Failed arities ts stop w stack done) (nested t (go r') w.forward) := by
  have hforward := hw.forward hrest
  have hrest' : w.forward.down.rest ts = rest := Walk.rest_forward hrest
  have hlt : rest.length < (w.rest ts).length := by simp [hrest]
  have hrun := run_of_enter hstep
  rw [← hrest] at hrun
  refine meets_nested hframe hforward (fun hdeep => ?_) fun hdepth => ?_
  · exact ⟨hforward, rfl, by rw [hrun, if_neg hdeep]⟩
  · rw [if_pos hdepth, ← hstate, ← hrest'] at hrun
    have hcall := hgo r' w.forward.down (Routine.need_of_lt hfuel (by rwa [hrest']))
      (frame :: stack) done (hforward.down hframe hdepth) (by rwa [hrest'])
    refine hcall.mono (fun e w' h => ⟨h.sound, fun hup => ?_⟩)
      fun error w' h => ⟨h.sound, fun hup => ⟨hup, h.trees, hrun.trans h.run⟩⟩
    have htaken := h.taken
    rw [hrest'] at htaken
    have hlt' : (w'.rest ts).length < (w.rest ts).length := by omega
    exact ⟨hup, h.trees, hlt', h.after, hrun.trans h.run⟩

/-- The right side of an operator, after which both sides are one operand. -/
theorem meets_rightSide {left : Expr} {done : List Expr} (hgo : Supplies arities ts stop go fuel)
    (hfuel : (Routine.operators chain left).need (w.rest ts) ≤ fuel + 1) (hw : w.Sound ts stack)
    (hrest : w.rest ts = t :: rest) (hi : InfixToken arities t) (hbase : Frame.IsBase stack)
    (hchain : Frame.chains stack = chain) :
    Meets (fun right w' => w'.Sound ts stack ∧ w'.trees = w.trees ∧
        (w'.rest ts).length < (w.rest ts).length ∧ Unapplied stack ((w'.rest ts).head?.getD stop) ∧
        State.run arities stop ⟨stack, some left, done⟩ (w.rest ts) =
          State.run arities stop ⟨stack, some (.binary left t right), done⟩ (w'.rest ts))
      ((Routine.operators chain left).Failed arities ts stop w stack done)
      (rightSide go chain left t w.forward) := by
  have hclose := hbase.closeOperand_of_eq (hbase.closePrefixes left)
  cases has : left.assignsName t with
  | false =>
    have hrest' := Walk.rest_forward hrest
    have hlt : (w.forward.rest ts).length < (w.rest ts).length := by simp [hrest, hrest']
    have hrun : State.run arities stop ⟨stack, some left, done⟩ (w.rest ts) =
        State.run arities stop ⟨.binary left t :: stack, none, done⟩ (w.forward.rest ts) := by
      rw [hrest, hrest', run_binaryOp hi hclose has]
    have hdepth : Frame.depth (.binary left t :: stack) = Frame.depth stack :=
      Frame.depth_cons_of_not_nests rfl
    have hunary := hgo (.unary chain) w.forward (Routine.need_of_lt hfuel hlt)
      (.binary left t :: stack) done ((hw.forward hrest).congr hdepth) ⟨wanted_cons, hchain⟩
    rw [rightSide, if_neg (by simp [has])]
    refine hunary.mono (fun right w' h => ?_) fun error w' h => ?_
    · refine ⟨h.sound.congr hdepth.symm, h.trees, Nat.lt_trans h.taken hlt, h.after, ?_⟩
      exact hrun.trans (h.run.trans (run_binary hbase h.after))
    · exact ⟨h.sound.congr hdepth.symm, h.trees, hrun.trans h.run⟩
  | true =>
    obtain ⟨target, rfl, ho⟩ := Expr.assignsName_eq_true has
    rw [rightSide, if_pos has]
    refine (meets_deeper (.binary chain) hgo hfuel hw hrest rfl
      ((step_binaryOp hi _).trans (takeBinaryOp_of_assigns ho hclose)) rfl
      ⟨wanted_cons, trivial, hchain⟩).mono ?_ fun _ _ h => h
    rintro right w' ⟨hw', htrees, hlt, ⟨hjoins, hunapplied⟩, hrun⟩
    exact ⟨hw', htrees, hlt, hunapplied, hrun.trans (run_assigned hjoins hunapplied)⟩

/-- The loop over binary operators does what the machine does. -/
theorem correct_operators {left : Expr} (hends : Ends tokens ts stop)
    (hgo : Supplies arities ts stop go fuel)
    (hfuel : (Routine.operators chain left).need (w.rest ts) ≤ fuel + 1) :
    (Routine.operators chain left).Correct arities ts stop
      ((Routine.operators chain left).body arities tokens go) w := by
  rintro stack done hw ⟨hbase, hchain, hunapplied⟩
  rw [Routine.body]
  by_cases hi : InfixToken arities ((w.rest ts).head?.getD stop)
  · cases hrest : w.rest ts with
    | nil =>
      rw [hrest] at hi
      exact absurd hi (not_infixToken_of_end hends.atStop)
    | cons t rest =>
      rw [hrest] at hi
      rw [bind_of_ok (matchBinary_apply_some hends hw hrest hi)]
      refine Meets.bind (meets_rightSide hgo hfuel hw hrest hi hbase hchain) ?_
      rintro right w₁ ⟨hw₁, htrees, hlt, hunapplied₁, hrun⟩
      exact (hgo (.operators chain (.binary left t right)) w₁ (Routine.need_of_lt hfuel hlt)).tail
        hw₁ ⟨hbase, hchain, hunapplied₁⟩ htrees (Nat.le_of_lt hlt) (fun _ h => h) hrun
  · rw [bind_of_ok (matchBinary_apply_none hends hw hi)]
    exact ⟨hw, rfl, Nat.le_refl _, ⟨hi, hunapplied⟩, rfl⟩

/-- The routine for prefix operators does what the machine does. -/
theorem correct_unary (hends : Ends tokens ts stop) (hgo : Supplies arities ts stop go fuel)
    (hfuel : (Routine.unary chain).need (w.rest ts) ≤ fuel + 1) :
    (Routine.unary chain).Correct arities ts stop
      ((Routine.unary chain).body arities tokens go) w := by
  rintro stack done hw ⟨hwanted, hchain⟩
  rw [Routine.body, bind_of_ok (atPrefix_apply hends hw)]
  cases hp : startsPrefixed arities stop (w.rest ts) with
  | false =>
    exact (hgo (.call chain) w (Routine.need_of_rank hfuel (Nat.lt_add_one 3))).tail hw
      ⟨hwanted, hchain, hp⟩ rfl (Nat.le_refl _) (fun _ h => h) rfl
  | true =>
    cases hrest : w.rest ts with
    | nil =>
      rw [hrest] at hp
      cases hp
    | cons t rest =>
      rw [hrest, startsPrefixed] at hp
      have hstep : State.step arities ⟨stack, none, done⟩ t (rest.head?.getD stop).kind =
          (do return ⟨← Frame.enter (.prefixOp t) t stack, none, done⟩) := by
        show State.takeOperand arities stack done t _ = _
        rw [State.takeOperand, if_pos hp]
      rw [if_pos rfl, bind_of_ok (advance_apply hends hw hrest)]
      refine Meets.bind (meets_deeper (.unary chain) hgo hfuel hw hrest rfl hstep rfl
        ⟨wanted_cons, hchain⟩) ?_
      rintro e w' ⟨hw', htrees, hlt, hunapplied, hrun⟩
      exact ⟨hw', htrees, hlt, hunapplied, hrun.trans (run_unary hunapplied)⟩

/-- The routine for applications does what the machine does. -/
theorem correct_call (hgo : Supplies arities ts stop go fuel)
    (hfuel : (Routine.call chain).need (w.rest ts) ≤ fuel + 1) :
    (Routine.call chain).Correct arities ts stop
      ((Routine.call chain).body arities tokens go) w := by
  rintro stack done hw ⟨hwanted, hchain, hp⟩
  have hprimary := hgo .primary w (Routine.need_of_rank hfuel (Nat.lt_add_one 2)) stack done hw
    ⟨hwanted, hp⟩
  rw [Routine.body]
  refine Meets.bind (hprimary.mono (fun _ _ h => h) fun _ _ h => ⟨h.sound, h.trees, h.run⟩) ?_
  intro e w₁ h₁
  cases chain with
  | false =>
    exact ⟨h₁.sound, h₁.trees, h₁.taken,
      fun h => absurd (hchain.symm.trans h) Bool.false_ne_true, h₁.run⟩
  | true =>
    exact (hgo (.arguments e) w₁ (Routine.need_of_lt hfuel h₁.taken)).tail h₁.sound hchain
      h₁.trees h₁.taken (fun _ h _ => h) h₁.run

/-- The loop over arguments does what the machine does. -/
theorem correct_arguments {callee : Expr} (hends : Ends tokens ts stop)
    (hgo : Supplies arities ts stop go fuel)
    (hfuel : (Routine.arguments callee).need (w.rest ts) ≤ fuel + 1) :
    (Routine.arguments callee).Correct arities ts stop
      ((Routine.arguments callee).body arities tokens go) w := by
  intro stack done hw (hchain : Frame.chains stack = true)
  rw [Routine.body, bind_of_ok (check_apply hends hw (by decide))]
  by_cases hdollar : ((w.rest ts).head?.getD stop).kind = .dollar
  · rw [if_pos (decide_eq_true hdollar)]
    cases hrest : w.rest ts with
    | nil =>
      rw [hrest] at hdollar
      exact absurd (hends.atStop.symm.trans hdollar) (by decide)
    | cons t rest =>
      rw [hrest, List.head?_cons, Option.getD_some] at hdollar
      have hrest' := Walk.rest_forward hrest
      have hlt : (w.forward.rest ts).length < (w.rest ts).length := by simp [hrest, hrest']
      have hrun : State.run arities stop ⟨stack, some callee, done⟩ (w.rest ts) =
          State.run arities stop ⟨.argument callee t :: stack, none, done⟩ (w.forward.rest ts) := by
        rw [hrest, hrest', run_dollar hdollar (if_pos hchain)]
      have hdepth : Frame.depth (.argument callee t :: stack) = Frame.depth stack :=
        Frame.depth_cons_of_not_nests rfl
      have hbinary := hgo (.binary false) w.forward (Routine.need_of_lt hfuel hlt)
        (.argument callee t :: stack) done ((hw.forward hrest).congr hdepth)
        ⟨wanted_cons, trivial, rfl⟩
      rw [bind_of_ok (advance_apply hends hw hrest)]
      refine Meets.bind (hbinary.mono (fun _ _ h => h) fun _ _ h =>
        ⟨h.sound.congr hdepth.symm, h.trees, hrun.trans h.run⟩) ?_
      intro argument w₁ h₁
      have hlt₁ := Nat.lt_trans h₁.taken hlt
      exact (hgo (.arguments (.call callee t argument)) w₁ (Routine.need_of_lt hfuel hlt₁)).tail
        (h₁.sound.congr hdepth.symm) hchain h₁.trees (Nat.le_of_lt hlt₁) (fun _ h => h)
        (hrun.trans (h₁.run.trans (run_call h₁.after.1 hchain)))
  · rw [if_neg (by simpa using hdollar)]
    exact ⟨hw, rfl, Nat.le_refl _, hdollar, rfl⟩

/-- The routine for primaries does what the machine does. -/
theorem correct_primary (hends : Ends tokens ts stop) (hgo : Supplies arities ts stop go fuel)
    (hfuel : Routine.primary.need (w.rest ts) ≤ fuel + 1) :
    Routine.primary.Correct arities ts stop (Routine.primary.body arities tokens go) w := by
  rintro stack done hw ⟨hwanted, hp⟩
  have hpeek := peek_apply hends hw
  cases hrest : w.rest ts with
  | nil =>
    -- something waits for an operand, and there is none
    rw [hrest] at hwanted
    rw [hrest, List.head?_nil, Option.getD_none] at hpeek
    obtain ⟨frame, fs, rfl⟩ := List.exists_cons_of_ne_nil fun hnil => hwanted hnil rfl
    have hopener : Bracket.ofOpener? stop.kind = none := by rw [hends.atStop]; rfl
    rw [Routine.body, bind_of_ok hpeek, if_neg (by simp [hends.atStop, TokenKind.isLiteral]),
      if_neg (by simp [hends.atStop]), hopener]
    exact ⟨hw, rfl, by rw [hrest]; rfl⟩
  | cons t rest =>
    rw [hrest, startsPrefixed] at hp
    rw [hrest, List.head?_cons, Option.getD_some] at hpeek
    rw [Routine.body, bind_of_ok hpeek]
    have hforward := hw.forward hrest
    have hrest' := Walk.rest_forward hrest
    have htaken : (w.forward.rest ts).length + 1 ≤ (w.rest ts).length := by simp [hrest, hrest']
    have hrun : State.run arities stop ⟨stack, none, done⟩ (w.rest ts) =
        (State.takeOperand arities stack done t (rest.head?.getD stop).kind >>= fun s =>
          State.run arities stop s rest) := by
      rw [hrest]
      rfl
    rw [takeOperand_of_not_prefixOp hp] at hrun
    by_cases hliteral : t.kind.isLiteral = true
    · rw [if_pos hliteral, bind_of_ok (advance_apply hends hw hrest)]
      rw [if_pos hliteral] at hrun
      cases hvalue : t.literal? with
      | some value =>
        rw [hvalue] at hrun
        exact ⟨hforward, rfl, htaken, trivial, by rw [hrest']; exact hrun⟩
      | none =>
        rw [hvalue] at hrun
        exact ⟨hforward, rfl, hrun⟩
    rw [if_neg hliteral] at hrun ⊢
    by_cases hname : t.kind = .identifier
    · rw [if_pos hname, bind_of_ok (advance_apply hends hw hrest)]
      rw [if_pos hname] at hrun
      exact ⟨hforward, rfl, htaken, trivial, by rw [hrest']; exact hrun⟩
    rw [if_neg hname] at hrun ⊢
    cases hopener : Bracket.ofOpener? t.kind with
    | some bracket =>
      exact (hgo (.grouping bracket) w (Routine.need_of_rank hfuel (Nat.lt_add_one 1))).tail hw
        ⟨t, rest, hrest, hopener⟩ rfl (Nat.le_refl _) (fun _ h => h) rfl
    | none =>
      rw [hopener] at hrun
      exact ⟨hw, rfl, hrun⟩

/-- The routine for groups does what the machine does. -/
theorem correct_grouping {bracket : Bracket} (hends : Ends tokens ts stop)
    (hgo : Supplies arities ts stop go fuel)
    (hfuel : (Routine.grouping bracket).need (w.rest ts) ≤ fuel + 1) :
    (Routine.grouping bracket).Correct arities ts stop
      ((Routine.grouping bracket).body arities tokens go) w := by
  rintro stack done hw ⟨t, rest, hrest, hopener⟩
  have hkind : bracket.closer ≠ .endOfInput := by cases bracket <;> decide
  have hstep : State.step arities ⟨stack, none, done⟩ t (rest.head?.getD stop).kind =
      (do return ⟨← Frame.enter (.group t bracket) t stack, none, done⟩) := by
    rcases Bracket.kind_of_ofOpener? hopener with h | h | h <;> rw [h] at hopener <;>
      simp [State.step, State.takeOperand, State.isPrefixOp, h, hopener]
  rw [Routine.body, bind_of_ok (advance_apply hends hw hrest)]
  refine Meets.bind (meets_deeper (.binary true) hgo hfuel hw hrest rfl hstep rfl
    ⟨wanted_cons, trivial, rfl⟩) ?_
  rintro e w₁ ⟨hw₁, htrees, hlt, ⟨hjoins, hunapplied⟩, hrun⟩
  by_cases hcloser : ((w₁.rest ts).head?.getD stop).kind = bracket.closer
  · cases hrest₁ : w₁.rest ts with
    | nil =>
      rw [hrest₁] at hcloser
      exact absurd (hcloser.symm.trans hends.atStop) hkind
    | cons closer rest₁ =>
      rw [hrest₁, List.head?_cons, Option.getD_some] at hcloser
      have hrest' := Walk.rest_forward hrest₁
      rw [hrest₁, List.length_cons] at hlt
      rw [bind_of_ok (consume_apply hends hw₁ hkind hrest₁ hcloser _)]
      refine ⟨hw₁.forward hrest₁, htrees, ?_, trivial, ?_⟩
      · show (w₁.forward.rest ts).length + 1 ≤ _
        rw [hrest']
        omega
      · rw [hrest₁, run_closer hcloser rfl] at hrun
        rw [hrest']
        exact hrun
  · have hfailed : Meets (fun _ _ => False)
        ((Routine.grouping bracket).Failed arities ts stop w stack done)
        (consume tokens bracket.closer (.expectCloser bracket) w₁) := by
      rw [consume_apply_error hends hw₁ hkind hcloser]
      exact ⟨hw₁, htrees, hrun.trans (run_unclosed hjoins (hunapplied rfl) hcloser)⟩
    exact hfailed.bind fun _ _ h => h.elim

/-- The routines do what the machine does. -/
theorem descend_correct (hends : Ends tokens ts stop) (fuel : Nat) :
    Supplies arities ts stop (descend arities tokens fuel) fuel := by
  induction fuel with
  | zero =>
    intro r w hfuel
    have hrank : 1 ≤ r.rank := by cases r <;> simp [Routine.rank]
    unfold Routine.need at hfuel
    omega
  | succ fuel ih =>
    intro r w hfuel
    cases r with
    | binary chain => exact correct_binary ih hfuel
    | operators chain left => exact correct_operators hends ih hfuel
    | unary chain => exact correct_unary hends ih hfuel
    | call chain => exact correct_call ih hfuel
    | arguments callee => exact correct_arguments hends ih hfuel
    | primary => exact correct_primary hends ih hfuel
    | grouping bracket => exact correct_grouping hends ih hfuel

end Routines

end Descent

end ListCalc
