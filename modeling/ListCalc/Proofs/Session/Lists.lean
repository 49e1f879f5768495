import ListCalc.Proofs.Eval.Closed
import ListCalc.Session

/-!
# Proofs — lists over a session

A session goes on by steps: a source is run, trees are evaluated, a list is built, a name is set, an
operator is registered (`SessionStep`).  A step carries the joins it makes.  The operators that are
registered have any `Body`; they may join and then fail, and what they have joined stays joined.  In
every world that a session reaches from its start, all lists that are referred to are there
(`Reachable.closed`).

`lists_append_only` is the main fact: lists only grow at the end, by joins that have them on their
left, and the operators that give a new list give one that nothing referred to.
-/

namespace ListCalc

/-- The pairs of values that a run joins. -/
def runJoins (w : World) (source : String) : List (Value × Value) :=
  match readSource w.env.arity? source with
  | .ok trees => batchJoins trees w
  | .error _  => []

/-- One step of a session, with the joins it makes. -/
inductive SessionStep (w : World) : List (Value × Value) → World → Prop where
  | run (source : String) : SessionStep w (runJoins w source) (run w source).world
  | evaluate (e : Expr) : SessionStep w (joins e w) (after (evaluate e) w)
  | interpret (es : List Expr) : SessionStep w (batchJoins es w) (after (interpret es) w)
  /-- A list is built out of values that are there. -/
  | build (items : Array Value) (hitems : ∀ v ∈ items, v.Within w.heap) :
      SessionStep w [] { w with heap := (w.heap.newList items).2 }
  | set (name : String) (v : Value) (hv : v.Within w.heap) :
      SessionStep w [] { w with env := w.env.set name v }
  /-- An operator of the host gets a name. -/
  | register (name : String) (action : Action) : SessionStep w [] (w.register name action)
  /-- The streams and the clock go on by themselves. -/
  | outside (input : Input) (out err : Output) (clock : Clock) :
      SessionStep w [] { w with input := input, out := out, err := err, clock := clock }

/-- A session from one world to another, with all joins it makes. -/
inductive Session (w : World) : List (Value × Value) → World → Prop where
  | here : Session w [] w
  | more {joins more : List (Value × Value)} {w₁ w₂ : World} (h : Session w joins w₁)
      (step : SessionStep w₁ more w₂) : Session w (joins ++ more) w₂

/-- The world is one that a session reaches from its start. -/
def Reachable (w : World) : Prop :=
  ∃ env input out err clock joins, (env = .initial ∨ env = .empty) ∧
    Session (World.start env input out err clock) joins w

/-! ### Steps -/

/-- The world after a run is the one that its trees leave. -/
theorem run_world (w : World) (source : String) : (run w source).world =
    match readSource w.env.arity? source with
    | .ok trees => after (interpret trees) w
    | .error _  => w := by
  rw [run]
  cases readSource w.env.arity? source with
  | error errors => rfl
  | ok trees =>
    cases h : interpret trees w with
    | ok _ w' => simp only [h, after_of_ok h]
    | error e w' => simp only [h, after_of_error h]

variable {w w' : World} {joined : List (Value × Value)}

/-- A step only appends what it joins. -/
theorem SessionStep.grew (h : SessionStep w joined w') : Grew w.heap w'.heap joined := by
  cases h with
  | run source =>
    rw [run_world, runJoins]
    cases readSource w.env.arity? source with
    | ok trees => exact interpret_grows trees w
    | error errors => exact .refl w.heap
  | evaluate e => exact evaluate_grows e w
  | interpret es => exact interpret_grows es w
  | build items _ => exact .newList w.heap items
  | _ => exact .refl w.heap

/-- A step keeps the world closed. -/
theorem SessionStep.closed (h : SessionStep w joined w') (hw : w.Closed) : w'.Closed := by
  cases h with
  | run source =>
    rw [run_world]
    cases readSource w.env.arity? source with
    | ok trees => exact interpret_closed trees hw
    | error errors => exact hw
  | evaluate e => exact (evaluate_keeps e hw).state
  | interpret es => exact interpret_closed es hw
  | build items hitems => exact hw.grew (.newList w.heap items) (hw.heap.newList hitems).1
  | set name v hv => exact hw.set hv name
  | register name action =>
    have hc : Value.Within w.heap (.callable ⟨w.nextIdent, name, action⟩) :=
      Value.within_of_not_list nofun
    exact ⟨hw.heap, (hw.set hc name).env⟩
  | outside input out err clock => exact ⟨hw.heap, hw.env⟩

theorem Session.grew (h : Session w joined w') : Grew w.heap w'.heap joined := by
  induction h with
  | here => exact .refl w.heap
  | more _ step ih => exact ih.trans step.grew

theorem Session.closed (h : Session w joined w') (hw : w.Closed) : w'.Closed := by
  induction h with
  | here => exact hw
  | more _ step ih => exact step.closed ih

/-- Registered operators are no lists. -/
theorem foldl_register_within {h : Heap} (cs : List Callable) {env : Env}
    (henv : ∀ name v, env.get? name = some v → v.Within h) :
    ∀ name v, (cs.foldl Env.register env).get? name = some v → v.Within h := by
  induction cs generalizing env with
  | nil => exact henv
  | cons c cs ih =>
    refine ih fun name v hv => ?_
    rw [Env.register, Env.get?_set] at hv
    split at hv
    · cases hv
      exact Value.within_of_not_list nofun
    · exact henv name v hv

/-- A world is closed at the start. -/
theorem start_closed {env : Env} (henv : env = .initial ∨ env = .empty) (input : Input)
    (out err : Output) (clock : Clock) : (World.start env input out err clock).Closed := by
  refine ⟨Heap.closed_empty, fun name v hv => ?_⟩
  rcases henv with rfl | rfl
  · exact foldl_register_within builtins (fun _ _ hnone => by cases hnone) name v hv
  · cases hv

/-- Every world that a session reaches is closed. -/
theorem Reachable.closed (hw : Reachable w) : w.Closed := by
  obtain ⟨env, input, out, err, clock, joins, henv, hs⟩ := hw
  exact hs.closed (start_closed henv input out err clock)

/-! ### The main fact -/

/-- **Lists are append-only.**  In a world that a session reaches, nothing refers to a list that is
not there.  Evaluating a tree, whether it succeeds or fails, and whatever else the session does
after that, leaves each list with its elements and then the right values of the joins that had it
on their left.  The joins are those of `;` and those that the bodies of the host's operators make.
`..` and `permutations` make a new list or fail; `.`, `cproduct`, `null`, and `;` after a value that
is no list, make a new list. -/
theorem lists_append_only (hw : Reachable w) :
    w.Closed ∧
    (∀ e, Grew w.heap (after (evaluate e) w).heap (joins e w)) ∧
    (∀ joined w', Session w joined w' → Grew w.heap w'.heap joined) ∧
    (∀ t left right, MakesListOrFails (operateBinary t .range left right) w) ∧
    (∀ t v, MakesListOrFails (operate t (UnaryAction.permutations.run v)) w) ∧
    (∀ t left right, MakesList (operateBinary t .intersect left right) w) ∧
    (∀ t left right, MakesList (operate t (BinaryAction.product.run left right)) w) ∧
    MakesList (literalValue .null) w ∧
    ∀ t left right, (∀ r, left ≠ .list r) → MakesList (operateBinary t .cons left right) w := by
  refine ⟨hw.closed, fun e => evaluate_grows e w, fun _ _ hs => hs.grew, ?_, ?_, ?_, ?_,
    makesList_null w, ?_⟩
  · intro t left right
    rw [operateBinary]
    exact .operate fun out hout => .range hout
  · intro t v
    exact .operate fun out hout => .permutations hout
  · intro t left right
    rw [operateBinary]
    exact .operate rfl (.intersect w.heap left right)
  · intro t left right
    exact .operate rfl (.product w.heap left right)
  · intro t left right hl
    rw [operateBinary]
    exact .operate rfl (.cons hl right)

/-- A session that has built a list of a one and set `x` to it. -/
def oneListWorld : World :=
  let w : World := .start .empty (.ofBytes []) (.fresh .accepts) (.fresh .accepts) ⟨0, []⟩
  { w with heap := (w.heap.newList #[.integer 1]).2, env := w.env.set "x" (.list ⟨0⟩) }

theorem oneListWorld_reachable : Reachable oneListWorld := by
  have hbuild : ∀ v ∈ #[Value.integer 1], v.Within Heap.empty := by
    intro v hv
    rw [List.mem_toArray, List.mem_singleton] at hv
    exact Value.within_of_not_list fun r hr => by cases hv.symm.trans hr
  have hset : Value.Within (Heap.empty.newList #[.integer 1]).2 (.list ⟨0⟩) := by
    rintro r ⟨⟩
    decide
  exact ⟨.empty, .ofBytes [], .fresh .accepts, .fresh .accepts, ⟨0, []⟩, _, .inr rfl,
    (Session.here.more (.build _ hbuild)).more (.set "x" _ hset)⟩

/-- The tree of `x;(x;3)`, which appends to a list while it is the operand of another join. -/
def nestedJoin : Expr :=
  .binary (.name ⟨.identifier, "x", 0, 1⟩) ⟨.semicolon, ";", 1, 1⟩
    (.group ⟨.leftParen, "(", 2, 1⟩
      (.binary (.name ⟨.identifier, "x", 3, 1⟩) ⟨.semicolon, ";", 4, 1⟩
        (.literal ⟨.number, "3", 5, 1⟩ (.integer 3)))
      ⟨.rightParen, ")", 6, 1⟩)

/-- The list then holds its one, the three, and itself. -/
theorem nestedJoin_appends : oneListWorld.heap.Has ⟨0⟩ ∧
    ((after (evaluate nestedJoin) oneListWorld).heap.get ⟨0⟩).toList =
      [.integer 1, .integer 3, .list ⟨0⟩] := by
  have hhas : oneListWorld.heap.Has ⟨0⟩ := by decide
  have hjoins : appended ⟨0⟩ (joins nestedJoin oneListWorld) = [.integer 3, .list ⟨0⟩] := by decide
  have hget := ((lists_append_only oneListWorld_reachable).2.1 nestedJoin).get hhas
  rw [hjoins] at hget
  exact ⟨hhas, hget⟩

/-- An operator that joins a two to its operand and then fails. -/
def joinThenFail : UnaryAction :=
  .host (.andThen (.join (.operand ⟨0, Nat.one_pos⟩) (.literal (.integer 2))) (.refuse "no"))

/-- The two is in the list although the operator has failed. -/
example :
    let f : Token := ⟨.identifier, "f", 0, 1⟩
    let w := oneListWorld.register "f" (.unary joinThenFail)
    ∃ w', evaluate (.unary f (.name ⟨.identifier, "x", 2, 1⟩)) w =
        .error (.atToken f (.operator (.extension "no"))) w' ∧
      (w'.heap.get ⟨0⟩).toList = [.integer 1, .integer 2] :=
  ⟨_, rfl, rfl⟩

end ListCalc
