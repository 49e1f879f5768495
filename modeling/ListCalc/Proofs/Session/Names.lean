import ListCalc.Proofs.Eval.Lockstep
import ListCalc.Proofs.Session.Run

/-!
# Proofs — what a run depends on

A run depends on the bindings of the names that its source mentions, and on no other
(`run_depends_on_names`).  Bindings are looked up at two times.  The parser asks for arities, and
only for those of identifiers among the tokens, so under tables that agree on these it reads the
same trees (`parse_congr`).  The evaluator looks up what the trees mention, and everything that a
tree mentions is an identifier among its tokens (`Phrase.mentionsOnly`); so the evaluations in the
two worlds go in step.
-/

namespace ListCalc

/-! ### Reading under two tables -/

/-- The two tables give the same arity to every identifier among the tokens. -/
def SameArities (arities arities' : Arities) (ts : List Token) : Prop :=
  ∀ t ∈ ts, t.kind = .identifier → arities' t.lexeme = arities t.lexeme

section Parser

open ListCalc.Expr (State)

variable {arities arities' : Arities} {t : Token} {ts : List Token}

/-- Tables that agree on the tokens find the same prefix operators. -/
theorem SameArities.isPrefixOp (h : SameArities arities arities' ts) (ht : t ∈ ts)
    (next : TokenKind) : State.isPrefixOp arities' t next = State.isPrefixOp arities t next := by
  unfold State.isPrefixOp
  split
  · rfl
  · rfl
  · rename_i hkind
    rw [h t ht hkind]
  · rfl

/-- Tables that agree on the tokens find the same binary operators. -/
theorem SameArities.isBinaryOp (h : SameArities arities arities' ts) (ht : t ∈ ts) :
    State.isBinaryOp arities' t = State.isBinaryOp arities t := by
  unfold State.isBinaryOp
  split
  · rename_i hkind
    rw [h t ht hkind]
  · rfl

/-- Tables that agree on the tokens take the same steps. -/
theorem SameArities.step (h : SameArities arities arities' ts) (ht : t ∈ ts) (s : State)
    (next : TokenKind) : s.step arities' t next = s.step arities t next := by
  unfold State.step State.takeOther State.takeOperand
  rw [h.isPrefixOp ht, h.isBinaryOp ht]

theorem SameArities.run (stop : Token) (h : SameArities arities arities' ts) (s : State) :
    State.run arities' stop s ts = State.run arities stop s ts := by
  induction ts generalizing s with
  | nil => rfl
  | cons t ts ih =>
    rw [State.run, State.run, h.step (.head _)]
    congr 1
    funext s'
    exact ih (fun u hu => h u (.tail _ hu)) s'

/-- Tables that agree on the tokens read the same trees. -/
theorem parse_congr (h : SameArities arities arities' ts) :
    Expr.parse arities' ts = Expr.parse arities ts :=
  SameArities.run _ (fun t ht => h t ((List.takeWhile_sublist _).mem ht)) _

/-- A tree of the grammar mentions only identifiers among its tokens. -/
theorem Phrase.mentionsOnly {k : Category} {e : Expr} {names : String → Prop}
    (h : Phrase arities k e) (hnames : ∀ t ∈ e.tokens, t.kind = .identifier → names t.lexeme) :
    e.MentionsOnly names := by
  induction h with
  | @assign _ target op e htarget hop _ ih =>
    refine ⟨hnames target (by simp [Expr.tokens]) htarget, fun hnone => ?_, ih fun t ht => ?_⟩
    · rw [hop] at hnone
      cases hnone
    · exact hnames t (by simp [Expr.tokens, ht])
  | series _ ih | operand _ ih | application _ ih | primary _ ih => exact ih hnames
  | @joined _ left right op _ hop _ _ ihl ihr =>
    refine ⟨ihl fun t ht => hnames t (by simp [Expr.tokens, ht]), fun hnone => ?_,
      ihr fun t ht => hnames t (by simp [Expr.tokens, ht])⟩
    rcases hop with hsome | ⟨hkind, -⟩
    · rw [hnone] at hsome
      cases hsome
    · exact hnames op (by simp [Expr.tokens]) hkind
  | @prefixed _ op e hop _ ih =>
    refine ⟨fun hnone => ?_, ih fun t ht => hnames t (by simp [Expr.tokens, ht])⟩
    rcases hop with hkind | hkind | ⟨hkind, -⟩
    · rw [hkind] at hnone
      cases hnone
    · rw [hkind] at hnone
      cases hnone
    · exact hnames op (by simp [Expr.tokens]) hkind
  | @call callee argument dollar _ _ _ ihc iha =>
    exact ⟨ihc fun t ht => hnames t (by simp [Expr.tokens, ht]),
      iha fun t ht => hnames t (by simp [Expr.tokens, ht])⟩
  | literal => trivial
  | @name t ht => exact hnames t (by simp [Expr.tokens]) ht
  | @group opener closer _ e _ _ _ ih => exact ih fun t ht => hnames t (by simp [Expr.tokens, ht])

end Parser

/-! ### Worlds alike for some names -/

/-- The names that a source mentions: the texts of its identifiers. -/
def identifiers (source : String) : List String :=
  ((scan source).tokens.filter (·.kind = .identifier)).map Token.lexeme

/-- The identifiers of a source are those of its tokens. -/
theorem lexeme_mem_identifiers {source : String} {t : Token} (ht : t ∈ (scan source).tokens)
    (hkind : t.kind = .identifier) : t.lexeme ∈ identifiers source :=
  List.mem_map_of_mem (List.mem_filter.mpr ⟨ht, by simp [hkind]⟩)

/-- The worlds have their lists, streams and clock in common, and each of the names is bound to the
same value in both or in neither. -/
structure Alike (names : List String) (w w' : World) : Prop where
  shared : w'.shared = w.shared
  get? : ∀ name ∈ names, w'.env.get? name = w.env.get? name

/-- The bindings of all names but these are the same in the two worlds. -/
def KeepsOthers (names : List String) (w w₁ : World) : Prop :=
  ∀ name, name ∉ names → w₁.env.get? name = w.env.get? name

section Worlds

variable {names : List String} {w w' : World} {source : String}

/-- Binding one of the names keeps the others. -/
theorem KeepsOthers.set {w₁ : World} (h : KeepsOthers names w w₁) {name : String}
    (hname : name ∈ names) (v : Value) :
    KeepsOthers names w { w₁ with env := w₁.env.set name v } := by
  intro other hother
  have hne : other ≠ name := by
    rintro rfl
    exact hother hname
  rw [Env.get?_set, if_neg hne, h other hother]

/-- Worlds that are alike for `names`, where no other name has been set since `w` and `w'`, are
twins. -/
theorem twins_alike (names : List String) (w w' : World) :
    Twins (· ∈ names) fun w₁ w₁' =>
      Alike names w₁ w₁' ∧ KeepsOthers names w w₁ ∧ KeepsOthers names w' w₁' where
  shared h := h.1.shared
  withShared h s := ⟨⟨rfl, h.1.get?⟩, h.2⟩
  get? h := h.1.get?
  set h name hname v := by
    obtain ⟨halike, hkeeps, hkeeps'⟩ := h
    refine ⟨⟨halike.shared, fun other hother => ?_⟩, hkeeps.set hname v, hkeeps'.set hname v⟩
    rw [Env.get?_set, Env.get?_set, halike.get? other hother]

/-- Worlds alike for the identifiers of a source read it under tables that agree. -/
theorem Alike.sameArities (h : Alike (identifiers source) w w') :
    SameArities w.env.arity? w'.env.arity? (scan source).tokens := by
  intro t ht hkind
  rw [Env.arity?, Env.arity?, Env.extension?, Env.extension?,
    h.get? _ (lexeme_mem_identifiers ht hkind)]

/-- The trees of a source mention only its identifiers. -/
theorem forest_mentionsOnly {arities : Arities} {es : List Expr}
    (h : Expr.parse arities (scan source).tokens = .ok es) :
    ∀ e ∈ es, e.MentionsOnly (· ∈ identifiers source) := by
  intro e he
  refine (phrase_of_parse h e he).mentionsOnly fun t ht hkind => lexeme_mem_identifiers ?_ hkind
  exact (mem_scan_of_mem_forest h (List.mem_flatMap_of_mem he ht)).1

/-! ### The main fact -/

/-- **A run depends on the names it mentions.**  In worlds with the same lists, streams and clock,
which agree on the identifiers of the source, a run ends in the same way: with the same error or
none, and in worlds that are again the same but for the bindings of other names.  Those it leaves
as they were. -/
theorem run_depends_on_names (h : Alike (identifiers source) w w') :
    (run w' source).error? = (run w source).error? ∧
    Alike (identifiers source) (run w source).world (run w' source).world ∧
    KeepsOthers (identifiers source) w (run w source).world ∧
    KeepsOthers (identifiers source) w' (run w' source).world := by
  have hparse := parse_congr h.sameArities
  have hstart : Alike (identifiers source) w w' ∧ KeepsOthers (identifiers source) w w ∧
      KeepsOthers (identifiers source) w' w' := ⟨h, fun _ _ => rfl, fun _ _ => rfl⟩
  cases hes : Expr.parse w.env.arity? (scan source).tokens with
  | error e =>
    rw [run_of_parse_error hes, run_of_parse_error (hparse.trans hes)]
    exact ⟨rfl, hstart⟩
  | ok es =>
    by_cases hfaults : (scan source).faults = []
    · rw [run_of_parse_ok hes hfaults, run_of_parse_ok (hparse.trans hes) hfaults]
      have hstep := interpret_lockstep_self (twins_alike _ w w') es (forest_mentionsOnly hes) w w'
        hstart
      generalize interpret es w = result, interpret es w' = result' at hstep ⊢
      cases hstep with
      | ok hworlds => exact ⟨rfl, hworlds⟩
      | error _ hworlds => exact ⟨rfl, hworlds⟩
    · rw [run_of_faults hes hfaults, run_of_faults (hparse.trans hes) hfaults]
      exact ⟨rfl, hstart⟩

end Worlds

/-- A session in which an operator has been bound to `y`. -/
def operatorWorld : World := quietStart.register "y" (.unary .permutations)

/-- A run that mentions only `x` fails there as it does without the operator, which it leaves
bound. -/
theorem run_depends_on_names_operator :
    (run operatorWorld "x:2 x/0").error? = (run quietStart "x:2 x/0").error? ∧
    (run quietStart "x:2 x/0").error? =
      some (.failed (.atToken ⟨.slash, "/", 5, 1⟩ (.operator .divisionByZero))) ∧
    (run operatorWorld "x:2 x/0").world.env.get? "y" = operatorWorld.env.get? "y" := by
  have hnames : identifiers "x:2 x/0" = ["x", "x"] := by decide +kernel
  have halike : Alike (identifiers "x:2 x/0") quietStart operatorWorld := by
    refine ⟨rfl, fun name hname => ?_⟩
    have hx : name = "x" := by simpa [hnames] using hname
    rw [hx, operatorWorld, World.register, Env.register, Env.get?_set]
    rfl
  obtain ⟨herror, -, -, hkeeps⟩ := run_depends_on_names halike
  exact ⟨herror, by decide +kernel, hkeeps "y" (by simp [hnames])⟩

end ListCalc
