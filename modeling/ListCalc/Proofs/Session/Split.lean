import ListCalc.Proofs.Eval.Lockstep
import ListCalc.Proofs.Session.Run
import ListCalc.Proofs.Token.Seam

/-!
# Proofs — a program split between two runs

A program can be cut at a line break and its two parts run one after the other.  `Seam` says where:
both parts read well by themselves, and reading does not go on over the break.  Then one run of the
whole is the run of the first part and, if that succeeds, of the second (`run_split`), as long as
the first part leaves the arities of the operators as they are.  The world at the end is the same,
and an error in the second part is the same but for where it stands.

The scan of the whole is put together from those of the parts (`scan_joined`), the forest likewise
(`parse_joined`), and interpreting the shifted trees goes in step with the trees as they were.
-/

namespace ListCalc

/-! ### Errors further on -/

/-- The error further on by as many bytes and lines; what it says stays. -/
def RuntimeError.shift (d : Shift) (e : RuntimeError) : RuntimeError :=
  { e with line := e.line + d.lines, span := e.span.shift d }

/-- The error of a run with all its places further on. -/
def RunError.shift (d : Shift) : RunError → RunError
  | rejected errors => rejected (errors.map (SyntaxError.shift d))
  | failed e        => failed (e.shift d)

/-- The outcome with its error, if there is one, further on in the source. -/
def Outcome.shift (d : Shift) (o : Outcome) : Outcome :=
  ⟨o.error?.map (RunError.shift d), o.world⟩

theorem keepsText_shift (d : Shift) : KeepsText (Token.shift d) := ⟨fun _ => rfl, fun _ => rfl⟩

/-- Interpreting shifted trees ends as without the shift, but for the place of the error. -/
theorem interpret_shift (d : Shift) (es : List Expr) (w : World) :
    Outcome.ofResult (interpret (es.map (Expr.relocate (Token.shift d))) w) =
      (Outcome.ofResult (interpret es w)).shift d := by
  have hstep := interpret_lockstep (twins_eq fun _ => True) (keepsText_shift d) es
    (fun e _ => e.mentionsOnly_of_forall fun _ => trivial) w w rfl
  generalize interpret es w = result, interpret (es.map _) w = shifted at hstep ⊢
  cases hstep with
  | ok hw => cases hw; rfl
  | error _ hw => cases hw; rfl

/-! ### Where a program can be split -/

/-- The two sources read well under the given arities, each by itself, and reading the first does
not go on into the second: that one begins with no infix operator, and if there is anything in it,
the first does not end with a name bound to a unary operator. -/
structure Seam (arities : Arities) (s₁ s₂ : String) : Prop where
  clean₁ : (scan s₁).faults = []
  clean₂ : (scan s₂).faults = []
  parses₁ : ∃ es, Expr.parse arities (scan s₁).tokens = .ok es
  parses₂ : ∃ es, Expr.parse arities (scan s₂).tokens = .ok es
  first : ∀ t, (scan s₂).tokens.head? = some t → ¬ InfixToken arities t
  last : ∀ t, (scan s₁).tokens.dropLast.getLast? = some t → t.kind = .identifier →
    arities t.lexeme = some .unary → (scan s₂).tokens.dropLast = []

/-- The trees of the joined sources are those of the first and then those of the second, shifted. -/
theorem parse_joined {arities : Arities} {s₁ s₂ : String} {es fs : List Expr}
    (h : Seam arities s₁ s₂) (hes : Expr.parse arities (scan s₁).tokens = .ok es)
    (hfs : Expr.parse arities (scan s₂).tokens = .ok fs) :
    Expr.parse arities (scan (s₁ ++ "\n" ++ s₂)).tokens =
      .ok (es ++ fs.map (Expr.relocate (Token.shift (.past s₁)))) := by
  have hkeep := keepsText_shift (.past s₁)
  obtain ⟨ts, stop, hscan, hstop, hjoined, -⟩ := @scan_joined s₁ s₂ h.clean₁
  obtain ⟨ts', stop', hscan', hstop', hts'⟩ := scan_tokens_eq s₂
  obtain ⟨us, ustop, huscan, -, hus⟩ := scan_tokens_eq s₁
  obtain ⟨rfl, -⟩ := List.append_inj' (hscan.symm.trans huscan) rfl
  have hfirst := h.first
  have hlast := h.last
  rw [hscan, List.dropLast_concat] at hlast
  rw [hscan'] at hfirst hlast hjoined
  rw [List.dropLast_concat] at hlast
  rw [hscan, parse_eq_ok_iff hus hstop] at hes
  rw [hscan', parse_eq_ok_iff hts' hstop'] at hfs
  obtain ⟨hforest, rfl⟩ := hes
  obtain ⟨hforest', rfl⟩ := hfs
  have hseam : ¬ InfixToken arities (firstOf fs stop') := by
    refine hfirst _ ?_
    rw [← head?_forestTokens, List.head?_append]
    cases (fs.flatMap Expr.tokens).head? <;> rfl
  rw [hjoined, List.map_append, ← List.append_assoc, List.map_singleton]
  refine (parse_eq_ok_iff ?_ ?_ _).mpr ⟨hforest.append (hforest'.relocate hkeep) ?_ ?_, ?_⟩
  · intro t ht
    rcases List.mem_append.mp ht with ht | ht
    · exact hus t ht
    · obtain ⟨u, hu, rfl⟩ := List.mem_map.mp ht
      exact hts' u hu
  · exact hstop'
  · rwa [firstOf_relocate, hkeep.infixToken_iff]
  · -- a name that could go on stands before the end of input only
    intro t ht hkind hunary
    have hnil := hlast t ht hkind hunary
    have hend : firstOf fs stop' = stop' := by rw [← head?_forestTokens, hnil]; rfl
    rw [firstOf_relocate, hkeep.kind, hend, hstop']
    rfl
  · simp [List.flatMap_map, List.map_flatMap, Expr.tokens_relocate]

/-! ### Two runs for one -/

/-- The first source is run, and the second one if that succeeds; errors are placed as in the two
sources joined by a newline. -/
def runInTurn (w : World) (s₁ s₂ : String) : Outcome :=
  match run w s₁ with
  | ⟨none, w₁⟩ => (run w₁ s₂).shift (.past s₁)
  | outcome    => outcome

/-- **Splitting a program.**  Where a program can be split at a line break, and the first part
leaves the arities of the operators as they are, running it as a whole is running its two parts in
turn: the same world, and the same error but for its place. -/
theorem run_split {w : World} {s₁ s₂ : String} (h : Seam w.env.arity? s₁ s₂)
    (harities : (run w s₁).world.env.arity? = w.env.arity?) :
    run w (s₁ ++ "\n" ++ s₂) = runInTurn w s₁ s₂ := by
  obtain ⟨es, hes⟩ := h.parses₁
  obtain ⟨fs, hfs⟩ := h.parses₂
  obtain ⟨-, -, -, -, -, hfaults⟩ := @scan_joined s₁ s₂ h.clean₁
  rw [h.clean₂, List.map_nil] at hfaults
  have hrun₁ := run_of_parse_ok hes h.clean₁
  rw [run_of_parse_ok (parse_joined h hes hfs) hfaults, interpret_append, bind_apply]
  cases hinterpret : interpret es w with
  | error e w₁ =>
    rw [hinterpret, Outcome.ofResult] at hrun₁
    rw [runInTurn, hrun₁]
    rfl
  | ok _ w₁ =>
    rw [hinterpret, Outcome.ofResult] at hrun₁
    rw [hrun₁] at harities
    have hrun₂ : run w₁ s₂ = .ofResult (interpret fs w₁) :=
      run_of_parse_ok (by rw [show w₁.env.arity? = w.env.arity? from harities, hfs]) h.clean₂
    rw [runInTurn, hrun₁]
    dsimp only
    rw [hrun₂, interpret_shift]

theorem exists_ok_of_isOk {ε α : Type} {x : Except ε α} (h : x.isOk = true) : ∃ a, x = .ok a := by
  cases x with
  | ok a => exact ⟨a, rfl⟩
  | error e => cases h

/-- A comment ends at the break, and the two names `x` stand in different parts. -/
theorem seam_after_comment : Seam quietStart.env.arity? "x:2 # two" "x\n/0" where
  clean₁ := by decide +kernel
  clean₂ := by decide +kernel
  parses₁ := exists_ok_of_isOk (by decide +kernel)
  parses₂ := exists_ok_of_isOk (by decide +kernel)
  first := by
    have hhead : (scan "x\n/0").tokens.head? = some ⟨.identifier, "x", 0, 1⟩ := by decide +kernel
    intro t ht
    rw [hhead] at ht
    cases ht
    rintro (h | ⟨-, h⟩)
    · cases h
    · revert h
      decide +kernel
  last := by
    have hlast : (scan "x:2 # two").tokens.dropLast.getLast? = some ⟨.number, "2", 2, 1⟩ := by
      decide +kernel
    intro t ht hkind
    rw [hlast] at ht
    cases ht
    cases hkind

/-- The second part fails on the third line of the whole, after the first has set `x`. -/
theorem run_split_after_comment :
    run quietStart ("x:2 # two" ++ "\n" ++ "x\n/0") = runInTurn quietStart "x:2 # two" "x\n/0" ∧
      (runInTurn quietStart "x:2 # two" "x\n/0").error? =
        some (.failed (.atToken ⟨.slash, "/", 12, 3⟩ (.operator .divisionByZero))) := by
  have henv : (run quietStart "x:2 # two").world.env = quietStart.env.set "x" (.integer 2) := by
    decide +kernel
  have hunbound : quietStart.env.arity? "x" = none := by decide +kernel
  refine ⟨run_split seam_after_comment ?_, by decide +kernel⟩
  funext name
  rw [henv]
  by_cases hname : name = "x"
  · rw [hname, hunbound]
    decide +kernel
  · simp [Env.arity?, Env.extension?, hname]

end ListCalc
