import ListCalc.Proofs.Eval.Computation
import ListCalc.Proofs.Expr.Parse
import ListCalc.Session

/-!
# Proofs — the ways a run can go

A source is rejected for its faults and the error of its parse, or else its trees are interpreted:
one equation for each case (`run_of_parse_error`, `run_of_faults`, `run_of_parse_ok`).  The tokens
of the trees are tokens of the source, and trees one after the other are interpreted one after the
other (`interpret_append`).
-/

namespace ListCalc

/-- A session at its start, with nothing to read. -/
def quietStart : World :=
  .start .initial (.ofBytes []) (.fresh .accepts) (.fresh .accepts) ⟨0, []⟩

/-- How a run ends that was not rejected. -/
def Outcome.ofResult : EStateM.Result RuntimeError World Unit → Outcome
  | .ok _ w    => ⟨none, w⟩
  | .error e w => ⟨some (.failed e), w⟩

section

variable {w : World} {source : String} {es : List Expr} {e : SyntaxError}

/-- A source that does not parse is rejected, the faults of the scan first. -/
theorem run_of_parse_error (h : Expr.parse w.env.arity? (scan source).tokens = .error e) :
    run w source = ⟨some (.rejected ((scan source).faults ++ [e])), w⟩ := by
  rw [run, readSource, h]

/-- A source with faults of the scan is rejected, even if it parses. -/
theorem run_of_faults (h : Expr.parse w.env.arity? (scan source).tokens = .ok es)
    (hfaults : (scan source).faults ≠ []) :
    run w source = ⟨some (.rejected (scan source).faults), w⟩ := by
  obtain ⟨e, faults, heq⟩ := List.exists_cons_of_ne_nil hfaults
  rw [run, readSource, h, heq]

/-- Any other source is interpreted. -/
theorem run_of_parse_ok (h : Expr.parse w.env.arity? (scan source).tokens = .ok es)
    (hfaults : (scan source).faults = []) : run w source = .ofResult (interpret es w) := by
  rw [run, readSource, h, hfaults]
  dsimp only
  cases interpret es w <;> rfl

end

theorem parse_of_readSource {arities : Arities} {source : String} {es : List Expr}
    (h : readSource arities source = .ok es) :
    Expr.parse arities (scan source).tokens = .ok es := by
  unfold readSource at h
  dsimp only at h
  split at h
  · rename_i hes _
    rw [hes, ← Except.ok.inj h]
  · cases h
  · cases h

/-- The trees of a source are phrases. -/
theorem phrase_of_parse {arities : Arities} {source : String} {es : List Expr}
    (h : Expr.parse arities (scan source).tokens = .ok es) :
    ∀ e ∈ es, Phrase arities (.expression true) e := by
  obtain ⟨ts, stop, hscan, hstop, hts⟩ := scan_tokens_eq source
  rw [hscan] at h
  exact ((parse_eq_ok_iff hts hstop es).mp h).1.phrases

/-- The tokens of the trees of a source are its tokens before the end of input. -/
theorem mem_scan_of_mem_forest {arities : Arities} {source : String} {es : List Expr} {t : Token}
    (h : Expr.parse arities (scan source).tokens = .ok es) (ht : t ∈ es.flatMap Expr.tokens) :
    t ∈ (scan source).tokens ∧ t.kind ≠ .endOfInput := by
  obtain ⟨ts, stop, hscan, hstop, hts⟩ := scan_tokens_eq source
  rw [hscan] at h ⊢
  rw [((parse_eq_ok_iff hts hstop es).mp h).2] at ht
  exact ⟨List.mem_append_left _ ht, hts t ht⟩

/-- Trees in two parts are interpreted one part after the other. -/
theorem interpret_append (es fs : List Expr) :
    interpret (es ++ fs) = (do interpret es; interpret fs) := by
  induction es with
  | nil => rfl
  | cons e es ih => simp only [List.cons_append, interpret, ih, bind_assoc]

end ListCalc
