import ListCalc.Proofs.Expr.Failure
import ListCalc.Proofs.Expr.Soundness
import ListCalc.Proofs.Token.Tiling

/-!
# Proofs — the parser and its grammar

`parse_eq_ok_iff` joins the two directions: the parser returns a forest exactly if it is a forest
of the grammar and its tokens are the given ones.  `parse_scan_exact` is the same for the tokens of
a source, where it also gives that no source has two forests.

The grammar by itself is not enough for that: a phrase can be nested deeper than the parser goes,
and a text can be cut into phrases in two ways (`phrases_not_exact`).
-/

namespace ListCalc

open ListCalc.Expr (State)

/-- What stands behind the end of input is not looked at. -/
theorem body_append_stop {ts us : List Token} {stop : Token}
    (hts : ∀ t ∈ ts, t.kind ≠ .endOfInput) (hstop : stop.kind = .endOfInput) :
    Expr.body (ts ++ stop :: us) = (ts, stop) := by
  have htake : (ts ++ stop :: us).takeWhile (·.kind ≠ .endOfInput) = ts := by
    rw [List.takeWhile_append_of_pos (by simpa using hts)]
    simp [hstop]
  have hfind : (ts ++ stop :: us).find? (·.kind = .endOfInput) = some stop := by
    rw [List.find?_append, List.find?_eq_none.mpr (by simpa using hts)]
    simp [hstop]
  rw [Expr.body, htake, hfind]
  rfl

theorem not_infixToken_of_end {arities : Arities} {stop : Token}
    (hstop : stop.kind = .endOfInput) : ¬ InfixToken arities stop := by
  simp [InfixToken, hstop, BinaryOp.ofKind?]

/-- The end of input is no part of a phrase. -/
theorem Phrase.kind_ne_endOfInput {arities : Arities} {k : Category} {e : Expr}
    (h : Phrase arities k e) : ∀ t ∈ e.tokens, t.kind ≠ .endOfInput := by
  induction h with
  | @assign _ target op e htarget hop _ ih =>
    have hne : op.kind ≠ .endOfInput := fun hend => by rw [hend] at hop; cases hop
    simpa [Expr.tokens, htarget, hne] using ih
  | series _ ih | operand _ ih | application _ ih | primary _ ih => exact ih
  | @joined _ left right op _ hop _ _ ihl ihr =>
    have hne : op.kind ≠ .endOfInput := fun hend => not_infixToken_of_end hend hop
    intro t ht
    rcases List.mem_append.mp ht with ht | ht
    · exact ihl t ht
    · rcases List.mem_cons.mp ht with rfl | ht
      · exact hne
      · exact ihr t ht
  | @prefixed _ op e hop _ ih =>
    have hne : op.kind ≠ .endOfInput := by
      rcases hop with h | h | ⟨h, -⟩ <;> simp [h]
    simpa [Expr.tokens, hne] using ih
  | @call callee argument dollar _ hd _ ihc iha =>
    intro t ht
    rcases List.mem_append.mp ht with ht | ht
    · exact ihc t ht
    · rcases List.mem_cons.mp ht with rfl | ht
      · simp [hd]
      · exact iha t ht
  | @literal t value h =>
    rcases Token.kind_of_literal? h with h | h | h | h | h <;> simp [Expr.tokens, h]
  | @name t h => simp [Expr.tokens, h]
  | @group opener closer bracket e hopener _ hcloser ih =>
    have hne : opener.kind ≠ .endOfInput := by
      rcases Bracket.kind_of_ofOpener? hopener with h | h | h <;> simp [h]
    have hne' : closer.kind ≠ .endOfInput := by
      rw [hcloser]
      cases bracket <;> decide
    intro t ht
    rcases List.mem_append.mp ht with ht | ht
    · rcases List.mem_cons.mp ht with rfl | ht
      · exact hne
      · exact ih t ht
    · rwa [List.mem_singleton.mp ht]

/-- The parser returns exactly the forests of the grammar. -/
theorem parse_eq_ok_iff {arities : Arities} {ts : List Token} {stop : Token}
    (hts : ∀ t ∈ ts, t.kind ≠ .endOfInput) (hstop : stop.kind = .endOfInput)
    (forest : List Expr) :
    Expr.parse arities (ts ++ [stop]) = .ok forest ↔
      IsForest arities stop forest ∧ forest.flatMap Expr.tokens = ts := by
  rw [Expr.parse, body_append_stop hts hstop]
  constructor
  · intro h
    have hp : Progress arities stop .initial ts :=
      ⟨⟨by simp [State.initial], by simp [State.initial], trivial⟩, .of_awaits (.operand .bottom)⟩
    exact run_sound (not_infixToken_of_end hstop) hp h
  · rintro ⟨hf, rfl⟩
    exact run_forest [] hf

/-- The tokens of a source end with the one for the end of input. -/
theorem scan_tokens_eq (source : String) : ∃ ts stop, (scan source).tokens = ts ++ [stop] ∧
    stop.kind = .endOfInput ∧ ∀ t ∈ ts, t.kind ≠ .endOfInput := by
  obtain ⟨init, stop, hitems, hkind, -, -, hinit⟩ := (tiles_items source).exists_end
  refine ⟨init.filterMap Item.token?, stop, ?_, hkind, fun t ht => ?_⟩
  · rw [scan, hitems, List.filterMap_append]
    rfl
  · obtain ⟨i, hi, hti⟩ := List.mem_filterMap.mp ht
    rw [Item.token?_eq_some] at hti
    subst hti
    exact hinit _ hi

/-- The parse of a source fails at one of its tokens, after all tokens before it were taken. -/
theorem parse_scan_eq_error {arities : Arities} {source : String} {error : SyntaxError}
    (h : Expr.parse arities (scan source).tokens = .error error) :
    ∃ before t behind s, (scan source).tokens = before ++ t :: behind ∧
      State.initial.take arities t.kind before = .ok s ∧ Stuck arities s error t behind := by
  obtain ⟨ts, stop, hscan, hstop, hts⟩ := scan_tokens_eq source
  rw [hscan, Expr.parse, body_append_stop hts hstop] at h
  rw [hscan]
  exact run_eq_error h

/-- **The parser is exact.**  For the tokens `ts` of a source before the end of input, it returns a
forest exactly if that is a forest of the grammar with the tokens `ts`, and there is at most one. -/
theorem parse_scan_exact (arities : Arities) (source : String) :
    ∃ ts stop, (scan source).tokens = ts ++ [stop] ∧ stop.kind = .endOfInput ∧
      (∀ t ∈ ts, t.kind ≠ .endOfInput) ∧
      (∀ forest, Expr.parse arities (scan source).tokens = .ok forest ↔
        IsForest arities stop forest ∧ forest.flatMap Expr.tokens = ts) ∧
      ∀ f g, IsForest arities stop f → f.flatMap Expr.tokens = ts →
        IsForest arities stop g → g.flatMap Expr.tokens = ts → f = g := by
  obtain ⟨ts, stop, hscan, hstop, hts⟩ := scan_tokens_eq source
  have hiff := @parse_eq_ok_iff arities ts stop hts hstop
  rw [hscan]
  refine ⟨ts, stop, rfl, hstop, hts, hiff, fun f g hf hft hg hgt => ?_⟩
  have h := ((hiff f).mpr ⟨hf, hft⟩).symm.trans ((hiff g).mpr ⟨hg, hgt⟩)
  exact Except.ok.inj h

/-! ### Phrases alone -/

/-- The trees are phrases, with the given tokens from left to right. -/
def PhrasesOf (arities : Arities) (ts : List Token) (forest : List Expr) : Prop :=
  (∀ e ∈ forest, Phrase arities (.expression true) e) ∧ forest.flatMap Expr.tokens = ts

/-- A one behind `n` minus signs. -/
def negatedOne (n : Nat) : String := String.ofList (List.replicate n '-' ++ ['1'])

theorem placed_minuses (p : Place) (n : Nat) (cs : List Char) :
    ∃ (ms : List Token) (q : Place), placed p (pieces (List.replicate n '-' ++ cs)) =
        ms.map Item.token ++ placed q (pieces cs) ∧
      ms.length = n ∧ ∀ t ∈ ms, t.kind = .minus := by
  induction n generalizing p with
  | zero => exact ⟨[], p, rfl, rfl, by simp⟩
  | succ n ih =>
    obtain ⟨ms, q, hplaced, hlen, hkind⟩ := ih (p.advance ['-'])
    have hpiece (ds : List Char) : firstPiece '-' ds = .token .minus ['-'] := rfl
    refine ⟨p.token .minus ['-'] :: ms, q, ?_, by simp [hlen], by simpa using ⟨rfl, hkind⟩⟩
    rw [List.replicate_succ, List.cons_append, pieces, hpiece]
    simp only [Piece.text, List.length_singleton, List.drop_succ_cons, List.drop_zero, placed,
      Piece.item?, Option.toList_some, List.map_cons, List.cons_append, List.nil_append, hplaced]

theorem scan_negatedOne (n : Nat) : ∃ (ms : List Token) (one stop : Token),
    (scan (negatedOne n)).tokens = ms ++ [one, stop] ∧ ms.length = n ∧
      (∀ t ∈ ms, t.kind = .minus) ∧ one.literal? = some (.integer 1) := by
  obtain ⟨ms, q, hplaced, hlen, hkind⟩ := placed_minuses .start n ['1']
  have hpiece : pieces ['1'] = [.token .number ['1']] := by
    rw [pieces, show firstPiece '1' [] = .token .number ['1'] from rfl]
    simp [Piece.text, pieces]
  refine ⟨ms, q.token .number ['1'], (q.advance ['1']).token .endOfInput [], ?_, hlen, hkind, ?_⟩
  · have htokens : (ms.map Item.token).filterMap Item.token? = ms := by
      rw [List.filterMap_map]
      exact List.filterMap_some
    rw [scan, items, negatedOne, String.toList_ofList, hplaced, hpiece, List.filterMap_append,
      htokens]
    rfl
  · simp [Place.token, Token.literal?]
    rfl

/-- The tree of a one behind minus signs is a phrase, however many there are. -/
theorem phrase_negated {arities : Arities} {ms : List Token} {one : Token} {value : Literal}
    (hm : ∀ t ∈ ms, t.kind = .minus) (hone : one.literal? = some value) :
    Phrase arities (.operand true) (ms.foldr Expr.unary (.literal one value)) ∧
      (ms.foldr Expr.unary (.literal one value)).tokens = ms ++ [one] := by
  induction ms with
  | nil => exact ⟨.application (.primary (.literal hone)), rfl⟩
  | cons m ms ih =>
    simp only [List.forall_mem_cons] at hm
    obtain ⟨hp, ht⟩ := ih hm.2
    refine ⟨.prefixed (.inr (.inl hm.1)) hp, ?_⟩
    rw [List.foldr_cons, Expr.tokens, ht, List.cons_append]

/-- The machine stops at a minus sign that would be nested too deeply. -/
theorem run_minuses_ne_ok {arities : Arities} {stop : Token} {done : List Expr} {ts : List Token}
    {ms : List Token} {stack : List Frame} (hm : ∀ t ∈ ms, t.kind = .minus)
    (hd : Frame.depth stack ≤ maxNesting) (hdeep : maxNesting < Frame.depth stack + ms.length)
    (forest : List Expr) :
    State.run arities stop ⟨stack, none, done⟩ (ms ++ ts) ≠ .ok forest := by
  induction ms generalizing stack with
  | nil => exact absurd hd (Nat.not_le.mpr hdeep)
  | cons m ms ih =>
    simp only [List.forall_mem_cons, List.length_cons] at hm hdeep
    -- each sign enters a frame, and the depth grows by one until it is at the limit
    have hstep (next : TokenKind) : State.step arities ⟨stack, none, done⟩ m next =
        (do return ⟨← Frame.enter (.prefixOp m) m stack, none, done⟩) := by
      simp [State.step, State.takeOperand, State.isPrefixOp, hm.1]
    rw [List.cons_append, State.run, hstep]
    by_cases hlt : Frame.depth stack < maxNesting
    · have hdepth : Frame.depth (.prefixOp m :: stack) = Frame.depth stack + 1 :=
        Frame.depth_cons_of_nests rfl
      rw [Frame.enter_of_lt hlt]
      exact ih hm.2 (by omega) (by omega)
    · rw [Frame.enter, if_neg hlt]
      exact fun h => by cases h

/-- A one behind too many minus signs is a phrase, and the parser refuses it. -/
theorem negatedOne_refused (arities : Arities) {n : Nat} (hn : maxNesting < n) :
    (∃ forest, PhrasesOf arities (scan (negatedOne n)).tokens.dropLast forest) ∧
      ∀ forest, Expr.parse arities (scan (negatedOne n)).tokens ≠ .ok forest := by
  obtain ⟨ms, one, stop, hscan, hlen, hm, hone⟩ := scan_negatedOne n
  obtain ⟨ts, stop', hts, hstop, hkinds⟩ := scan_tokens_eq (negatedOne n)
  have hsplit : ms ++ [one] ++ [stop] = ts ++ [stop'] := by
    rw [← hts, hscan, List.append_assoc]
    rfl
  obtain ⟨rfl, -⟩ := List.append_inj' hsplit rfl
  obtain ⟨hphrase, htokens⟩ := @phrase_negated arities ms one _ hm hone
  rw [hts, List.dropLast_concat]
  refine ⟨⟨[ms.foldr Expr.unary (.literal one (.integer 1))], ?_, ?_⟩, fun forest => ?_⟩
  · simpa using .series (.operand hphrase)
  · simpa using htokens
  · rw [Expr.parse, body_append_stop hkinds hstop]
    exact run_minuses_ne_ok hm (Nat.zero_le _) (by rw [hlen]; simpa [Frame.depth] using hn) forest

/-- Two literals with a minus sign between them are one phrase, and they are two. -/
theorem minus_two_readings (arities : Arities) {a m b : Token} {v w : Literal}
    (ha : a.literal? = some v) (hm : m.kind = .minus) (hb : b.literal? = some w) :
    PhrasesOf arities [a, m, b] [.binary (.literal a v) m (.literal b w)] ∧
      PhrasesOf arities [a, m, b] [.literal a v, .unary m (.literal b w)] := by
  have hpa : Phrase arities (.operand true) (.literal a v) := .application (.primary (.literal ha))
  have hpb : Phrase arities (.operand true) (.literal b w) := .application (.primary (.literal hb))
  have hminus : InfixToken arities m := .inl (by rw [hm]; rfl)
  refine ⟨⟨?_, rfl⟩, ⟨?_, rfl⟩⟩
  · simpa using .series (.joined (.operand hpa) hminus rfl hpb)
  · simpa using ⟨.series (.operand hpa),
      .series (.operand (.prefixed (.inr (.inl hm)) hpb))⟩

theorem scan_one_minus_two : (scan "1-2").tokens.dropLast =
    [⟨.number, "1", 0, 1⟩, ⟨.minus, "-", 1, 1⟩, ⟨.number, "2", 2, 1⟩] := by
  have hpieces : pieces ['1', '-', '2'] =
      [.token .number ['1'], .token .minus ['-'], .token .number ['2']] := by
    rw [pieces, show firstPiece '1' ['-', '2'] = .token .number ['1'] from rfl]
    simp only [Piece.text, List.length_singleton, List.drop_succ_cons, List.drop_zero]
    rw [pieces, show firstPiece '-' ['2'] = .token .minus ['-'] from rfl]
    simp only [Piece.text, List.length_singleton, List.drop_succ_cons, List.drop_zero]
    rw [pieces, show firstPiece '2' [] = .token .number ['2'] from rfl]
    simp [Piece.text, pieces]
  rw [scan, items, show "1-2".toList = ['1', '-', '2'] from rfl, hpieces]
  decide

/-- Phrases alone are not what the parser returns: a one behind 257 minus signs is a phrase and is
refused, and the tokens of `1-2` are those of one phrase and of two. -/
theorem phrases_not_exact :
    ((∃ forest, PhrasesOf (fun _ => none) (scan (negatedOne 257)).tokens.dropLast forest) ∧
      ∀ forest, Expr.parse (fun _ => none) (scan (negatedOne 257)).tokens ≠ .ok forest) ∧
    ∃ f g, f ≠ g ∧ PhrasesOf (fun _ => none) (scan "1-2").tokens.dropLast f ∧
      PhrasesOf (fun _ => none) (scan "1-2").tokens.dropLast g := by
  refine ⟨negatedOne_refused _ (by decide), ?_⟩
  rw [scan_one_minus_two]
  obtain ⟨hone, htwo⟩ := minus_two_readings (fun _ => none) (v := .integer 1) (w := .integer 2)
    (a := ⟨.number, "1", 0, 1⟩) (m := ⟨.minus, "-", 1, 1⟩) (b := ⟨.number, "2", 2, 1⟩) rfl rfl rfl
  exact ⟨_, _, by simp, hone, htwo⟩

end ListCalc
