import ListCalc.Proofs.Expr.Parse
import ListCalc.Proofs.Expr.Relocation
import ListCalc.Proofs.Token.Munch

/-!
# Proofs — scanning tokens that were written down again

`Joined ts text` says that `text` is made of the lexemes of `ts` with something between each two of
them: blanks, commas and comments up to their newlines (`Separation`), which may differ from place
to place.  A lexeme that stands before such a separation is the longest one there
(`Lexeme.longest`), so the text is read as the tokens it was made of (`scan_of_joined`).

`rescan_unplaced` is this for the tokens of a source, whatever else stood in it: the joined text has
no faults and the same tokens, and parses to the same trees or the same error, up to places.
-/

namespace ListCalc

/-! ### Texts made of lexemes -/

/-- Blanks, commas, and comments with the newlines that end them. -/
inductive Separation : List Char → Prop where
  | nil : Separation []
  | separator {c : Char} {gap : List Char} :
      isBlank c = true ∨ c = ',' → Separation gap → Separation (c :: gap)
  | comment {body gap : List Char} :
      '\n' ∉ body → Separation gap → Separation ('#' :: body ++ '\n' :: gap)

/-- The text is made of the lexemes of the tokens, with a separation between each two of them. -/
inductive Joined : List Token → List Char → Prop where
  | nil : Joined [] []
  | single {t : Token} : Joined [t] t.lexeme.toList
  | cons {t u : Token} {ts : List Token} {gap text : List Char} :
      Separation gap → gap ≠ [] → Joined (u :: ts) text →
      Joined (t :: u :: ts) (t.lexeme.toList ++ (gap ++ text))

/-- Blanks will do. -/
theorem exists_joined (ts : List Token) : ∃ text, Joined ts text := by
  induction ts with
  | nil => exact ⟨[], .nil⟩
  | cons t ts ih =>
    obtain ⟨text, htext⟩ := ih
    cases ts with
    | nil => exact ⟨_, .single⟩
    | cons u ts =>
      have hgap : Separation [' '] := .separator (.inl (by decide)) .nil
      exact ⟨_, .cons hgap (by simp) htext⟩

/-! ### Lexemes before a separation -/

section Lexemes

variable {kind : TokenKind} {text rest gap cs : List Char} {c : Char}

/-- Before a separator or a comment, a lexeme goes as far as it can. -/
theorem Lexeme.longest (h : Lexeme kind text)
    (hrest : ∀ c ∈ rest.head?, isSeparator c = true ∨ c = '#') :
    LongestLexeme kind text (text ++ rest) := by
  rcases h.string_or_isApart with ⟨rfl, body, hbody, rfl⟩ | hapart
  · -- a string ends with its own quote, whatever comes after it
    have hlongest := firstPiece_eq_token_iff.mp (@firstPiece_of_quote body rest hbody)
    simpa using hlongest
  refine ⟨h, List.prefix_append text rest, fun kind' text' h' htext' => ?_⟩
  refine Nat.le_of_not_lt fun hlt => ?_
  -- a longer lexeme would begin with this one, and have the character after it inside
  have hshort : text <+: text' :=
    List.prefix_of_prefix_length_le (List.prefix_append text rest) htext' (Nat.le_of_lt hlt)
  obtain ⟨tail, rfl⟩ := hshort
  obtain ⟨c, tail', rfl⟩ : ∃ c tail', tail = c :: tail' :=
    List.exists_cons_of_ne_nil fun hnil => by simp [hnil] at hlt
  obtain ⟨behind, rfl⟩ := (List.prefix_append_right_inj text).mp htext'
  rcases h'.string_or_isApart with ⟨-, body, -, heq⟩ | hapart'
  · obtain ⟨d, ds, rfl⟩ := List.exists_cons_of_ne_nil h.ne_nil
    exact (hapart d (.head _)).quote (List.cons.inj heq).1
  · have hc := hapart' c (by simp)
    rcases hrest c rfl with hsep | hcomment
    · simp [hc.separator] at hsep
    · exact hc.comment hcomment

theorem Separation.head? (h : Separation gap) (hne : gap ≠ []) :
    ∀ c ∈ (gap ++ cs).head?, isSeparator c = true ∨ c = '#' := by
  cases h with
  | nil => exact absurd rfl hne
  | separator hc _ =>
    rintro _ ⟨⟩
    exact .inl (isSeparator_iff.mpr hc)
  | comment =>
    rintro _ ⟨⟩
    exact .inr rfl

/-- Nothing is read from a separation. -/
theorem Munches.separation {p : Place} {is : List Item} (h : Separation gap)
    (hcs : Munches (p.advance gap) cs is) : Munches p (gap ++ cs) is := by
  induction h generalizing p with
  | nil => exact hcs
  | @separator c gap hc _ ih =>
    have hgap : Munches (p.advance [c]) (gap ++ cs) is :=
      ih (by rwa [← Place.advance_append])
    exact .separator hc hgap
  | @comment body gap hbody _ ih =>
    have hgap : Munches (p.advance ('#' :: body ++ ['\n'])) (gap ++ cs) is :=
      ih (by rwa [← Place.advance_append, List.append_assoc])
    rw [Place.advance_append] at hgap
    rw [List.append_assoc]
    exact .comment hbody (by rintro _ ⟨⟩; rfl) (.separator (.inl isBlank_newline) hgap)

end Lexemes

/-! ### Reading the tokens again -/

/-- A joined text is read as the tokens that it was made of. -/
theorem Joined.munches {ts : List Token} {text : List Char} (h : Joined ts text)
    (hlex : ∀ t ∈ ts, Lexeme t.kind t.lexeme.toList) (p : Place) :
    ∃ us stop, Munches p text ((us ++ [stop]).map .token) ∧
      us.map Token.unplaced = ts.map Token.unplaced ∧ stop.unplaced = .ending := by
  induction h generalizing p with
  | nil => exact ⟨[], _, .stop, rfl, rfl⟩
  | @single t =>
    have hlongest := @Lexeme.longest _ _ [] (hlex t (.head _)) nofun
    have hread := Munches.token hlongest (@Munches.stop (p.advance t.lexeme.toList))
    rw [List.append_nil] at hread
    refine ⟨[p.token t.kind t.lexeme.toList], _, hread, ?_, rfl⟩
    simp [Place.token, Token.unplaced]
  | @cons t u ts gap text hgap hne _ ih =>
    obtain ⟨ht, hts⟩ := List.forall_mem_cons.mp hlex
    obtain ⟨us, stop, hus, heq, hstop⟩ := ih hts ((p.advance t.lexeme.toList).advance gap)
    have hread := Munches.token (ht.longest (hgap.head? hne)) (.separation hgap hus)
    refine ⟨p.token t.kind t.lexeme.toList :: us, stop, hread, ?_, hstop⟩
    rw [List.map_cons, heq, List.map_cons]
    simp [Place.token, Token.unplaced]

theorem scan_of_joined {ts : List Token} {text : String} (h : Joined ts text.toList)
    (hlex : ∀ t ∈ ts, Lexeme t.kind t.lexeme.toList) :
    (scan text).faults = [] ∧
      (scan text).tokens.map Token.unplaced = ts.map Token.unplaced ++ [.ending] := by
  obtain ⟨us, stop, hread, heq, hstop⟩ := h.munches hlex .start
  have hitems := (items_eq_iff text _).mpr hread
  have htokens : ((us ++ [stop]).map Item.token).filterMap Item.token? = us ++ [stop] := by
    rw [List.filterMap_map]
    exact List.filterMap_some
  have hfaults : ((us ++ [stop]).map Item.token).filterMap Item.fault? = [] := by
    rw [List.filterMap_map]
    exact List.filterMap_eq_nil_iff.mpr fun _ _ => rfl
  rw [scan, hitems, htokens, hfaults, List.map_append, heq, List.map_singleton, hstop]
  exact ⟨rfl, rfl⟩

/-- Tokens that are lexemes are the tokens of some source. -/
theorem exists_source {ts : List Token} (hlex : ∀ t ∈ ts, Lexeme t.kind t.lexeme.toList) :
    ∃ source, (scan source).faults = [] ∧
      (scan source).tokens.map Token.unplaced = ts.map Token.unplaced ++ [.ending] := by
  obtain ⟨text, htext⟩ := exists_joined ts
  exact ⟨String.ofList text, scan_of_joined (by rwa [String.toList_ofList]) hlex⟩

/-! ### The tokens of a source -/

theorem unplaced_of_end {source : String} {t : Token} (ht : t ∈ (scan source).tokens)
    (hend : t.kind = .endOfInput) : t.unplaced = .ending := by
  rw [Token.unplaced, hend, (empty_of_end ht hend).1]
  rfl

theorem lexeme_of_scan {source : String} {t : Token} (ht : t ∈ (scan source).tokens)
    (hkind : t.kind ≠ .endOfInput) : Lexeme t.kind t.lexeme.toList := by
  obtain ⟨before, rest, -, -, hlongest⟩ := longestLexeme_of_scan ht hkind
  exact hlongest.lexeme

/-- **Scanning again.**  Take the tokens of a source before the end of input, and write their
lexemes down with any separations between them.  The text has no faults and the same tokens, up to
places, and under any arities it parses to the same trees or the same error, up to places. -/
theorem rescan_unplaced {source text : String}
    (h : Joined ((scan source).tokens.filter (·.kind ≠ .endOfInput)) text.toList) :
    (scan text).faults = [] ∧
    (scan text).tokens.map Token.unplaced = (scan source).tokens.map Token.unplaced ∧
    ∀ arities, unplacedResult (Expr.parse arities (scan text).tokens) =
      unplacedResult (Expr.parse arities (scan source).tokens) := by
  obtain ⟨ts, stop, hscan, hstop, hts⟩ := scan_tokens_eq source
  have hmem : ∀ t ∈ ts ++ [stop], t ∈ (scan source).tokens := fun t ht => hscan ▸ ht
  have hfilter : (ts ++ [stop]).filter (·.kind ≠ .endOfInput) = ts := by
    rw [List.filter_append, List.filter_eq_self.mpr (by simpa using hts)]
    simp [hstop]
  rw [hscan, hfilter] at h
  obtain ⟨hfaults, htokens⟩ :=
    scan_of_joined h fun t ht => lexeme_of_scan (hmem t (by simp [ht])) (hts t ht)
  have hsame : (scan text).tokens.map Token.unplaced = (scan source).tokens.map Token.unplaced := by
    rw [htokens, hscan, List.map_append, List.map_singleton,
      unplaced_of_end (hmem stop (by simp)) hstop]
  exact ⟨hfaults, hsame, fun arities => parse_unplaced_congr arities hsame⟩

/-- A source with a character that begins nothing, and its tokens with a comma and a comment between
them: the string keeps its own separators. -/
theorem rescan_unplaced_string :
    Joined ((scan "1?\"#,\"x").tokens.filter (·.kind ≠ .endOfInput)) "1,\"#,\"#c\nx".toList ∧
      (scan "1?\"#,\"x").faults ≠ [] ∧ (scan "1,\"#,\"#c\nx").faults = [] ∧
      (scan "1,\"#,\"#c\nx").tokens.map Token.unplaced =
        (scan "1?\"#,\"x").tokens.map Token.unplaced ∧
      ∀ arities, unplacedResult (Expr.parse arities (scan "1,\"#,\"#c\nx").tokens) =
        unplacedResult (Expr.parse arities (scan "1?\"#,\"x").tokens) := by
  have htokens : (scan "1?\"#,\"x").tokens.filter (·.kind ≠ .endOfInput) =
      [⟨.number, "1", 0, 1⟩, ⟨.string, "\"#,\"", 2, 1⟩, ⟨.identifier, "x", 6, 1⟩] := by
    decide +kernel
  have hcomma : Separation [','] := .separator (.inr rfl) .nil
  have hcomment : Separation ['#', 'c', '\n'] := @Separation.comment ['c'] [] (by decide) .nil
  have hjoined : Joined ((scan "1?\"#,\"x").tokens.filter (·.kind ≠ .endOfInput))
      "1,\"#,\"#c\nx".toList := by
    rw [htokens]
    exact .cons hcomma (by simp) (.cons hcomment (by simp) .single)
  exact ⟨hjoined, by decide +kernel, rescan_unplaced hjoined⟩

end ListCalc
