import ListCalc.Proofs.Eval.Lockstep
import ListCalc.Proofs.Session.Run

/-!
# Proofs — errors point at the source

`PointsAt source line span text` says that a diagnostic points at `text`: its span lies inside the
source, between two characters at both ends, and covers that text, and its line is the line on which
the span begins.

* A fault of the scan points at one character that begins nothing, or at a string that is never
  closed (`LexicalError`).
* An error of the parser and one of the evaluation point at a token of the scan (`AtToken`); the
  parser's error also names it.

`run_diagnosed` puts these together: which errors a run gives, in which order, where each of them
points, and that a source with syntax errors leaves the world as it was.
-/

namespace ListCalc

open Place (byteSize)

/-! ### Pointing at a text -/

/-- Line and span are those of the text at one place of the source, and cut no character. -/
structure PointsAt (source : String) (line : Nat) (span : Span) (text : String) : Prop where
  inside : span.stop ≤ source.utf8ByteSize
  start : String.Pos.Raw.IsValid source ⟨span.offset⟩
  stop : String.Pos.Raw.IsValid source ⟨span.stop⟩
  text : slice source span.offset span.stop = bytesOf text
  line : line = 1 + (slice source 0 span.offset).count 10

/-- No character is cut behind a whole text. -/
theorem isValid_byteSize (xs ys : List Char) :
    String.Pos.Raw.IsValid (String.ofList (xs ++ ys)) ⟨byteSize xs⟩ := by
  rw [String.Pos.Raw.isValid_iff_exists_append]
  exact ⟨String.ofList xs, String.ofList ys, String.ofList_append, rfl⟩

/-- The span and line of the middle one of three texts point at it. -/
theorem pointsAt_middle (xs ys zs : List Char) :
    PointsAt (String.ofList (xs ++ ys ++ zs)) (1 + xs.count '\n') ⟨byteSize xs, byteSize ys⟩
      (String.ofList ys) := by
  have hstop : Span.stop ⟨byteSize xs, byteSize ys⟩ = byteSize (xs ++ ys) :=
    (byteSize_append xs ys).symm
  refine ⟨?_, ?_, ?_, slice_middle xs ys zs, ?_⟩
  · show Span.stop _ ≤ byteSize (xs ++ ys ++ zs)
    rw [hstop, byteSize_append (xs ++ ys)]
    exact Nat.le_add_right _ _
  · rw [List.append_assoc]
    exact isValid_byteSize xs (ys ++ zs)
  · rw [hstop]
    exact isValid_byteSize (xs ++ ys) zs
  · have hbefore := slice_middle [] xs (ys ++ zs)
    rw [List.nil_append, ← List.append_assoc, show byteSize [] = 0 from rfl, Nat.zero_add]
      at hbefore
    rw [hbefore, count_newline_bytesOf]

/-! ### Faults of the scan -/

/-- No token, blank or comment begins with the character. -/
structure BeginsNothing (c : Char) : Prop where
  separator : isSeparator c = false
  comment : c ≠ '#'
  string : c ≠ '"'
  number : c.isDigit = false
  word : isWordStart c = false
  symbol : ∀ s ∈ symbols, s.1.head? ≠ some c

/-- The error of a piece of the source that is no token: a character that begins nothing, or the
text from a quote to the end of the source. -/
inductive LexicalError (source : String) : SyntaxError → Prop where
  | unexpected {line : Nat} {span : Span} {c : Char} :
      PointsAt source line span (String.ofList [c]) → BeginsNothing c →
      LexicalError source (.inSource line span .unexpectedCharacter)
  | unterminated {line : Nat} {span : Span} {rest : List Char} :
      PointsAt source line span (String.ofList ('"' :: rest)) → '"' ∉ rest →
      span.stop = source.utf8ByteSize →
      LexicalError source (.inSource line span .unterminatedString)

/-- An unexpected character begins nothing. -/
theorem firstPiece_unexpected {c d : Char} {cs : List Char} (h : firstPiece c cs = .unexpected d) :
    d = c ∧ BeginsNothing c := by
  -- every symbol of two characters begins with one of a single character
  have hsingle : ∀ s ∈ symbols, ∃ s' ∈ symbols, s'.1 = s.1.take 1 := by decide
  unfold firstPiece at h
  split at h
  · cases h
  split at h
  · cases h
  split at h
  · dsimp only at h
    split at h <;> cases h
  split at h
  · cases h
  split at h
  · cases h
  split at h
  · cases h
  · rename_i hsep hcomment hstring hnumber hword _ hsymbol
    cases h
    refine ⟨rfl, by simpa using hsep, hcomment, hstring, by simpa using hnumber,
      by simpa using hword, fun s hs hhead => ?_⟩
    obtain ⟨s', hs', heq⟩ := hsingle s hs
    have hnone := List.find?_eq_none.mp hsymbol s' hs'
    simp [heq, List.take_one, hhead] at hnone

/-- A string that is never closed goes on to the end of the source. -/
theorem firstPiece_unterminated {c : Char} {cs text : List Char}
    (h : firstPiece c cs = .unterminated text) : text = '"' :: cs ∧ c = '"' ∧ '"' ∉ cs := by
  have hfirst := isFirst_firstPiece c cs
  rw [h] at hfirst
  cases hfirst with
  | unterminated hc hcs => exact ⟨by rw [hc], hc, hcs⟩

/-- The faults among the items of a text are errors in that text, wherever it stands. -/
theorem lexicalError_of_placed (before cs : List Char) :
    ∀ e, .fault e ∈ placed (Place.start.advance before) (pieces cs) →
      LexicalError (String.ofList (before ++ cs)) e := by
  have hoffset (xs : List Char) : (Place.start.advance xs).offset = byteSize xs := Nat.zero_add _
  fun_induction pieces cs generalizing before with
  | case1 => simp [placed]
  | case2 c cs piece ih =>
    intro e h
    obtain ⟨rest, hsplit⟩ := firstPiece_isPrefix c cs
    have hdrop : (c :: cs).drop piece.text.length = rest := by
      rw [← hsplit]
      exact List.drop_left
    rw [hdrop] at ih
    rw [placed, List.mem_append, Option.mem_toList, hdrop, ← Place.advance_append] at h
    rcases h with h | h
    · cases hp : firstPiece c cs with
      | unexpected d =>
        obtain ⟨rfl, hnothing⟩ := firstPiece_unexpected hp
        rw [show piece = .unexpected d from hp] at h
        cases h
        have hpoints := pointsAt_middle before [d] cs
        rw [← hoffset, List.append_assoc] at hpoints
        exact .unexpected hpoints hnothing
      | unterminated text =>
        obtain ⟨rfl, rfl, hcs⟩ := firstPiece_unterminated hp
        rw [show piece = .unterminated ('"' :: cs) from hp] at h
        cases h
        have hpoints := pointsAt_middle before ('"' :: cs) []
        rw [List.append_nil, ← hoffset] at hpoints
        refine .unterminated hpoints hcs ?_
        rw [Span.stop, hoffset]
        exact (byteSize_append before ('"' :: cs)).symm
      | separator d | comment text | token kind text =>
        rw [show piece = _ from hp] at h
        cases h
    · have herror := ih (before ++ piece.text) e h
      rwa [List.append_assoc, hsplit] at herror

/-- The faults of a scan are lexical errors. -/
theorem lexicalError_of_scan {source : String} {e : SyntaxError} (h : e ∈ (scan source).faults) :
    LexicalError source e := by
  obtain ⟨i, hi, hfault⟩ := List.mem_filterMap.mp h
  rw [Item.fault?_eq_some] at hfault
  subst hfault
  have herror := lexicalError_of_placed [] source.toList e hi
  rwa [List.nil_append, String.ofList_toList] at herror

/-- The faults of a scan are in source order. -/
theorem faults_pairwise (source : String) :
    (scan source).faults.Pairwise fun e e' => e.span.stop ≤ e'.span.offset := by
  refine List.pairwise_filterMap.mpr ?_
  refine (tiles_items source).pairwise.imp fun hij e he e' he' => ?_
  rw [Item.fault?_eq_some.mp he, Item.fault?_eq_some.mp he'] at hij
  exact hij.2

/-! ### Errors at tokens -/

/-- The line and span of a diagnostic are those of the token, and it points at the token's text.
The end of input has an empty span at the end of the source. -/
structure AtToken (source : String) (t : Token) (line : Nat) (span : Span) : Prop where
  mem : t ∈ (scan source).tokens
  line_eq : line = t.line
  span_eq : span = t.span
  pointsAt : PointsAt source line span t.lexeme
  ending : t.kind = .endOfInput → span = ⟨source.utf8ByteSize, 0⟩

/-- A token of the scan is pointed at by its line and span. -/
theorem atToken_of_mem {source : String} {t : Token} (h : t ∈ (scan source).tokens) :
    AtToken source t t.line t.span := by
  have hitem := token_mem_items h
  obtain ⟨pre, text, post, hsplit, hspan, hline, -, -, hlex⟩ :=
    (tiles_items source).exists_cover _ hitem
  have hpoints := pointsAt_middle pre text post
  rw [← hsplit, List.nil_append, String.ofList_toList, ← hspan, ← hline, ← hlex t rfl] at hpoints
  refine ⟨h, rfl, rfl, hpoints, fun hend => ?_⟩
  obtain ⟨hlexeme, hoffset⟩ := empty_of_end h hend
  rw [Token.span, Token.length, hlexeme, hoffset]
  rfl

/-- The error of the parser points at a token and names it. -/
def ParserError (source : String) (e : SyntaxError) : Prop :=
  ∃ t, AtToken source t e.line e.span ∧
    e.location.text = if t.kind = .endOfInput then " at end" else " at '" ++ t.lexeme ++ "'"

/-- The error of a parse is at a token of the scan. -/
theorem parserError_of_parse {arities : Arities} {source : String} {error : SyntaxError}
    (h : Expr.parse arities (scan source).tokens = .error error) : ParserError source error := by
  obtain ⟨before, t, behind, s, hscan, -, hstuck⟩ := parse_scan_eq_error h
  obtain ⟨fault, rfl, -⟩ := hstuck.failsAt
  have ht : t ∈ (scan source).tokens := by simp [hscan]
  refine ⟨t, atToken_of_mem ht, ?_⟩
  show Location.text (if t.kind = .endOfInput then _ else _) = _
  split <;> rfl

/-- The error of an evaluation points at a token, which is not the end of input. -/
def EvaluationError (source : String) (e : RuntimeError) : Prop :=
  ∃ t, AtToken source t e.line e.span ∧ t.kind ≠ .endOfInput

/-- Interpreting trees fails at one of their tokens: it goes in step with itself. -/
theorem interpret_error_at_token {es : List Expr} {w w' : World} {error : RuntimeError}
    (h : interpret es w = .error error w') :
    ∃ t ∈ es.flatMap Expr.tokens, ∃ fault, error = .atToken t fault := by
  have hstep := interpret_lockstep_self (twins_eq fun _ => True) es
    (fun e _ => e.mentionsOnly_of_forall fun _ => trivial) w w rfl
  rw [h] at hstep
  cases hstep with
  | error ht _ => exact ⟨_, ht, _, rfl⟩

/-- The error of an evaluation is at a token of the scan. -/
theorem evaluationError_of_interpret {arities : Arities} {source : String} {es : List Expr}
    {w w' : World} {error : RuntimeError}
    (hparse : Expr.parse arities (scan source).tokens = .ok es)
    (h : interpret es w = .error error w') : EvaluationError source error := by
  obtain ⟨t, ht, fault, rfl⟩ := interpret_error_at_token h
  obtain ⟨hmem, hkind⟩ := mem_scan_of_mem_forest hparse ht
  exact ⟨t, atToken_of_mem hmem, hkind⟩

/-! ### The errors of a run -/

/-- The errors for which a source is rejected: the faults of the scan, in source order, and then the
error of the parser, if there is one. -/
structure Rejection (arities : Arities) (source : String) (errors : List SyntaxError)
    (parser? : Option SyntaxError) : Prop where
  errors_eq : errors = (scan source).faults ++ parser?.toList
  nonempty : errors ≠ []
  ordered : (scan source).faults.Pairwise fun e e' => e.span.stop ≤ e'.span.offset
  lexical : ∀ e ∈ (scan source).faults, LexicalError source e
  parser_iff : ∀ e, parser? = some e ↔ Expr.parse arities (scan source).tokens = .error e
  parser : ∀ e, parser? = some e → ParserError source e

/-- The outcome of a run in the world `w` tells what is wrong with the source, and where.  If the
source was rejected, the world is as it was. -/
def Diagnosed (w : World) (source : String) : Outcome → Prop
  | ⟨none, _⟩ =>
    (scan source).faults = [] ∧ ∃ es, Expr.parse w.env.arity? (scan source).tokens = .ok es
  | ⟨some (.rejected errors), w'⟩ =>
    w' = w ∧ ∃ parser?, Rejection w.env.arity? source errors parser?
  | ⟨some (.failed error), _⟩ =>
    (scan source).faults = [] ∧ EvaluationError source error

/-- **Diagnostics.**  Every error of a run points at the right place, and a source with a syntax
error does nothing else than report it. -/
theorem run_diagnosed (w : World) (source : String) : Diagnosed w source (run w source) := by
  have hordered := faults_pairwise source
  cases hparse : Expr.parse w.env.arity? (scan source).tokens with
  | error e =>
    rw [run_of_parse_error hparse]
    refine ⟨rfl, some e, rfl, by simp, hordered, fun _ => lexicalError_of_scan, ?_, ?_⟩
    · simp [hparse]
    · rintro _ ⟨⟩
      exact parserError_of_parse hparse
  | ok es =>
    by_cases hfaults : (scan source).faults = []
    · rw [run_of_parse_ok hparse hfaults]
      cases hrun : interpret es w with
      | ok _ w' => exact ⟨hfaults, es, hparse⟩
      | error error w' => exact ⟨hfaults, evaluationError_of_interpret hparse hrun⟩
    · rw [run_of_faults hparse hfaults]
      refine ⟨rfl, none, (List.append_nil _).symm, hfaults, hordered,
        fun _ => lexicalError_of_scan, ?_, nofun⟩
      simp [hparse]

end ListCalc
