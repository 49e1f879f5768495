import ListCalc.Proofs.Text.Bytes

/-!
# Proofs — the items of a scan tile the source

`Tiling source is` says of the items `is` that they cover the source: their spans stand one after
the other, what lies between them is blanks, commas and comments (`Gap`), each token has the text
of its span, and every item, the end of input included, is on the line that the newlines before it
make.  `items_tiling`: the items of a source are a tiling of it.

The scan is followed by one relation on texts.  `Tiles before rest is` holds when the items `is`
cover `rest`, which stands after `before`.  Cutting off a piece keeps it (`Tiles.of_skipped`,
`Tiles.item`), so it holds of all pieces of a source (`tiles_placed`), and each field of a tiling
is read off it by induction.
-/

namespace ListCalc

open Place (byteSize)

/-- The stretch of the source that an item covers. -/
def Item.span : Item → Span
  | token t => t.span
  | fault e => e.span

/-- The line that an item is on. -/
def Item.line : Item → Nat
  | token t => t.line
  | fault e => e.line

/-- The item is the token for the end of input. -/
def Item.IsEnd : Item → Prop
  | token t => t.kind = .endOfInput
  | fault _ => False

theorem Item.token?_eq_some {i : Item} {t : Token} : i.token? = some t ↔ i = .token t := by
  cases i <;> simp [Item.token?]

theorem Item.fault?_eq_some {i : Item} {e : SyntaxError} : i.fault? = some e ↔ i = .fault e := by
  cases i <;> simp [Item.fault?]

/-- The offset just after the span. -/
def Span.stop (s : Span) : Nat := s.offset + s.length

/-! ### Gaps and tilings -/

/-- The text `gap`, standing before `rest`, is made of blanks, commas and comments.  A comment goes
up to the next newline or the end of the source. -/
inductive Gap : List Char → List Char → Prop where
  | nil {rest : List Char} : Gap [] rest
  | separator {c : Char} {gap rest : List Char} :
      isBlank c = true ∨ c = ',' → Gap gap rest → Gap (c :: gap) rest
  | comment {body gap rest : List Char} :
      '\n' ∉ body → (∀ c ∈ (gap ++ rest).head?, c = '\n') → Gap gap rest →
      Gap ('#' :: body ++ gap) rest

/-- What stands in the source from one offset up to another is a gap. -/
def GapAt (source : String) (a b : Nat) : Prop :=
  ∃ gap rest, slice source a b = bytesOf (String.ofList gap) ∧
    slice source b source.utf8ByteSize = bytesOf (String.ofList rest) ∧ Gap gap rest

/-- The items cover the source: spans in order, gaps between them, the end of input last. -/
structure Tiling (source : String) (is : List Item) : Prop where
  increasing : is.Pairwise fun i j => i.span.offset < j.span.offset
  disjoint : is.Pairwise fun i j => i.span.stop ≤ j.span.offset
  nonempty : ∀ i ∈ is, ¬ i.IsEnd → 0 < i.span.length
  lexeme : ∀ t, .token t ∈ is → slice source t.offset t.span.stop = bytesOf t.lexeme
  gapBefore : ∀ i, is.head? = some i → GapAt source 0 i.span.offset
  gapBetween : ∀ i j, [i, j] <:+: is → GapAt source i.span.stop j.span.offset
  gapAfter : ∀ i, is.getLast? = some i → GapAt source i.span.stop source.utf8ByteSize
  /-- The last item is the end of input, and no other item is. -/
  ending : ∃ init t, is = init ++ [.token t] ∧ t.kind = .endOfInput ∧ t.lexeme = "" ∧
    t.offset = source.utf8ByteSize ∧ ∀ i ∈ init, ¬ i.IsEnd
  line : ∀ i ∈ is, i.line = 1 + (slice source 0 i.span.offset).count 10

/-! ### Items that cover a text -/

/-- The item has the span and line of `text`, standing after `before`; a token has its lexeme. -/
structure Covers (before text : List Char) (i : Item) : Prop where
  span : i.span = ⟨byteSize before, byteSize text⟩
  line : i.line = 1 + before.count '\n'
  notEnd : ¬ i.IsEnd
  lexeme : ∀ t, i = .token t → t.lexeme = String.ofList text

/-- The items cover `rest`, which stands after `before`. -/
inductive Tiles : List Char → List Char → List Item → Prop where
  | stop {before gap : List Char} : Gap gap [] →
      Tiles before gap [.token ((Place.start.advance (before ++ gap)).token .endOfInput [])]
  | item {before gap text rest : List Char} {i : Item} {is : List Item} :
      Gap gap (text ++ rest) → text ≠ [] → Covers (before ++ gap) text i →
      Tiles (before ++ gap ++ text) rest is → Tiles before (gap ++ text ++ rest) (i :: is)

/-- A gap before a covered text belongs to the gap before its first item. -/
theorem Tiles.of_skipped {before skipped rest : List Char} {is : List Item}
    (hgap : ∀ gap tail, gap ++ tail = rest → Gap gap tail → Gap (skipped ++ gap) tail)
    (h : Tiles (before ++ skipped) rest is) : Tiles before (skipped ++ rest) is := by
  generalize hb : before ++ skipped = b at h
  cases h with
  | stop hg =>
    subst hb
    rw [List.append_assoc]
    exact .stop (hgap _ [] (List.append_nil _) hg)
  | @item _ gap text tail i is hg hne hc ht =>
    subst hb
    have hg' := hgap gap (text ++ tail) (List.append_assoc _ _ _).symm hg
    rw [← List.append_assoc, ← List.append_assoc]
    exact .item hg' hne (by rwa [List.append_assoc] at hc) (by simpa using ht)

/-! ### What is cut off -/

theorem keywords_kind_ne_end {word : List Char} : wordKind word ≠ .endOfInput := by
  have hall : ∀ k ∈ keywords, k.2 ≠ .endOfInput := by decide
  intro h
  unfold wordKind at h
  cases hl : keywords.lookup word with
  | none =>
    rw [hl] at h
    cases h
  | some kind =>
    rw [hl] at h
    obtain ⟨l₁, l₂, hk, -⟩ := List.lookup_eq_some_iff.mp hl
    exact hall (word, kind) (by simp [hk]) h

/-- The first piece of a text that begins with `c` and goes on with `cs`: one case for each class of
piece. -/
inductive IsFirst (c : Char) (cs : List Char) : Piece → Prop where
  | separator : isSeparator c = true → IsFirst c cs (.separator c)
  | comment : c = '#' → IsFirst c cs (.comment (c :: cs.takeWhile (· ≠ '\n')))
  | string : c = '"' → '"' ∈ cs →
      IsFirst c cs (.token .string (c :: cs.takeWhile (· ≠ '"') ++ ['"']))
  | unterminated : c = '"' → '"' ∉ cs → IsFirst c cs (.unterminated (c :: cs))
  | number : c.isDigit = true → IsFirst c cs (.token .number (numberText (c :: cs)))
  | word : isWordStart c = true →
      IsFirst c cs (.token (wordKind (c :: cs.takeWhile isWordPart)) (c :: cs.takeWhile isWordPart))
  | symbol {text : List Char} {kind : TokenKind} :
      symbols.find? (·.1.isPrefixOf (c :: cs)) = some (text, kind) → IsFirst c cs (.token kind text)
  | unexpected : IsFirst c cs (.unexpected c)

theorem isFirst_firstPiece (c : Char) (cs : List Char) : IsFirst c cs (firstPiece c cs) := by
  unfold firstPiece
  split
  · exact .separator ‹_›
  split
  · exact .comment ‹_›
  split
  · dsimp only
    split
    · exact .string ‹_› ‹_›
    · exact .unterminated ‹_› ‹_›
  split
  · exact .number ‹_›
  split
  · exact .word ‹_›
  split
  · exact .symbol ‹_›
  · exact .unexpected

/-- No piece of a source is a token for the end of input. -/
theorem firstPiece_kind_ne_end {c : Char} {cs text : List Char} {kind : TokenKind}
    (h : firstPiece c cs = .token kind text) : kind ≠ .endOfInput := by
  have hall : ∀ s ∈ symbols, s.2 ≠ .endOfInput := by decide
  have hfirst := isFirst_firstPiece c cs
  rw [h] at hfirst
  cases hfirst with
  | string => exact nofun
  | number => exact nofun
  | word => exact keywords_kind_ne_end
  | symbol hfind => exact hall _ (List.mem_of_find?_eq_some hfind)

theorem firstPiece_separator {c d : Char} {cs : List Char} (h : firstPiece c cs = .separator d) :
    isSeparator d = true := by
  have hfirst := isFirst_firstPiece c cs
  rw [h] at hfirst
  cases hfirst with
  | separator hc => exact hc

theorem firstPiece_comment {c : Char} {cs text : List Char} (h : firstPiece c cs = .comment text) :
    c = '#' ∧ text = '#' :: cs.takeWhile (· ≠ '\n') := by
  have hfirst := isFirst_firstPiece c cs
  rw [h] at hfirst
  cases hfirst with
  | comment hc => exact ⟨hc, by rw [hc]⟩

/-- The item of a piece covers the text of the piece. -/
theorem covers_item {c : Char} {cs before : List Char} {i : Item}
    (h : (firstPiece c cs).item? (Place.start.advance before) = some i) :
    Covers before (firstPiece c cs).text i := by
  have hoffset : (Place.start.advance before).offset = byteSize before := Nat.zero_add _
  cases hp : firstPiece c cs with
  | separator d => rw [hp] at h; cases h
  | comment text => rw [hp] at h; cases h
  | token kind text =>
    rw [hp] at h
    cases h
    have hkind := firstPiece_kind_ne_end hp
    refine ⟨?_, rfl, hkind, fun t ht => by cases ht; rfl⟩
    rw [← hoffset]
    rfl
  | unexpected d =>
    rw [hp] at h
    cases h
    refine ⟨?_, rfl, not_false, fun t ht => by cases ht⟩
    rw [← hoffset]
    rfl
  | unterminated text =>
    rw [hp] at h
    cases h
    refine ⟨?_, rfl, not_false, fun t ht => by cases ht⟩
    rw [← hoffset]
    rfl

/-- What follows a comment begins where its text stopped. -/
theorem newline_after_comment {cs rest : List Char} (h : cs.takeWhile (· ≠ '\n') ++ rest = cs) :
    ∀ c ∈ rest.head?, c = '\n' := by
  have hdrop : rest = cs.dropWhile (· ≠ '\n') :=
    List.append_cancel_left (h.trans List.takeWhile_append_dropWhile.symm)
  intro d hd
  rw [hdrop] at hd
  have hstop := List.head?_dropWhile_not (· ≠ '\n') cs
  rw [Option.mem_def.mp hd] at hstop
  simpa using hstop

/-- A piece without an item makes a longer gap. -/
theorem gap_append_of_no_item {c : Char} {cs rest gap tail : List Char} {p : Place}
    (hsplit : (firstPiece c cs).text ++ rest = c :: cs)
    (h : (firstPiece c cs).item? p = none) (hrest : gap ++ tail = rest) (hg : Gap gap tail) :
    Gap ((firstPiece c cs).text ++ gap) tail := by
  cases hp : firstPiece c cs with
  | separator d =>
    have hd := firstPiece_separator hp
    simp only [isSeparator, Bool.or_eq_true, beq_iff_eq] at hd
    exact .separator hd.symm hg
  | comment text =>
    obtain ⟨rfl, rfl⟩ := firstPiece_comment hp
    refine .comment (not_mem_takeWhile_ne _ _) ?_ hg
    rw [hp] at hsplit
    rw [hrest]
    exact newline_after_comment (List.cons.inj hsplit).2
  | token kind text => rw [hp] at h; cases h
  | unexpected d => rw [hp] at h; cases h
  | unterminated text => rw [hp] at h; cases h

/-- The items of the pieces of a text cover it, wherever it stands. -/
theorem tiles_placed (before cs : List Char) :
    Tiles before cs (placed (Place.start.advance before) (pieces cs)) := by
  fun_induction pieces cs generalizing before with
  | case1 =>
    have h := @Tiles.stop before [] .nil
    rwa [List.append_nil] at h
  | case2 c cs piece ih =>
    -- a piece without an item lengthens the gap of what comes after it, any other one starts anew
    obtain ⟨rest, hsplit⟩ := firstPiece_isPrefix c cs
    have hdrop : (c :: cs).drop piece.text.length = rest := by
      rw [← hsplit]; exact List.drop_left
    rw [hdrop] at ih
    have hrest := ih (before ++ piece.text)
    rw [placed, hdrop, ← hsplit, ← Place.advance_append]
    cases hi : piece.item? (Place.start.advance before) with
    | none => exact .of_skipped (fun gap tail => gap_append_of_no_item hsplit hi) hrest
    | some i =>
      have hc := covers_item hi
      have h := @Tiles.item before [] piece.text rest i _ .nil (firstPiece_text_ne_nil c cs)
        (by simpa using hc) (by simpa using hrest)
      simpa using h

/-! ### Reading the fields of a tiling off -/

section Fields

variable {before rest : List Char} {is : List Item}

/-- Each item covers a part of the text, which is empty only at the end of input. -/
theorem Tiles.exists_cover (h : Tiles before rest is) : ∀ i ∈ is, ∃ pre text post,
    before ++ rest = pre ++ text ++ post ∧ i.span = ⟨byteSize pre, byteSize text⟩ ∧
      i.line = 1 + pre.count '\n' ∧ byteSize before ≤ byteSize pre ∧
      (¬ i.IsEnd → text ≠ []) ∧ ∀ t, i = .token t → t.lexeme = String.ofList text := by
  induction h with
  | @stop before gap hg =>
    simp only [List.forall_mem_singleton]
    refine ⟨before ++ gap, [], [], by simp, ?_, rfl, ?_, fun h => absurd rfl h, ?_⟩
    · simp [Item.span, Token.span, Token.length, Place.token, Place.advance, Place.start, byteSize]
    · rw [byteSize_append]
      exact Nat.le_add_right _ _
    · rintro _ ⟨⟩
      rfl
  | @item before gap text rest i is hg hne hc ht ih =>
    intro j hj
    rcases List.mem_cons.mp hj with rfl | hj
    · refine ⟨before ++ gap, text, rest, by simp, hc.span, hc.line, ?_, fun _ => hne, hc.lexeme⟩
      rw [byteSize_append]
      exact Nat.le_add_right _ _
    · obtain ⟨pre, text', post, heq, hspan, hline, hle, hrest⟩ := ih j hj
      refine ⟨pre, text', post, by rw [← heq]; simp, hspan, hline, ?_, hrest⟩
      simp only [byteSize_append] at hle
      omega

theorem Tiles.offset_le (h : Tiles before rest is) {i : Item} (hi : i ∈ is) :
    byteSize before ≤ i.span.offset := by
  obtain ⟨pre, text, post, -, hspan, -, hle, -⟩ := h.exists_cover i hi
  rw [hspan]
  exact hle

theorem Tiles.pairwise (h : Tiles before rest is) :
    is.Pairwise fun i j => i.span.offset < j.span.offset ∧ i.span.stop ≤ j.span.offset := by
  induction h with
  | stop => exact List.pairwise_singleton _ _
  | @item before gap text rest i is hg hne hc ht ih =>
    refine List.pairwise_cons.mpr ⟨fun j hj => ?_, ih⟩
    have hle := ht.offset_le hj
    have hpos := byteSize_pos hne
    simp only [byteSize_append] at hle
    simp only [Span.stop, hc.span, byteSize_append]
    omega

/-- A gap between two texts stands where they meet. -/
theorem gapAt_append (before : List Char) {gap rest : List Char} (h : Gap gap rest) :
    GapAt (String.ofList (before ++ gap ++ rest)) (byteSize before) (byteSize (before ++ gap)) := by
  refine ⟨gap, rest, ?_, ?_, h⟩
  · rw [byteSize_append]
    exact slice_middle before gap rest
  · have hs := slice_middle (before ++ gap) rest []
    rwa [List.append_nil, ← byteSize_append] at hs

/-- What stands between a text and the first item after it is a gap. -/
theorem Tiles.gapAt_head {i : Item} (h : Tiles before rest (i :: is)) :
    GapAt (String.ofList (before ++ rest)) (byteSize before) i.span.offset := by
  generalize his : i :: is = items at h
  cases h with
  | stop hg =>
    cases his
    have hgap := gapAt_append before hg
    rw [List.append_nil] at hgap
    rwa [show byteSize (before ++ rest) = _ from (Nat.zero_add _).symm] at hgap
  | item hg _ hc _ =>
    cases his
    have hgap := gapAt_append before hg
    rw [hc.span]
    rwa [← List.append_assoc, List.append_assoc before, List.append_assoc before] at hgap

theorem Tiles.gapAt_between (h : Tiles before rest is) {i j : Item} (hij : [i, j] <:+: is) :
    GapAt (String.ofList (before ++ rest)) i.span.stop j.span.offset := by
  induction h with
  | stop =>
    have hlen := hij.length_le
    simp at hlen
  | @item before gap text rest i' is hg hne hc ht ih =>
    have hassoc : before ++ (gap ++ text ++ rest) = before ++ gap ++ text ++ rest := by simp
    rw [hassoc]
    rcases List.infix_cons_iff.mp hij with hpre | hin
    · -- the pair is the first: its second item is the head of what is covered after the text
      obtain ⟨rfl, is', rfl⟩ := List.cons_prefix_cons.mp hpre
      have hstop : byteSize (before ++ gap ++ text) = i.span.stop := by
        rw [hc.span, byteSize_append]
        rfl
      rw [← hstop]
      exact ht.gapAt_head
    · exact ih hin

/-- The items end with the end of input, and no other item is one. -/
theorem Tiles.exists_end (h : Tiles before rest is) : ∃ init t, is = init ++ [.token t] ∧
    t.kind = .endOfInput ∧ t.lexeme = "" ∧ t.offset = byteSize (before ++ rest) ∧
      ∀ i ∈ init, ¬ i.IsEnd := by
  induction h with
  | @stop before gap hg =>
    refine ⟨[], _, rfl, rfl, rfl, ?_, by simp⟩
    simp [Place.token, Place.advance, Place.start]
  | @item before gap text rest i is hg hne hc ht ih =>
    obtain ⟨init, t, rfl, hkind, hlex, hoff, hinit⟩ := ih
    refine ⟨i :: init, t, rfl, hkind, hlex, by simpa using hoff, ?_⟩
    simpa using ⟨hc.notEnd, hinit⟩

end Fields

/-- The tokens of a scan are the items that are tokens. -/
theorem token_mem_items {source : String} {t : Token} (h : t ∈ (scan source).tokens) :
    .token t ∈ items source := by
  obtain ⟨i, hi, ht⟩ := List.mem_filterMap.mp h
  rwa [← Item.token?_eq_some.mp ht]

theorem tiles_items (source : String) : Tiles [] source.toList (items source) :=
  tiles_placed [] source.toList

/-- The end of input is an empty token at the end of the source. -/
theorem empty_of_end {source : String} {t : Token} (ht : t ∈ (scan source).tokens)
    (hend : t.kind = .endOfInput) : t.lexeme = "" ∧ t.offset = source.utf8ByteSize := by
  obtain ⟨init, stop, hitems, -, hlexeme, hoffset, hinit⟩ := (tiles_items source).exists_end
  have hmem := token_mem_items ht
  rw [hitems, List.mem_append, List.mem_singleton] at hmem
  rcases hmem with hmem | heq
  · exact absurd hend (hinit _ hmem)
  · cases heq
    rw [List.nil_append, byteSize, String.ofList_toList] at hoffset
    exact ⟨hlexeme, hoffset⟩

/-- **Tiling.**  The items of a source are a tiling of it. -/
theorem items_tiling (source : String) : Tiling source (items source) := by
  have h := tiles_items source
  have hsource : String.ofList ([] ++ source.toList) = source := String.ofList_toList
  have hsize : byteSize ([] ++ source.toList) = source.utf8ByteSize := by rw [byteSize, hsource]
  refine ⟨h.pairwise.imp And.left, h.pairwise.imp And.right, fun i hi hend => ?_, fun t ht => ?_,
    fun i hi => ?_, fun i j hij => ?_, fun i hi => ?_, ?_, fun i hi => ?_⟩
  · obtain ⟨pre, text, post, -, hspan, -, -, hne, -⟩ := h.exists_cover i hi
    rw [hspan]
    exact byteSize_pos (hne hend)
  · obtain ⟨pre, text, post, heq, hspan, -, -, -, hlex⟩ := h.exists_cover _ ht
    have hs := slice_middle pre text post
    rw [← heq, hsource] at hs
    have hspan : t.span = ⟨byteSize pre, byteSize text⟩ := hspan
    rw [show t.offset = byteSize pre from congrArg Span.offset hspan, Span.stop, hspan,
      hlex t rfl]
    exact hs
  · obtain ⟨is, his⟩ : ∃ is, items source = i :: is := by
      cases hs : items source with
      | nil => rw [hs] at hi; cases hi
      | cons j is => rw [hs] at hi; cases hi; exact ⟨is, rfl⟩
    rw [his] at h
    have hgap := h.gapAt_head
    rwa [hsource] at hgap
  · have hgap := h.gapAt_between hij
    rwa [hsource] at hgap
  · obtain ⟨init, t, his, -, hlex, hoff, -⟩ := h.exists_end
    rw [his, List.getLast?_concat] at hi
    cases hi
    have hstop : t.span.stop = source.utf8ByteSize := by
      rw [Span.stop, Token.span, Token.length, hlex, hoff, hsize]
      rfl
    have hgap := gapAt_append source.toList (.nil : Gap [] [])
    rw [List.append_nil, List.append_nil] at hgap
    rw [Item.span, hstop, ← hsize]
    rwa [String.ofList_toList] at hgap
  · obtain ⟨init, t, his, hkind, hlex, hoff, hinit⟩ := h.exists_end
    exact ⟨init, t, his, hkind, hlex, hoff.trans hsize, hinit⟩
  · obtain ⟨pre, text, post, heq, hspan, hline, -, -⟩ := h.exists_cover i hi
    have hs := slice_middle [] pre (text ++ post)
    rw [List.nil_append, ← List.append_assoc, ← heq, hsource] at hs
    rw [hline, hspan, ← count_newline_bytesOf, ← hs]
    simp [byteSize]

end ListCalc
