import ListCalc.Proofs.Text.Bytes

/-!
# Proofs — scanning across a line break

No piece of a source reaches over a newline, a string that is never closed apart.  So where two
sources are joined by a newline and the first one is without faults, the pieces are those of the
first, the newline, and those of the second (`pieces_newline`).  The tokens of the second stand
further on than by themselves, all by the same number of bytes and lines (`Shift`).

`scan_joined` is the result: the tokens of the joined sources are those of the first before its end,
and then those of the second, shifted.
-/

namespace ListCalc

open Place (byteSize)

/-! ### Cutting at a newline -/

section Cutting

variable {p : Char → Bool}

theorem takeWhile_newline (hp : p '\n' = false) (cs ds : List Char) :
    (cs ++ '\n' :: ds).takeWhile p = cs.takeWhile p := by
  induction cs with
  | nil => simp [hp]
  | cons c cs ih => by_cases hc : p c = true <;> simp [hc, ih]

theorem dropWhile_newline (hp : p '\n' = false) (cs ds : List Char) :
    (cs ++ '\n' :: ds).dropWhile p = cs.dropWhile p ++ '\n' :: ds := by
  induction cs with
  | nil => simp [hp]
  | cons c cs ih => by_cases hc : p c = true <;> simp [hc, ih]

theorem takeWhile_append_of_mem {a : Char} {cs : List Char} (ha : a ∈ cs) (hp : p a = false)
    (ds : List Char) : (cs ++ ds).takeWhile p = cs.takeWhile p := by
  induction cs with
  | nil => cases ha
  | cons c cs ih =>
    by_cases hc : p c = true
    · have ha' : a ∈ cs := (List.mem_cons.mp ha).resolve_left fun h => by simp [← h, hp] at hc
      simp [hc, ih ha']
    · simp [hc]

end Cutting

/-- No number goes on over a newline. -/
theorem numberText_newline (cs ds : List Char) :
    numberText (cs ++ '\n' :: ds) = numberText cs := by
  have hnewline : Char.isDigit '\n' = false := by decide
  rw [numberText, numberText, takeWhile_newline hnewline, dropWhile_newline hnewline]
  -- a point that ends the first text is followed by the newline, which is no digit
  match cs.dropWhile Char.isDigit with
  | [] => rfl
  | [c] =>
    by_cases hc : c = '.'
    · subst hc
      rfl
    · simp [hc]
  | c :: d :: rest =>
    by_cases hc : c = '.'
    · subst hc
      simp [takeWhile_newline hnewline]
    · simp [hc]

/-- What has no newline in it does not reach over one. -/
theorem isPrefixOf_newline {text : List Char} (h : '\n' ∉ text) (cs ds : List Char) :
    text.isPrefixOf (cs ++ '\n' :: ds) = text.isPrefixOf cs := by
  induction text generalizing cs with
  | nil => simp
  | cons a text ih =>
    simp only [List.mem_cons, not_or] at h
    cases cs with
    | nil => simp [List.isPrefixOf, Ne.symm h.1]
    | cons c cs => simp [List.isPrefixOf, ih h.2]

theorem find_symbol_newline (cs ds : List Char) :
    symbols.find? (·.1.isPrefixOf (cs ++ '\n' :: ds)) = symbols.find? (·.1.isPrefixOf cs) := by
  have hsymbols : ∀ s ∈ symbols, '\n' ∉ s.1 := by decide
  generalize symbols = table at hsymbols
  induction table with
  | nil => rfl
  | cons s table ih =>
    obtain ⟨hs, htable⟩ := List.forall_mem_cons.mp hsymbols
    rw [List.find?_cons, List.find?_cons, isPrefixOf_newline hs, ih htable]

/-- A piece that is closed is the same before a newline as at the end. -/
theorem firstPiece_newline {c : Char} {cs : List Char}
    (h : ∀ text, firstPiece c cs ≠ .unterminated text) (ds : List Char) :
    firstPiece c (cs ++ '\n' :: ds) = firstPiece c cs := by
  unfold firstPiece at h ⊢
  split
  · rfl
  split
  · rw [takeWhile_newline (by decide)]
  split
  · rename_i hsep hcomment hquote
    have hclosed : '"' ∈ cs := Decidable.byContradiction fun hopen =>
      h (c :: cs) (by rw [if_neg hsep, if_neg hcomment, if_pos hquote, if_neg hopen])
    dsimp only
    rw [if_pos hclosed, if_pos (List.mem_append_left _ hclosed),
      takeWhile_append_of_mem hclosed (by decide)]
  split
  · rw [← List.cons_append, numberText_newline]
  split
  · rw [takeWhile_newline (by decide)]
  · rw [← List.cons_append, find_symbol_newline]

/-- A newline outside of a string separates the pieces before it from those after it. -/
theorem pieces_newline {cs : List Char} (h : ∀ text, .unterminated text ∉ pieces cs)
    (ds : List Char) : pieces (cs ++ '\n' :: ds) = pieces cs ++ .separator '\n' :: pieces ds := by
  fun_induction pieces cs with
  | case1 =>
    rw [List.nil_append, pieces, show firstPiece '\n' ds = .separator '\n' by rfl]
    rfl
  | case2 c cs piece ih =>
    simp only [List.mem_cons, not_or] at h
    have hlength : piece.text.length ≤ (c :: cs).length := (firstPiece_isPrefix c cs).length_le
    have hpiece := firstPiece_newline (fun text heq => (h text).1 heq.symm) ds
    rw [List.cons_append, pieces, hpiece, ← List.cons_append, List.drop_append_of_le_length hlength,
      ih fun text => (h text).2]
    rfl

/-! ### Shifting -/

/-- How much further on something stands. -/
structure Shift where
  bytes : Nat
  lines : Nat

/-- The shift of what stands on the lines after a source. -/
def Shift.past (source : String) : Shift :=
  ⟨source.utf8ByteSize + 1, source.toList.count '\n' + 1⟩

/-- The place further on by as many bytes and lines. -/
def Place.shift (d : Shift) (p : Place) : Place := ⟨p.offset + d.bytes, p.line + d.lines⟩

/-- The span further on by as many bytes. -/
def Span.shift (d : Shift) (s : Span) : Span := ⟨s.offset + d.bytes, s.length⟩

/-- The token further on by as many bytes and lines. -/
def Token.shift (d : Shift) (t : Token) : Token :=
  { t with offset := t.offset + d.bytes, line := t.line + d.lines }

/-- The error further on by as many bytes and lines; what it says stays. -/
def SyntaxError.shift (d : Shift) (e : SyntaxError) : SyntaxError :=
  { e with line := e.line + d.lines, span := e.span.shift d }

/-- The item further on by as many bytes and lines. -/
def Item.shift (d : Shift) : Item → Item
  | token t => token (t.shift d)
  | fault e => fault (e.shift d)

/-- What comes after a shifted place is shifted. -/
theorem Place.advance_shift (d : Shift) (p : Place) (cs : List Char) :
    (p.shift d).advance cs = (p.advance cs).shift d := by
  simp only [Place.shift, Place.advance, Nat.add_right_comm]

theorem Piece.item?_shift (d : Shift) (p : Place) (piece : Piece) :
    piece.item? (p.shift d) = (piece.item? p).map (Item.shift d) := by
  cases piece <;> rfl

/-- The items from a shifted place are shifted. -/
theorem placed_shift (d : Shift) (p : Place) (ps : List Piece) :
    placed (p.shift d) ps = (placed p ps).map (Item.shift d) := by
  induction ps generalizing p with
  | nil => rfl
  | cons piece ps ih =>
    rw [placed, placed, Place.advance_shift, ih, Piece.item?_shift, List.map_append]
    cases piece.item? p <;> rfl

/-- What stands past a source is where it would stand by itself, shifted. -/
theorem advance_newline (source : String) :
    Place.start.advance (source.toList ++ ['\n']) = Place.start.shift (.past source) := by
  have hsize : byteSize source.toList = source.utf8ByteSize := by
    rw [byteSize, String.ofList_toList]
  have hbytes : byteSize (source.toList ++ ['\n']) = source.utf8ByteSize + 1 := by
    rw [byteSize_append, hsize]
    rfl
  have hlines : (source.toList ++ ['\n']).count '\n' = source.toList.count '\n' + 1 := by
    simp
  rw [Place.advance, hbytes, hlines]
  rfl

/-! ### Items and tokens -/

/-- The end of input is the last item; where pieces come after it, their items come in its place. -/
theorem placed_append (p : Place) (ps qs : List Piece) : ∃ init,
    placed p ps =
      init ++ [.token ((p.advance (ps.map Piece.text).flatten).token .endOfInput [])] ∧
    placed p (ps ++ qs) = init ++ placed (p.advance (ps.map Piece.text).flatten) qs := by
  induction ps generalizing p with
  | nil =>
    have hnil : p.advance [] = p := rfl
    exact ⟨[], by simp [placed, hnil], by simp [hnil]⟩
  | cons piece ps ih =>
    obtain ⟨init, hleft, hright⟩ := ih (p.advance piece.text)
    refine ⟨(piece.item? p).toList ++ init, ?_, ?_⟩
    · simp [placed, hleft, Place.advance_append]
    · simp [placed, hright, Place.advance_append]

theorem exists_fault_of_unterminated {text : List Char} {ps : List Piece} (p : Place)
    (h : .unterminated text ∈ ps) : ∃ e, .fault e ∈ placed p ps := by
  induction ps generalizing p with
  | nil => cases h
  | cons piece ps ih =>
    rcases List.mem_cons.mp h with rfl | h
    · exact ⟨_, List.mem_append_left _ (.head _)⟩
    · obtain ⟨e, he⟩ := ih (p.advance piece.text) h
      exact ⟨e, List.mem_append_right _ he⟩

/-- In a source without faults, every string is closed. -/
theorem unterminated_not_mem {source : String} (h : (scan source).faults = []) (text : List Char) :
    .unterminated text ∉ pieces source.toList := by
  intro hmem
  obtain ⟨e, he⟩ := exists_fault_of_unterminated .start hmem
  have hfault : e ∈ (scan source).faults := List.mem_filterMap.mpr ⟨_, he, rfl⟩
  rw [h] at hfault
  cases hfault

/-- The items of two sources with a newline between them are those of both, the second ones shifted.
-/
theorem items_joined {s₁ s₂ : String} (h : (scan s₁).faults = []) :
    ∃ init stop, items s₁ = init ++ [.token stop] ∧ stop.kind = .endOfInput ∧
      items (s₁ ++ "\n" ++ s₂) = init ++ (items s₂).map (Item.shift (.past s₁)) := by
  obtain ⟨init, hleft, hright⟩ :=
    placed_append .start (pieces s₁.toList) (.separator '\n' :: pieces s₂.toList)
  rw [pieces_flatten] at hleft hright
  refine ⟨init, _, hleft, rfl, ?_⟩
  have hjoined : (s₁ ++ "\n" ++ s₂).toList = s₁.toList ++ '\n' :: s₂.toList := by simp
  rw [items, hjoined, pieces_newline (unterminated_not_mem h), hright, items, ← placed_shift,
    ← advance_newline, Place.advance_append]
  rfl

theorem filterMap_token_shift (d : Shift) (is : List Item) :
    (is.map (Item.shift d)).filterMap Item.token? =
      (is.filterMap Item.token?).map (Token.shift d) := by
  rw [List.filterMap_map, List.map_filterMap]
  congr 1
  funext i
  cases i <;> rfl

theorem filterMap_fault_shift (d : Shift) (is : List Item) :
    (is.map (Item.shift d)).filterMap Item.fault? =
      (is.filterMap Item.fault?).map (SyntaxError.shift d) := by
  rw [List.filterMap_map, List.map_filterMap]
  congr 1
  funext i
  cases i <;> rfl

/-- **Scanning across a line break.**  After a source without faults, the tokens of the second
source come in the place of the end of the first, shifted, and so do its faults. -/
theorem scan_joined {s₁ s₂ : String} (h : (scan s₁).faults = []) :
    ∃ ts stop, (scan s₁).tokens = ts ++ [stop] ∧ stop.kind = .endOfInput ∧
      (scan (s₁ ++ "\n" ++ s₂)).tokens = ts ++ (scan s₂).tokens.map (Token.shift (.past s₁)) ∧
      (scan (s₁ ++ "\n" ++ s₂)).faults = (scan s₂).faults.map (SyntaxError.shift (.past s₁)) := by
  obtain ⟨init, stop, hitems, hstop, hjoined⟩ := @items_joined s₁ s₂ h
  have hclean : init.filterMap Item.fault? = [] := by
    simp only [scan, hitems, List.filterMap_append] at h
    exact (List.append_eq_nil_iff.mp h).1
  refine ⟨init.filterMap Item.token?, stop, ?_, hstop, ?_, ?_⟩
  · simp only [scan, hitems, List.filterMap_append]
    rfl
  · simp only [scan, hjoined, List.filterMap_append, filterMap_token_shift]
  · simp only [scan, hjoined, List.filterMap_append, hclean, filterMap_fault_shift,
      List.nil_append]

end ListCalc
