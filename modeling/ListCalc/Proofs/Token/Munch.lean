import ListCalc.Proofs.Token.Tiling

/-!
# Proofs — the longest lexeme is taken

`Lexeme kind text` are the lexical classes, each by itself: the fixed tokens, numbers, strings and
words, where a reserved word is no identifier.  `LongestLexeme kind text source` says that `text`
stands at the head of `source` and that no longer text of any class does.

* `firstPiece_eq_token_iff`: the first piece of a text is a token exactly if it is the longest
  lexeme there.
* `items_eq_iff`: `Munches` reads a source piece by piece with no more than these classes in view,
  and the items of a source are the one reading that it has.

A lexeme at the head of a text makes the first piece a token that is at least as long
(`Lexeme.covered`); the rest follows from this and from what the pieces are.
-/

namespace ListCalc

open Place (byteSize)

/-! ### Lexical classes -/

/-- Digits, at least one. -/
def IsDigits (ds : List Char) : Prop := ds ≠ [] ∧ ∀ d ∈ ds, d.isDigit = true

/-- A letter or underscore, with letters, underscores and digits after it. -/
def IsWord : List Char → Prop
  | []      => False
  | c :: cs => isWordStart c = true ∧ ∀ d ∈ cs, isWordPart d = true

instance : DecidablePred IsWord
  | []      => inferInstanceAs (Decidable False)
  | c :: cs => decidable_of_iff ((isWordStart c && cs.all isWordPart) = true) (by simp [IsWord])

/-- The text is a token of this kind, by itself. -/
inductive Lexeme : TokenKind → List Char → Prop where
  | symbol {kind : TokenKind} {text : List Char} : (text, kind) ∈ symbols → Lexeme kind text
  | whole {ds : List Char} : IsDigits ds → Lexeme .number ds
  | fraction {ds fs : List Char} : IsDigits ds → IsDigits fs → Lexeme .number (ds ++ '.' :: fs)
  | string {body : List Char} : '"' ∉ body → Lexeme .string ('"' :: body ++ ['"'])
  | keyword {kind : TokenKind} {text : List Char} : (text, kind) ∈ keywords → Lexeme kind text
  | identifier {text : List Char} : IsWord text → (∀ kind, (text, kind) ∉ keywords) →
      Lexeme .identifier text

/-- The lexeme stands at the head of the source, and no longer one of any class does. -/
structure LongestLexeme (kind : TokenKind) (text source : List Char) : Prop where
  lexeme : Lexeme kind text
  isPrefix : text <+: source
  longest : ∀ kind' text', Lexeme kind' text' → text' <+: source → text'.length ≤ text.length

/-! ### Characters -/

/-- The character is no separator, and begins neither a comment nor a string. -/
structure IsApart (c : Char) : Prop where
  separator : isSeparator c = false
  comment : c ≠ '#'
  quote : c ≠ '"'

theorem isApart_iff {c : Char} :
    IsApart c ↔ isSeparator c = false ∧ c ≠ '#' ∧ c ≠ '"' :=
  ⟨fun h => ⟨h.separator, h.comment, h.quote⟩, fun h => ⟨h.1, h.2.1, h.2.2⟩⟩

instance : DecidablePred IsApart := fun _ => decidable_of_iff _ isApart_iff.symm

/-- The characters from the digits up to the letters are apart. -/
theorem isApart_of_le {c : Char} (h : 48 ≤ c.toNat) (h' : c.toNat ≤ 122) : IsApart c := by
  have hne {d : Char} (hd : d.toNat < 48) : c ≠ d := by
    rintro rfl
    omega
  have hblank : isBlank c = false := by
    have hranges : ∀ r ∈ blankRanges, r.2 < 48 ∨ 122 < r.1 := by decide
    refine List.any_eq_false.mpr fun r hr => ?_
    have := hranges r hr
    simp only [Bool.and_eq_true, decide_eq_true_eq]
    omega
  refine ⟨?_, hne (by decide), hne (by decide)⟩
  rw [isSeparator, hblank, Bool.or_false]
  exact beq_false_of_ne (hne (by decide))

theorem toNat_of_isDigit {c : Char} (h : c.isDigit = true) : 48 ≤ c.toNat ∧ c.toNat ≤ 57 := by
  simp only [Char.isDigit, Bool.and_eq_true, decide_eq_true_eq, UInt32.le_iff_toNat_le] at h
  exact h

theorem toNat_of_isAlpha {c : Char} (h : c.isAlpha = true) : 65 ≤ c.toNat ∧ c.toNat ≤ 122 := by
  have h : (c.isUpper || c.isLower) = true := h
  rcases Bool.or_eq_true_iff.mp h with h | h
  · have h : 'A'.val ≤ c.val ∧ c.val ≤ 'Z'.val := of_decide_eq_true h
    have hl : 65 ≤ c.toNat := UInt32.le_iff_toNat_le.mp h.1
    have hu : c.toNat ≤ 90 := UInt32.le_iff_toNat_le.mp h.2
    omega
  · have h : (decide ('a'.val ≤ c.val) && decide (c.val ≤ 'z'.val)) = true := h
    rw [Bool.and_eq_true, decide_eq_true_eq, decide_eq_true_eq] at h
    have hl : 97 ≤ c.toNat := UInt32.le_iff_toNat_le.mp h.1
    have hu : c.toNat ≤ 122 := UInt32.le_iff_toNat_le.mp h.2
    omega

theorem isApart_of_isDigit {c : Char} (h : c.isDigit = true) : IsApart c := by
  obtain ⟨hl, hu⟩ := toNat_of_isDigit h
  exact isApart_of_le hl (by omega)

theorem isApart_of_isAlpha {c : Char} (h : c.isAlpha = true) : IsApart c := by
  obtain ⟨hl, hu⟩ := toNat_of_isAlpha h
  exact isApart_of_le (by omega) hu

theorem isApart_of_isWordPart {c : Char} (h : isWordPart c = true) : IsApart c := by
  simp only [isWordPart, Char.isAlphanum, Bool.or_eq_true, beq_iff_eq] at h
  rcases h with (h | h) | rfl
  · exact isApart_of_isAlpha h
  · exact isApart_of_isDigit h
  · exact isApart_of_le (by decide) (by decide)

theorem isWordPart_of_isWordStart {c : Char} (h : isWordStart c = true) : isWordPart c = true := by
  simp only [isWordStart, isWordPart, Char.isAlphanum, Bool.or_eq_true] at h ⊢
  exact h.imp_left .inl

theorem not_isDigit_of_isWordStart {c : Char} (h : isWordStart c = true) : c.isDigit = false := by
  refine Bool.eq_false_iff.mpr fun hdigit => ?_
  have hd := toNat_of_isDigit hdigit
  simp only [isWordStart, Bool.or_eq_true, beq_iff_eq] at h
  rcases h with h | rfl
  · have := toNat_of_isAlpha h
    omega
  · exact absurd hdigit (by decide)

/-- No fixed token has a separator, a quote or a comment sign in it. -/
theorem symbol_isApart {s : List Char × TokenKind} (hs : s ∈ symbols) : ∀ c ∈ s.1, IsApart c := by
  have hall : ∀ s ∈ symbols, s.1.all (IsApart ·) = true := by decide
  simpa using hall s hs

/-- What a fixed token begins with is no digit and no letter. -/
theorem symbol_head {s : List Char × TokenKind} {c : Char} {cs : List Char} (hs : s ∈ symbols)
    (h : s.1 = c :: cs) : IsApart c ∧ c.isDigit = false ∧ isWordStart c = false := by
  have hall : ∀ s ∈ symbols, s.1.head?.all (fun c => !c.isDigit && !isWordStart c) = true := by
    decide
  have hhead := hall s hs
  rw [h] at hhead
  exact ⟨symbol_isApart hs c (by simp [h]), by simpa using hhead⟩

/-! ### The first piece by its first character -/

section FirstPiece

variable {c : Char} {cs text : List Char} {kind : TokenKind}

/-- A digit begins a number. -/
theorem firstPiece_of_digit (h : c.isDigit = true) :
    firstPiece c cs = .token .number (numberText (c :: cs)) := by
  obtain ⟨hsep, hcomment, hquote⟩ := isApart_of_isDigit h
  simp [firstPiece, hsep, hcomment, hquote, h]

/-- A letter begins a word. -/
theorem firstPiece_of_wordStart (h : isWordStart c = true) :
    firstPiece c cs = .token (wordKind (c :: cs.takeWhile isWordPart))
      (c :: cs.takeWhile isWordPart) := by
  obtain ⟨hsep, hcomment, hquote⟩ := isApart_of_isWordPart (isWordPart_of_isWordStart h)
  simp [firstPiece, hsep, hcomment, hquote, not_isDigit_of_isWordStart h, h]

/-- A quote begins a string up to the next quote. -/
theorem firstPiece_of_quote {body rest : List Char} (h : '"' ∉ body) :
    firstPiece '"' (body ++ '"' :: rest) = .token .string ('"' :: body ++ ['"']) := by
  have htake : (body ++ '"' :: rest).takeWhile (· ≠ '"') = body := by
    rw [List.takeWhile_append_of_pos (by simpa using fun d hd => ne_of_mem_of_not_mem hd h)]
    simp
  have hsep : isSeparator '"' = false := by decide
  simp only [firstPiece, hsep, htake]
  simp

/-- The fixed tokens come with the longer ones first, so the first that fits is the longest. -/
theorem symbol_longest {found : List Char × TokenKind}
    (hfound : symbols.find? (·.1.isPrefixOf (c :: cs)) = some found)
    (hs : (text, kind) ∈ symbols) (htext : text <+: c :: cs) : text.length ≤ found.1.length := by
  have hsorted : symbols.Pairwise fun s s' => s'.1.length ≤ s.1.length := by decide
  obtain ⟨-, before, behind, hsplit, hbefore⟩ := List.find?_eq_some_iff_append.mp hfound
  rw [hsplit] at hs hsorted
  rcases List.mem_append.mp hs with hmem | hmem
  · have hnot := hbefore _ hmem
    rw [List.isPrefixOf_iff_prefix.mpr htext] at hnot
    cases hnot
  · rcases List.mem_cons.mp hmem with rfl | hmem
    · exact Nat.le_refl _
    · exact List.rel_of_pairwise_cons (List.pairwise_append.mp hsorted).2.1 hmem

/-- A fixed token has one kind. -/
theorem symbol_kind {s s' : List Char × TokenKind} (hs : s ∈ symbols) (hs' : s' ∈ symbols)
    (h : s.1 = s'.1) : s.2 = s'.2 := by
  have hall : ∀ s ∈ symbols, ∀ s' ∈ symbols, s.1 = s'.1 → s.2 = s'.2 := by decide
  exact hall s hs s' hs' h

/-- A reserved word is a word. -/
theorem keyword_isWord {s : List Char × TokenKind} (h : s ∈ keywords) :
    IsWord s.1 ∧ wordKind s.1 = s.2 := by
  have hall : ∀ s ∈ keywords, IsWord s.1 ∧ wordKind s.1 = s.2 := by decide
  exact hall s h

theorem wordKind_of_not_keyword (h : ∀ kind, (text, kind) ∉ keywords) :
    wordKind text = .identifier := by
  cases hl : keywords.lookup text with
  | none => rw [wordKind, hl, Option.getD_none]
  | some kind =>
    obtain ⟨before, behind, hk, -⟩ := List.lookup_eq_some_iff.mp hl
    exact absurd (by simp [hk]) (h kind)

theorem Lexeme.ne_nil (h : Lexeme kind text) : text ≠ [] := by
  cases h with
  | symbol hs => exact symbols_text_ne_nil hs
  | whole hds => exact hds.1
  | fraction | string => simp
  | keyword hk =>
    rintro rfl
    exact (keyword_isWord hk).1
  | identifier hword _ =>
    rintro rfl
    exact hword

theorem Lexeme.kind_ne_end (h : Lexeme kind text) : kind ≠ .endOfInput := by
  have hsymbols : ∀ s ∈ symbols, s.2 ≠ .endOfInput := by decide
  cases h with
  | symbol hs => exact hsymbols _ hs
  | keyword hk =>
    have hword : wordKind text = kind := (keyword_isWord hk).2
    exact hword ▸ keywords_kind_ne_end
  | whole | fraction | string | identifier => exact nofun

/-- A string aside, no character of a lexeme could separate tokens. -/
theorem Lexeme.string_or_isApart (h : Lexeme kind text) :
    (kind = .string ∧ ∃ body, '"' ∉ body ∧ text = '"' :: body ++ ['"']) ∨
      ∀ c ∈ text, IsApart c := by
  have hword {ds : List Char} (hds : IsWord ds) : ∀ d ∈ ds, IsApart d := by
    cases ds with
    | nil => simp
    | cons d ds =>
      refine List.forall_mem_cons.mpr ⟨?_, fun x hx => isApart_of_isWordPart (hds.2 x hx)⟩
      exact isApart_of_isWordPart (isWordPart_of_isWordStart hds.1)
  cases h with
  | symbol hs => exact .inr (symbol_isApart hs)
  | whole hds => exact .inr fun c hc => isApart_of_isDigit (hds.2 c hc)
  | fraction hds hfs =>
    refine .inr fun c hc => ?_
    rcases List.mem_append.mp hc with hc | hc
    · exact isApart_of_isDigit (hds.2 c hc)
    · rcases List.mem_cons.mp hc with rfl | hc
      · exact ⟨by decide, by decide, by decide⟩
      · exact isApart_of_isDigit (hfs.2 c hc)
  | string hbody => exact .inl ⟨rfl, _, hbody, rfl⟩
  | keyword hk => exact .inr (hword (keyword_isWord hk).1)
  | identifier hw _ => exact .inr (hword hw)

/-- A text of which every character is in the class goes no further than the class does. -/
theorem length_le_takeWhile {p : Char → Bool} {source : List Char} (h : text <+: source)
    (htext : ∀ d ∈ text, p d = true) : text.length ≤ (source.takeWhile p).length := by
  obtain ⟨rest, rfl⟩ := h
  rw [List.takeWhile_append_of_pos htext, List.length_append]
  exact Nat.le_add_right _ _

/-! ### A lexeme at the head of a text -/

/-- The first piece is a token and covers the text; if it is just the text, it is of the kind. -/
def Covered (kind : TokenKind) (text : List Char) (piece : Piece) : Prop :=
  ∃ kind' text', piece = .token kind' text' ∧ text.length ≤ text'.length ∧
    (text' = text → kind' = kind)

/-- Where a fixed token stands, the first piece is no shorter. -/
theorem covered_symbol (hs : (text, kind) ∈ symbols) (htext : text <+: c :: cs) :
    Covered kind text (firstPiece c cs) := by
  obtain ⟨ds, rfl⟩ : ∃ ds, text = c :: ds := by
    cases text with
    | nil => exact absurd rfl (symbols_text_ne_nil hs)
    | cons d ds => exact ⟨ds, by rw [(List.cons_prefix_cons.mp htext).1]⟩
  obtain ⟨⟨hsep, hcomment, hquote⟩, hdigit, hword⟩ := symbol_head hs rfl
  cases hfind : symbols.find? (·.1.isPrefixOf (c :: cs)) with
  | none =>
    have hnone := List.find?_eq_none.mp hfind _ hs
    exact absurd (List.isPrefixOf_iff_prefix.mpr htext) hnone
  | some found =>
    refine ⟨found.2, found.1, ?_, symbol_longest hfind hs htext, fun heq => ?_⟩
    · simp [firstPiece, hsep, hcomment, hquote, hdigit, hword, hfind]
    · exact symbol_kind (List.mem_of_find?_eq_some hfind) hs heq

/-- Where a word stands, the first piece is no shorter. -/
theorem covered_word (hword : IsWord text) (hkind : wordKind text = kind)
    (htext : text <+: c :: cs) : Covered kind text (firstPiece c cs) := by
  cases text with
  | nil => exact hword.elim
  | cons d ds =>
    obtain ⟨rfl, hds⟩ := List.cons_prefix_cons.mp htext
    refine ⟨_, _, firstPiece_of_wordStart hword.1, ?_, fun heq => heq ▸ hkind⟩
    exact Nat.succ_le_succ (length_le_takeWhile hds hword.2)

theorem digits_le_numberText (cs : List Char) :
    (cs.takeWhile Char.isDigit).length ≤ (numberText cs).length := by
  unfold numberText
  split
  · split
    · simp
    · exact Nat.le_refl _
  · exact Nat.le_refl _

/-- Before a point that digits follow, a number goes on. -/
theorem numberText_point {ds rest : List Char} {f : Char} (hds : ∀ d ∈ ds, d.isDigit = true)
    (hf : f.isDigit = true) :
    numberText (ds ++ '.' :: f :: rest) = ds ++ '.' :: (f :: rest).takeWhile Char.isDigit := by
  have hpoint : Char.isDigit '.' = false := by decide
  rw [numberText, List.takeWhile_append_of_pos hds, List.dropWhile_append_of_pos hds]
  simp [hpoint, hf]

/-- Where digits stand, the first piece is no shorter. -/
theorem covered_whole (hds : IsDigits text) (htext : text <+: c :: cs) :
    Covered .number text (firstPiece c cs) := by
  obtain ⟨d, ds, rfl⟩ := List.exists_cons_of_ne_nil hds.1
  obtain ⟨rfl, -⟩ := List.cons_prefix_cons.mp htext
  refine ⟨_, _, firstPiece_of_digit (hds.2 d (.head _)), ?_, fun _ => rfl⟩
  exact Nat.le_trans (length_le_takeWhile htext hds.2) (digits_le_numberText _)

/-- Where digits with a point stand, the first piece is no shorter. -/
theorem covered_fraction {ds fs : List Char} (hds : IsDigits ds) (hfs : IsDigits fs)
    (htext : ds ++ '.' :: fs <+: c :: cs) :
    Covered .number (ds ++ '.' :: fs) (firstPiece c cs) := by
  obtain ⟨d, ds', hd⟩ := List.exists_cons_of_ne_nil hds.1
  obtain ⟨f, fs', hf⟩ := List.exists_cons_of_ne_nil hfs.1
  obtain ⟨rest, hrest⟩ := htext
  have hsource : ds ++ '.' :: f :: (fs' ++ rest) = c :: cs := by simpa [hf] using hrest
  have hdigit : c.isDigit = true := by
    rw [hd] at hsource
    rw [← (List.cons.inj hsource).1]
    exact hds.2 d (by simp [hd])
  refine ⟨_, _, firstPiece_of_digit hdigit, ?_, fun _ => rfl⟩
  have hfraction : fs.length ≤ ((f :: (fs' ++ rest)).takeWhile Char.isDigit).length :=
    length_le_takeWhile ⟨rest, by simp [hf]⟩ hfs.2
  rw [← hsource, numberText_point hds.2 (hfs.2 f (by simp [hf]))]
  simp only [List.length_append, List.length_cons]
  omega

/-- Where a string stands, the first piece is no shorter. -/
theorem covered_string {body : List Char} (hbody : '"' ∉ body)
    (htext : '"' :: body ++ ['"'] <+: c :: cs) :
    Covered .string ('"' :: body ++ ['"']) (firstPiece c cs) := by
  obtain ⟨rest, hrest⟩ := htext
  obtain ⟨rfl, rfl⟩ : '"' = c ∧ body ++ '"' :: rest = cs := by simpa using hrest
  exact ⟨_, _, firstPiece_of_quote hbody, Nat.le_refl _, fun _ => rfl⟩

/-- Where any lexeme stands, the first piece is no shorter. -/
theorem Lexeme.covered (h : Lexeme kind text) (htext : text <+: c :: cs) :
    Covered kind text (firstPiece c cs) := by
  cases h with
  | symbol hs => exact covered_symbol hs htext
  | whole hds => exact covered_whole hds htext
  | fraction hds hfs => exact covered_fraction hds hfs htext
  | string hbody => exact covered_string hbody htext
  | keyword hk => exact covered_word (keyword_isWord hk).1 (keyword_isWord hk).2 htext
  | identifier hword hk => exact covered_word hword (wordKind_of_not_keyword hk) htext

/-! ### What is cut off as a token -/

theorem isDigits_takeWhile (h : c.isDigit = true) : IsDigits ((c :: cs).takeWhile Char.isDigit) :=
  ⟨by simp [h], fun _ hd => List.all_eq_true.mp List.all_takeWhile _ hd⟩

theorem lexeme_numberText (h : c.isDigit = true) : Lexeme .number (numberText (c :: cs)) := by
  have hwhole := @isDigits_takeWhile c cs h
  unfold numberText
  split
  · split
    · rename_i d rest _ hd
      have hfraction := @isDigits_takeWhile d rest hd
      rw [List.takeWhile_cons_of_pos hd] at hfraction
      exact .fraction hwhole hfraction
    · exact .whole hwhole
  · exact .whole hwhole

theorem lexeme_word (h : isWordStart c = true) (hcs : ∀ d ∈ cs, isWordPart d = true) :
    Lexeme (wordKind (c :: cs)) (c :: cs) := by
  by_cases hk : ∃ kind, (c :: cs, kind) ∈ keywords
  · obtain ⟨kind, hk⟩ := hk
    rw [(keyword_isWord hk).2]
    exact .keyword hk
  · have hk := not_exists.mp hk
    rw [wordKind_of_not_keyword hk]
    exact .identifier ⟨h, hcs⟩ hk

/-- What is cut off as a token is a lexeme. -/
theorem lexeme_of_firstPiece (h : firstPiece c cs = .token kind text) : Lexeme kind text := by
  have hfirst := isFirst_firstPiece c cs
  rw [h] at hfirst
  cases hfirst with
  | string hc hcs =>
    subst hc
    exact .string (not_mem_takeWhile_ne _ _)
  | number hc => exact lexeme_numberText hc
  | word hc => exact lexeme_word hc fun d hd => List.all_eq_true.mp List.all_takeWhile _ hd
  | symbol hfind => exact .symbol (List.mem_of_find?_eq_some hfind)

/-- **Maximal munch.**  The first piece is a token exactly if it is the longest lexeme. -/
theorem firstPiece_eq_token_iff :
    firstPiece c cs = .token kind text ↔ LongestLexeme kind text (c :: cs) := by
  constructor
  · intro h
    have hprefix := firstPiece_isPrefix c cs
    rw [h] at hprefix
    refine ⟨lexeme_of_firstPiece h, hprefix, fun kind' text' hlexeme htext => ?_⟩
    obtain ⟨kind'', text'', hpiece, hle, -⟩ := hlexeme.covered htext
    cases h.symm.trans hpiece
    exact hle
  · rintro ⟨hlexeme, htext, hlongest⟩
    obtain ⟨kind', text', hpiece, hle, hkind⟩ := hlexeme.covered htext
    have hprefix := firstPiece_isPrefix c cs
    rw [hpiece] at hprefix
    have hle' := hlongest kind' text' (lexeme_of_firstPiece hpiece) hprefix
    have heq : text' = text := by
      have hshort := List.prefix_of_prefix_length_le htext hprefix hle
      exact (hshort.eq_of_length (Nat.le_antisymm hle hle')).symm
    rw [hpiece, heq, hkind heq]

/-! ### What is no token -/

theorem firstPiece_of_separator (h : isSeparator c = true) : firstPiece c cs = .separator c := by
  simp [firstPiece, h]

theorem firstPiece_of_hash : firstPiece '#' cs = .comment ('#' :: cs.takeWhile (· ≠ '\n')) := by
  have hsep : isSeparator '#' = false := by decide
  simp [firstPiece, hsep]

theorem firstPiece_of_openQuote (h : '"' ∉ cs) : firstPiece '"' cs = .unterminated ('"' :: cs) := by
  have hsep : isSeparator '"' = false := by decide
  simp [firstPiece, hsep, h]

/-- A character is unexpected exactly if no lexeme begins with it and what comes after it. -/
theorem firstPiece_eq_unexpected_iff : firstPiece c cs = .unexpected c ↔
    IsApart c ∧ ∀ kind text, Lexeme kind text → ¬ text <+: c :: cs := by
  constructor
  · intro h
    refine ⟨⟨?_, ?_, ?_⟩, fun kind text hlexeme htext => ?_⟩
    · refine Bool.eq_false_iff.mpr fun hsep => ?_
      cases h.symm.trans (firstPiece_of_separator hsep)
    · rintro rfl
      cases h.symm.trans firstPiece_of_hash
    · rintro rfl
      by_cases hcs : '"' ∈ cs
      · obtain ⟨body, rest, rfl, hbody⟩ := List.eq_append_cons_of_mem hcs
        cases h.symm.trans (firstPiece_of_quote hbody)
      · cases h.symm.trans (firstPiece_of_openQuote hcs)
    · obtain ⟨kind', text', hpiece, -⟩ := hlexeme.covered htext
      cases h.symm.trans hpiece
  · rintro ⟨hapart, hnone⟩
    have hfirst := isFirst_firstPiece c cs
    have hprefix := firstPiece_isPrefix c cs
    cases hpiece : firstPiece c cs <;> rw [hpiece] at hfirst hprefix
    case token kind text => exact absurd hprefix (hnone kind text (lexeme_of_firstPiece hpiece))
    all_goals cases hfirst
    case separator.separator hsep => simp [hapart.separator] at hsep
    case comment.comment hc => exact absurd hc hapart.comment
    case unterminated.unterminated hc _ => exact absurd hc hapart.quote
    case unexpected.unexpected => rfl

end FirstPiece

/-! ### Reading a whole source -/

/-- The items of a text that begins at `p`, read by the lexical classes alone.  At each place stands
a separator, a comment, the longest lexeme, a quote that is never closed, or a character with which
no lexeme begins. -/
inductive Munches : Place → List Char → List Item → Prop where
  | stop {p : Place} : Munches p [] [.token (p.token .endOfInput [])]
  | separator {p : Place} {c : Char} {cs : List Char} {is : List Item} :
      isBlank c = true ∨ c = ',' → Munches (p.advance [c]) cs is → Munches p (c :: cs) is
  | comment {p : Place} {body cs : List Char} {is : List Item} :
      '\n' ∉ body → (∀ c ∈ cs.head?, c = '\n') → Munches (p.advance ('#' :: body)) cs is →
      Munches p ('#' :: body ++ cs) is
  | token {p : Place} {kind : TokenKind} {text cs : List Char} {is : List Item} :
      LongestLexeme kind text (text ++ cs) → Munches (p.advance text) cs is →
      Munches p (text ++ cs) (.token (p.token kind text) :: is)
  | unexpected {p : Place} {c : Char} {cs : List Char} {is : List Item} :
      IsApart c → (∀ kind text, Lexeme kind text → ¬ text <+: c :: cs) →
      Munches (p.advance [c]) cs is →
      Munches p (c :: cs) (.fault (p.fault [c] .unexpectedCharacter) :: is)
  | unterminated {p : Place} {cs : List Char} {is : List Item} :
      '"' ∉ cs → Munches (p.advance ('"' :: cs)) [] is →
      Munches p ('"' :: cs) (.fault (p.fault ('"' :: cs) .unterminatedString) :: is)

section Munches

variable {p : Place} {c : Char} {cs rest : List Char} {is : List Item} {piece : Piece}

/-- Cutting off the first piece. -/
theorem placed_pieces_cons (hpiece : firstPiece c cs = piece)
    (hsplit : piece.text ++ rest = c :: cs) :
    placed p (pieces (c :: cs)) =
      (piece.item? p).toList ++ placed (p.advance piece.text) (pieces rest) := by
  have hdrop : (c :: cs).drop piece.text.length = rest := by
    rw [← hsplit]
    exact List.drop_left
  rw [pieces, hpiece, placed, hdrop]

theorem isSeparator_iff : isSeparator c = true ↔ isBlank c = true ∨ c = ',' := by
  rw [isSeparator, Bool.or_eq_true, beq_iff_eq, or_comm]

theorem takeWhile_comment {body : List Char} (hbody : '\n' ∉ body)
    (hcs : ∀ c ∈ cs.head?, c = '\n') : (body ++ cs).takeWhile (· ≠ '\n') = body := by
  rw [List.takeWhile_append_of_pos (by simpa using fun d hd => ne_of_mem_of_not_mem hd hbody)]
  cases cs with
  | nil => simp
  | cons d ds => simp [hcs d rfl]

/-- There is no other reading of a text than its items. -/
theorem Munches.eq_placed (h : Munches p cs is) : placed p (pieces cs) = is := by
  induction h with
  | stop => rw [pieces, placed]
  | @separator p c cs is hc _ ih =>
    have hpiece := @firstPiece_of_separator c cs (isSeparator_iff.mpr hc)
    rw [placed_pieces_cons hpiece rfl]
    exact ih
  | @comment p body cs is hbody hcs _ ih =>
    have hpiece := @firstPiece_of_hash (body ++ cs)
    rw [takeWhile_comment hbody hcs] at hpiece
    rw [List.cons_append, placed_pieces_cons hpiece rfl]
    exact ih
  | @token p kind text cs is hlongest _ ih =>
    obtain ⟨c, ds, htext⟩ : ∃ c ds, text ++ cs = c :: ds := by
      obtain ⟨c, ds, rfl⟩ := List.exists_cons_of_ne_nil hlongest.lexeme.ne_nil
      exact ⟨c, ds ++ cs, rfl⟩
    rw [htext] at hlongest ⊢
    rw [placed_pieces_cons (firstPiece_eq_token_iff.mpr hlongest) htext]
    rw [Piece.item?, Option.toList_some, List.singleton_append]
    exact congrArg _ ih
  | unexpected hapart hnone _ ih =>
    rw [placed_pieces_cons (firstPiece_eq_unexpected_iff.mpr ⟨hapart, hnone⟩) rfl]
    exact congrArg _ ih
  | @unterminated p cs is hcs _ ih =>
    rw [placed_pieces_cons (firstPiece_of_openQuote hcs) (List.append_nil _)]
    exact congrArg _ ih

/-- The piece that is cut off is read as what it is. -/
theorem Munches.cons (hpiece : firstPiece c cs = piece) (hsplit : piece.text ++ rest = c :: cs)
    (h : Munches (p.advance piece.text) rest is) :
    Munches p (c :: cs) ((piece.item? p).toList ++ is) := by
  have hfirst := isFirst_firstPiece c cs
  rw [hpiece] at hfirst
  cases piece with
  | separator d =>
    cases hfirst with
    | separator hc =>
      obtain ⟨-, rfl⟩ := List.cons.inj hsplit
      exact .separator (isSeparator_iff.mp hc) h
  | comment text =>
    cases hfirst with
    | comment hc =>
      subst hc
      have hcs : cs.takeWhile (· ≠ '\n') ++ rest = cs := (List.cons.inj hsplit).2
      rw [← hsplit]
      exact .comment (not_mem_takeWhile_ne _ _) (newline_after_comment hcs) h
  | token kind text =>
    have hlongest := firstPiece_eq_token_iff.mp hpiece
    rw [← hsplit] at hlongest ⊢
    exact .token hlongest h
  | unexpected d =>
    cases hfirst with
    | unexpected =>
      obtain ⟨-, rfl⟩ := List.cons.inj hsplit
      obtain ⟨hapart, hnone⟩ := firstPiece_eq_unexpected_iff.mp hpiece
      exact .unexpected hapart hnone h
  | unterminated text =>
    cases hfirst with
    | unterminated hc hcs =>
      subst hc
      rw [List.append_right_eq_self.mp hsplit] at h
      exact .unterminated hcs h

/-- The items of a text are a reading of it. -/
theorem munches_placed (p : Place) (cs : List Char) : Munches p cs (placed p (pieces cs)) := by
  fun_induction pieces cs generalizing p with
  | case1 => exact .stop
  | case2 c cs piece ih =>
    obtain ⟨rest, hsplit⟩ := firstPiece_isPrefix c cs
    have hdrop : (c :: cs).drop piece.text.length = rest := by
      rw [← hsplit]
      exact List.drop_left
    have hrest := ih (p.advance piece.text)
    rw [hdrop] at hrest
    rw [placed, hdrop]
    exact .cons rfl hsplit hrest

/-- **The scan is the reading by longest lexemes.** -/
theorem items_eq_iff (source : String) (is : List Item) :
    items source = is ↔ Munches .start source.toList is := by
  constructor
  · rintro rfl
    exact munches_placed .start source.toList
  · exact Munches.eq_placed

/-- Every token of a reading is the longest lexeme where it stands. -/
theorem Munches.longestLexeme {before : List Char}
    (h : Munches (Place.start.advance before) cs is) :
    ∀ t, .token t ∈ is → t.kind ≠ .endOfInput → ∃ pre rest, before ++ cs = pre ++ rest ∧
      t.offset = byteSize pre ∧ LongestLexeme t.kind t.lexeme.toList rest := by
  generalize hp : Place.start.advance before = p at h
  induction h generalizing before with
  | stop =>
    intro t ht hkind
    cases List.mem_singleton.mp ht
    exact absurd rfl hkind
  | @separator p c cs is _ _ ih =>
    have htokens := @ih (before ++ [c]) (by rw [Place.advance_append, hp])
    rwa [List.append_assoc] at htokens
  | @comment p body cs is _ _ _ ih =>
    have htokens := @ih (before ++ '#' :: body) (by rw [Place.advance_append, hp])
    rwa [List.append_assoc] at htokens
  | @token p kind text cs is hlongest _ ih =>
    have htokens := @ih (before ++ text) (by rw [Place.advance_append, hp])
    rw [List.append_assoc] at htokens
    intro t ht hkind
    rcases List.mem_cons.mp ht with heq | ht
    · cases heq
      subst hp
      refine ⟨before, text ++ cs, rfl, Nat.zero_add _, ?_⟩
      rwa [Place.token, String.toList_ofList]
    · exact htokens t ht hkind
  | @unexpected p c cs is _ _ _ ih =>
    have htokens := @ih (before ++ [c]) (by rw [Place.advance_append, hp])
    rw [List.append_assoc] at htokens
    intro t ht
    exact htokens t (by simpa using ht)
  | @unterminated p cs is _ _ ih =>
    have htokens := @ih (before ++ '"' :: cs) (by rw [Place.advance_append, hp])
    rw [List.append_nil] at htokens
    intro t ht
    exact htokens t (by simpa using ht)

end Munches

/-- Every token before the end is the longest lexeme at its place. -/
theorem longestLexeme_of_scan {source : String} {t : Token} (ht : t ∈ (scan source).tokens)
    (hkind : t.kind ≠ .endOfInput) : ∃ before rest, source.toList = before ++ rest ∧
      t.offset = byteSize before ∧ LongestLexeme t.kind t.lexeme.toList rest := by
  exact @Munches.longestLexeme _ _ [] (munches_placed .start source.toList) t (token_mem_items ht)
    hkind

end ListCalc
