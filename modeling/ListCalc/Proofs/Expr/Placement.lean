import ListCalc.Proofs.Expr.Grammar

/-!
# Proofs — trees wherever their tokens stand

`Expr.relocate f` replaces every token `t` of a tree by `f t`.  Where `f` only moves tokens, so that
kinds and lexemes stay (`KeepsText`), the grammar does not see it: a relocated phrase is a phrase,
nested as deep, and could be read no further (`Phrase.relocate`, `Expr.longest_relocate`).

Two forests one after the other are a forest if reading does not go on over the place where they
meet (`IsForest.append`): what comes there is no infix operator, and no name bound to a unary
operator stands just before an operand.
-/

namespace ListCalc

/-! ### Moving tokens -/

/-- The function moves tokens and leaves what they say. -/
structure KeepsText (f : Token → Token) : Prop where
  kind : ∀ t, (f t).kind = t.kind
  lexeme : ∀ t, (f t).lexeme = t.lexeme

theorem keepsText_id : KeepsText id := ⟨fun _ => rfl, fun _ => rfl⟩

namespace KeepsText

variable {f : Token → Token} {arities : Arities}

/-- Whether a token is a binary operator does not depend on its place. -/
theorem infixToken_iff (hf : KeepsText f) (t : Token) :
    InfixToken arities (f t) ↔ InfixToken arities t := by
  rw [InfixToken, InfixToken, hf.kind, hf.lexeme]

/-- Whether a token is a prefix operator does not depend on its place. -/
theorem prefixToken_iff (hf : KeepsText f) (t : Token) :
    PrefixToken arities (f t) ↔ PrefixToken arities t := by
  rw [PrefixToken, PrefixToken, hf.kind, hf.lexeme]

/-- The constant of a token does not depend on its place. -/
theorem literal? (hf : KeepsText f) (t : Token) : (f t).literal? = t.literal? := by
  rw [Token.literal?, Token.literal?, hf.kind, hf.lexeme]

end KeepsText

namespace Expr

/-- The tree with every token `t` replaced by `f t`. -/
def relocate (f : Token → Token) : Expr → Expr
  | literal t value        => literal (f t) value
  | name t                 => name (f t)
  | group opener e closer  => group (f opener) (e.relocate f) (f closer)
  | unary op e             => unary (f op) (e.relocate f)
  | binary l op r          => binary (l.relocate f) (f op) (r.relocate f)
  | call c dollar a        => call (c.relocate f) (f dollar) (a.relocate f)

variable {f : Token → Token}

theorem relocate_id : relocate id = id := by
  funext e
  induction e with
  | literal t value | name t => rfl
  | group o e c ih => simp only [relocate, ih, id]
  | unary op e ih => simp only [relocate, ih, id]
  | binary l op r ihl ihr => simp only [relocate, ihl, ihr, id]
  | call c d a ihc iha => simp only [relocate, ihc, iha, id]

/-- The tokens of a moved tree are the moved tokens. -/
theorem tokens_relocate (e : Expr) : (e.relocate f).tokens = e.tokens.map f := by
  induction e with
  | literal t value | name t => rfl
  | group o e c ih => simp [relocate, tokens, ih]
  | unary op e ih => simp [relocate, tokens, ih]
  | binary l op r ihl ihr => simp [relocate, tokens, ihl, ihr]
  | call c d a ihc iha => simp [relocate, tokens, ihc, iha]

theorem token_relocate (e : Expr) : (e.relocate f).token = f e.token := by
  induction e with
  | group o e c ih => exact ih
  | _ => rfl

theorem first_relocate (e : Expr) : (e.relocate f).first = f e.first := by
  induction e with
  | binary l op r ihl => exact ihl
  | call c d a ihc => exact ihc
  | _ => rfl

theorem relocate_ne_name {e : Expr} (h : ∀ t, e ≠ .name t) (t : Token) :
    e.relocate f ≠ .name t := by
  cases e with
  | name u => exact absurd rfl (h u)
  | _ => nofun

theorem assignsName_relocate (hf : KeepsText f) (e : Expr) (op : Token) :
    (e.relocate f).assignsName (f op) = e.assignsName op := by
  cases e with
  | name t => rw [relocate, assignsName, assignsName, hf.kind]
  | _ => rfl

/-- A moved tree is nested as deeply. -/
theorem nesting_relocate (hf : KeepsText f) (e : Expr) : (e.relocate f).nesting = e.nesting := by
  induction e with
  | literal t value | name t => rfl
  | group o e c ih => simp only [relocate, nesting, ih]
  | unary op e ih => simp only [relocate, nesting, ih]
  | binary l op r ihl ihr =>
    simp only [relocate, nesting, assignsName_relocate hf, ihl, ihr]
  | call c d a ihc iha => simp only [relocate, nesting, ihc, iha]

/-- A moved tree is the longest reading exactly where the tree is. -/
theorem longest_relocate {arities : Arities} (hf : KeepsText f) (e : Expr) (next : Token) :
    (e.relocate f).Longest arities (f next) ↔ e.Longest arities next := by
  induction e generalizing next with
  | literal t value => rfl
  | name t => simp only [relocate, Longest, hf.kind, hf.lexeme]
  | group o e c ih => exact ih c
  | unary op e ih => exact ih next
  | binary l op r ihl ihr => simp only [relocate, Longest, ihl, ihr]
  | call c d a ihc iha => simp only [relocate, Longest, ihc, iha, hf.infixToken_iff]

end Expr

/-- A moved phrase is a phrase of the same category. -/
theorem Phrase.relocate {f : Token → Token} {arities : Arities} {k : Category} {e : Expr}
    (hf : KeepsText f) (h : Phrase arities k e) : Phrase arities k (e.relocate f) := by
  induction h with
  | assign ht hop _ ih => exact .assign (by rwa [hf.kind]) (by rwa [hf.kind]) ih
  | series _ ih => exact .series ih
  | joined _ hop has _ ihl ihr =>
    refine .joined ihl ((hf.infixToken_iff _).mpr hop) ?_ ihr
    rwa [Expr.assignsName_relocate hf]
  | operand _ ih => exact .operand ih
  | prefixed hop _ ih => exact .prefixed ((hf.prefixToken_iff _).mpr hop) ih
  | application _ ih => exact .application ih
  | call _ hd _ ihc iha => exact .call ihc (by rwa [hf.kind]) iha
  | primary _ ih => exact .primary ih
  | literal hv => exact .literal (by rwa [hf.literal?])
  | name ht => exact .name (by rwa [hf.kind])
  | group ho _ hc ih => exact .group (by rwa [hf.kind]) ih (by rwa [hf.kind])

/-! ### Standing before another token -/

namespace Expr

/-- The rightmost token of the tree. -/
def last : Expr → Token
  | literal t _      => t
  | name t           => t
  | group _ _ closer => closer
  | unary _ e        => e.last
  | binary _ _ r     => r.last
  | call _ _ a       => a.last

theorem getLast?_tokens (e : Expr) : e.tokens.getLast? = some e.last := by
  induction e with
  | literal t value | name t => rfl
  | group o e c ih => simp [tokens, last, List.getLast?_cons]
  | unary op e ih => simp [tokens, last, List.getLast?_cons, ih]
  | binary l op r ihl ihr => simp [tokens, last, List.getLast?_cons, ihr]
  | call c d a ihc iha => simp [tokens, last, List.getLast?_cons, iha]

end Expr

/-- Reading on from a name bound to a unary operator that stands last is all that the token after a
phrase can change, unless that token is an infix operator. -/
theorem Phrase.longest_before {arities : Arities} {k : Category} {e : Expr} {next next' : Token}
    (h : Phrase arities k e) (hi : ¬ InfixToken arities next')
    (hlast : e.last.kind = .identifier → arities e.last.lexeme = some .unary →
      startsOperand next'.kind = false)
    (hl : e.Longest arities next) : e.Longest arities next' := by
  induction h with
  | assign _ _ _ ih => exact ⟨hl.1, ih hlast hl.2⟩
  | series _ ih => exact ih hlast hl
  | joined _ _ _ _ _ ihr => exact ⟨hl.1, ihr hlast hl.2⟩
  | operand _ ih => exact ih hlast hl
  | prefixed _ _ ih => exact ih hlast hl
  | application _ ih => exact ih hlast hl
  | call _ _ _ _ iha => exact ⟨hl.1, iha hlast hl.2.1, hi⟩
  | primary _ ih => exact ih hlast hl
  | literal => trivial
  | name ht => exact hlast ht
  | group => exact hl

/-! ### Forests -/

section Forests

variable {f : Token → Token} {arities : Arities} {stop stop' : Token} {es fs : List Expr}

/-- The first token of moved trees is the moved first token. -/
theorem firstOf_relocate (es : List Expr) (stop : Token) :
    firstOf (es.map (Expr.relocate f)) (f stop) = f (firstOf es stop) := by
  cases es with
  | nil => rfl
  | cons e es => exact e.first_relocate

theorem LongestForest.relocate (hf : KeepsText f) (h : LongestForest arities stop es) :
    LongestForest arities (f stop) (es.map (Expr.relocate f)) := by
  induction es with
  | nil => trivial
  | cons e es ih =>
    obtain ⟨hl, hi, hes⟩ := h
    rw [List.map_cons, LongestForest, firstOf_relocate, Expr.longest_relocate hf,
      hf.infixToken_iff]
    exact ⟨hl, hi, ih hes⟩

/-- Moved trees are what moved tokens are read as. -/
theorem IsForest.relocate (hf : KeepsText f) (h : IsForest arities stop es) :
    IsForest arities (f stop) (es.map (Expr.relocate f)) := by
  refine ⟨?_, ?_, h.longest.relocate hf⟩
  · simpa using fun e he => (h.phrases e he).relocate hf
  · simpa [Expr.nesting_relocate hf] using h.nesting

/-- The first token of two forests is that of the first one, unless it is empty. -/
theorem firstOf_append (es fs : List Expr) (stop : Token) :
    firstOf (es ++ fs) stop = firstOf es (firstOf fs stop) := by
  cases es <;> rfl

/-- Forests may be put one after the other if the first is cut where the second begins. -/
theorem LongestForest.append (hes : LongestForest arities (firstOf fs stop) es)
    (hfs : LongestForest arities stop fs) : LongestForest arities stop (es ++ fs) := by
  induction es with
  | nil => exact hfs
  | cons e es ih =>
    obtain ⟨hl, hi, hes⟩ := hes
    rw [List.cons_append, LongestForest, firstOf_append]
    exact ⟨hl, hi, ih hes⟩

theorem getLast?_forestTokens (es : List Expr) :
    (es.flatMap Expr.tokens).getLast? = es.getLast?.map Expr.last := by
  induction es with
  | nil => rfl
  | cons e es ih =>
    rw [List.flatMap_cons, List.getLast?_append, ih, e.getLast?_tokens, List.getLast?_cons]
    cases es.getLast? <;> rfl

/-- Only the last tree of a forest stands before what ends the forest. -/
theorem LongestForest.before (hp : ∀ e ∈ es, Phrase arities (.expression true) e)
    (hi : ¬ InfixToken arities stop')
    (hlast : ∀ t ∈ (es.flatMap Expr.tokens).getLast?, t.kind = .identifier →
      arities t.lexeme = some .unary → startsOperand stop'.kind = false)
    (h : LongestForest arities stop es) : LongestForest arities stop' es := by
  induction es with
  | nil => trivial
  | cons e es ih =>
    obtain ⟨hl, hnext, hes⟩ := h
    rw [getLast?_forestTokens, List.getLast?_cons] at hlast
    cases es with
    | nil =>
      have hl' := (hp e (.head _)).longest_before hi (hlast e.last rfl) hl
      exact ⟨hl', hi, trivial⟩
    | cons d ds =>
      refine ⟨hl, hnext, ih (fun x hx => hp x (.tail _ hx)) ?_ hes⟩
      rw [getLast?_forestTokens]
      simpa [List.getLast?_cons] using hlast

/-- Two forests, the second one behind the first, are one forest. -/
theorem IsForest.append (h : IsForest arities stop es) (h' : IsForest arities stop' fs)
    (hi : ¬ InfixToken arities (firstOf fs stop'))
    (hlast : ∀ t ∈ (es.flatMap Expr.tokens).getLast?, t.kind = .identifier →
      arities t.lexeme = some .unary → startsOperand (firstOf fs stop').kind = false) :
    IsForest arities stop' (es ++ fs) := by
  refine ⟨?_, ?_, (h.longest.before h.phrases hi hlast).append h'.longest⟩
  · exact fun e he => (List.mem_append.mp he).elim (h.phrases e) (h'.phrases e)
  · exact fun e he => (List.mem_append.mp he).elim (h.nesting e) (h'.nesting e)

end Forests

end ListCalc
