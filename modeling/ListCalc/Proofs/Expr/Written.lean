import ListCalc.Proofs.Decimal.Digits
import ListCalc.Proofs.Session.Run
import ListCalc.Proofs.Token.Literals
import ListCalc.Proofs.Token.Rescan
import Mathlib.Data.List.Forall2

/-!
# Proofs — the written form of a tree

A tree in its written form can be read in one way only, although nothing in it is escaped:
`written_determines_form` says that two trees of sources have the same text exactly if they are of
one form (`Expr.SameForm`).  They need not be the same tree, for the text shows neither which
brackets a group had nor whether a number was written with a point.

A written leaf is a quoted text, or it has no blank, bracket or quote in it, so it ends where one of
these comes (`Expr.Lexical.leaf`); and its characters tell its sort (`sortOf`).  Everything else is
an operator and one or two parts in parentheses (`Expr.toList_written`).  So what stands at the head
of a text and is followed by a blank or a closing parenthesis is determined, by induction on the
parts (`Expr.Lexical.cutsOff`).
-/

namespace ListCalc

variable {arities : Arities}

/-! ### Trees of one form -/

/-- What a leaf of a tree can be. -/
inductive LeafSort where
  | name | text | boolean | null | number
deriving DecidableEq

/-- The sort of leaf that a literal is. -/
def Literal.leafSort : Literal → LeafSort
  | integer _ => .number
  | decimal _ => .number
  | text _    => .text
  | boolean _ => .boolean
  | null      => .null

namespace Expr

/-- The sort of leaf that a tree is, if it is one. -/
def leafSort? : Expr → Option LeafSort
  | literal _ value => some value.leafSort
  | name _          => some .name
  | _               => none

/-- The trees have the same shape, with the same operators, and leaves of the same sort that are
written alike. -/
inductive SameForm : Expr → Expr → Prop where
  | leaf {e e' : Expr} {sort : LeafSort} : e.leafSort? = some sort → e'.leafSort? = some sort →
      e.written = e'.written → SameForm e e'
  | group {opener opener' closer closer' : Token} {e e' : Expr} : SameForm e e' →
      SameForm (.group opener e closer) (.group opener' e' closer')
  | unary {op op' : Token} {e e' : Expr} : op.lexeme = op'.lexeme → SameForm e e' →
      SameForm (.unary op e) (.unary op' e')
  | binary {l l' r r' : Expr} {op op' : Token} : op.lexeme = op'.lexeme → SameForm l l' →
      SameForm r r' → SameForm (.binary l op r) (.binary l' op' r')
  | call {f f' a a' : Expr} {dollar dollar' : Token} : SameForm f f' → SameForm a a' →
      SameForm (.call f dollar a) (.call f' dollar' a')

/-- Trees of one form are written alike. -/
theorem SameForm.written_eq {e e' : Expr} (h : SameForm e e') : e.written = e'.written := by
  induction h with
  | leaf _ _ heq => exact heq
  | group _ ih => rw [written, written, ih]
  | unary hop _ ih => rw [written, written, hop, ih]
  | binary hop _ _ ihl ihr => rw [written, written, hop, ihl, ihr]
  | call _ _ ihf iha => rw [written, written, ihf, iha]

/-! ### Operator and parts -/

/-- What stands behind the parenthesis that a written tree begins with. -/
def operator? : Expr → Option String
  | group _ _ _   => some "group"
  | unary op _    => some op.lexeme
  | binary _ op _ => some op.lexeme
  | call _ _ _    => some "$"
  | _             => none

/-- The trees right below the root. -/
def parts : Expr → List Expr
  | group _ e _  => [e]
  | unary _ e    => [e]
  | binary l _ r => [l, r]
  | call f _ a   => [f, a]
  | _            => []

/-- A tree is a leaf, or an operator with parts. -/
theorem leaf_or_operator (e : Expr) :
    (∃ sort, e.leafSort? = some sort) ∨ ∃ op, e.operator? = some op ∧ e.parts ≠ [] := by
  cases e with
  | literal t value => exact .inl ⟨_, rfl⟩
  | name t => exact .inl ⟨_, rfl⟩
  | group | unary | binary | call => exact .inr ⟨_, rfl, by simp [parts]⟩

/-- The parts of a tree, each written with a blank before it. -/
def writtenParts (es : List Expr) : List Char := es.flatMap fun e => ' ' :: e.written.toList

/-- An operator is written before its parts, between parentheses. -/
theorem toList_written {e : Expr} {op : String} (h : e.operator? = some op) :
    e.written.toList = '(' :: (op.toList ++ writtenParts e.parts ++ [')']) := by
  cases e with
  | literal | name => cases h
  | group o e c => cases h; simp [written, parts, writtenParts]
  | unary op e => cases h; simp [written, parts, writtenParts]
  | binary l op r => cases h; simp [written, parts, writtenParts]
  | call f d a => cases h; simp [written, parts, writtenParts]

/-- Induction on trees by their parts. -/
theorem parts_induction {P : Expr → Prop} (step : ∀ e : Expr, (∀ p ∈ e.parts, P p) → P e)
    (e : Expr) : P e := by
  induction e with
  | literal | name => exact step _ nofun
  | group o e c ih => exact step _ (by simpa [parts] using ih)
  | unary op e ih => exact step _ (by simpa [parts] using ih)
  | binary l op r ihl ihr => exact step _ (by simpa [parts] using ⟨ihl, ihr⟩)
  | call f d a ihf iha => exact step _ (by simpa [parts] using ⟨ihf, iha⟩)

/-! ### Trees of scanned tokens -/

/-- The operators and leaves of the tree are what the grammar and the lexical classes allow. -/
def Lexical (arities : Arities) : Expr → Prop
  | literal t value => Spells t.kind t.lexeme.toList value
  | name t          => Lexeme .identifier t.lexeme.toList
  | group _ e _     => e.Lexical arities
  | unary op e      =>
    PrefixToken arities op ∧ Lexeme op.kind op.lexeme.toList ∧ e.Lexical arities
  | binary l op r   =>
    InfixToken arities op ∧ Lexeme op.kind op.lexeme.toList ∧ l.Lexical arities ∧
      r.Lexical arities
  | call f _ a      => f.Lexical arities ∧ a.Lexical arities

/-- The parts of a tree of scanned tokens are such trees. -/
theorem Lexical.parts {e : Expr} (h : e.Lexical arities) : ∀ p ∈ e.parts, p.Lexical arities := by
  cases e with
  | literal | name => exact nofun
  | group o e c => simpa [Expr.parts, Lexical] using h
  | unary op e => simpa [Expr.parts] using h.2.2
  | binary l op r => simpa [Expr.parts] using h.2.2
  | call f d a => simpa [Expr.parts, Lexical] using h

end Expr

/-- A phrase of scanned tokens is a tree of such. -/
theorem Phrase.lexical {k : Category} {e : Expr} (h : Phrase arities k e)
    (htokens : ∀ t ∈ e.tokens, Lexeme t.kind t.lexeme.toList) : e.Lexical arities := by
  induction h with
  | @assign _ target op e htarget hop _ ih =>
    have ht := htokens target (by simp [Expr.tokens])
    rw [htarget] at ht
    exact ⟨.inl (by rw [hop]; rfl), htokens op (by simp [Expr.tokens]), ht,
      ih fun t h => htokens t (by simp [Expr.tokens, h])⟩
  | series _ ih | operand _ ih | application _ ih | primary _ ih => exact ih htokens
  | @joined _ left right op _ hop _ _ ihl ihr =>
    exact ⟨hop, htokens op (by simp [Expr.tokens]),
      ihl fun t h => htokens t (by simp [Expr.tokens, h]),
      ihr fun t h => htokens t (by simp [Expr.tokens, h])⟩
  | @prefixed _ op e hop _ ih =>
    exact ⟨hop, htokens op (by simp [Expr.tokens]),
      ih fun t h => htokens t (by simp [Expr.tokens, h])⟩
  | call _ _ _ ihf iha =>
    exact ⟨ihf fun t h => htokens t (by simp [Expr.tokens, h]),
      iha fun t h => htokens t (by simp [Expr.tokens, h])⟩
  | @literal t value hvalue =>
    have hliteral : t.kind.isLiteral = true := by
      rcases Token.kind_of_literal? hvalue with h | h | h | h | h <;> rw [h] <;> rfl
    obtain ⟨value', hvalue', hspells⟩ :=
      (htokens t (by simp [Expr.tokens])).exists_spells hliteral rfl rfl
    cases hvalue.symm.trans hvalue'
    exact hspells
  | @name t hkind =>
    have ht := htokens t (by simp [Expr.tokens])
    rwa [hkind] at ht
  | group _ _ _ ih => exact ih fun t h => htokens t (by simp [Expr.tokens, h])

/-! ### Characters of numbers and words -/

/-- The character is none that ends or begins something in a written tree: the blank, the quote and
the parentheses come before it in the order of characters. -/
def IsPlain (c : Char) : Prop := 41 < c.toNat

instance : DecidablePred IsPlain := fun c => inferInstanceAs (Decidable (41 < c.toNat))

theorem isPlain_of_isDigit {c : Char} (h : c.isDigit = true) : IsPlain c := by
  have := toNat_of_isDigit h
  unfold IsPlain
  omega

theorem isPlain_of_isWordPart {c : Char} (h : isWordPart c = true) : IsPlain c := by
  simp only [isWordPart, Char.isAlphanum, Bool.or_eq_true, beq_iff_eq] at h
  rcases h with (h | h) | rfl
  · have := toNat_of_isAlpha h
    unfold IsPlain
    omega
  · exact isPlain_of_isDigit h
  · decide

theorem IsWord.isPlain {text : List Char} (h : IsWord text) : ∀ c ∈ text, IsPlain c := by
  cases text with
  | nil => exact nofun
  | cons c cs =>
    refine List.forall_mem_cons.mpr ⟨?_, fun d hd => isPlain_of_isWordPart (h.2 d hd)⟩
    exact isPlain_of_isWordPart (isWordPart_of_isWordStart h.1)

/-- A digit, and plain characters behind it. -/
def IsNumeral : List Char → Prop
  | []      => False
  | c :: cs => c.isDigit = true ∧ ∀ d ∈ cs, IsPlain d

theorem IsDigits.isNumeral {ds : List Char} (h : IsDigits ds) : IsNumeral ds := by
  cases ds with
  | nil => exact absurd rfl h.1
  | cons d ds => exact ⟨h.2 d (.head _), fun c hc => isPlain_of_isDigit (h.2 c (.tail _ hc))⟩

theorem IsNumeral.append {cs ds : List Char} (h : IsNumeral cs) (hds : ∀ d ∈ ds, IsPlain d) :
    IsNumeral (cs ++ ds) := by
  cases cs with
  | nil => exact h.elim
  | cons c cs => exact ⟨h.1, fun d hd => (List.mem_append.mp hd).elim (h.2 d) (hds d)⟩

/-- A number is written in digits. -/
theorem isDigits_digits (n : Nat) : IsDigits (digits n) := by
  rw [digits_eq_toDigits]
  exact ⟨Nat.toDigits_ne_nil, fun d hd => Nat.isDigit_of_mem_toDigits (by decide) (by decide) hd⟩

theorem isPlain_of_mem_digits {n : Nat} {c : Char} (h : c ∈ digits n) : IsPlain c :=
  isPlain_of_isDigit ((isDigits_digits n).2 c h)

namespace Decimal

variable {ds : List Char}

/-- The form with an exponent is a numeral. -/
theorem isNumeral_scientific (h : IsDigits ds) (exponent : Int) :
    IsNumeral (scientific ds exponent) := by
  have hpoint : IsPlain '.' := by decide
  have hletter : IsPlain 'E' := by decide
  have hsign : IsPlain (if exponent < 0 then '-' else '+') := by split <;> decide
  unfold scientific
  dsimp only
  refine IsNumeral.append ?_ ?_
  · split
    · rename_i d e rest
      refine ⟨h.2 d (.head _), List.forall_mem_cons.mpr ⟨hpoint, fun c hc => ?_⟩⟩
      exact isPlain_of_isDigit (h.2 c (.tail _ hc))
    · exact h.isNumeral
  · simpa using ⟨hletter, hsign, fun c hc => isPlain_of_mem_digits hc⟩

/-- The form with a point is a numeral. -/
theorem isNumeral_withPoint (h : IsDigits ds) (places : Nat) : IsNumeral (withPoint ds places) := by
  have hpoint : IsPlain '.' := by decide
  have hplain : ∀ c ∈ ds, IsPlain c := fun c hc => isPlain_of_isDigit (h.2 c hc)
  rw [withPoint]
  split
  · have htake : IsDigits (ds.take (ds.length - places)) := by
      refine ⟨?_, fun c hc => h.2 c (List.mem_of_mem_take hc)⟩
      rw [Ne, List.take_eq_nil_iff]
      rintro (hzero | hnil)
      · omega
      · exact h.1 hnil
    refine htake.isNumeral.append (List.forall_mem_cons.mpr ⟨hpoint, fun c hc => ?_⟩)
    exact hplain c (List.mem_of_mem_drop hc)
  · refine ⟨by decide, List.forall_mem_cons.mpr ⟨hpoint, fun c hc => ?_⟩⟩
    rcases List.mem_append.mp hc with hc | hc
    · rw [List.eq_of_mem_replicate hc]
      decide
    · exact hplain c hc

/-- Whatever the scale, a positive number is written as a numeral. -/
theorem isNumeral_unsignedText (h : IsDigits ds) (scale : Int) :
    IsNumeral (unsignedText ds scale) := by
  have hletter : IsPlain 'e' := by decide
  have hsign : IsPlain '+' := by decide
  rw [unsignedText]
  split
  · split
    · exact isNumeral_scientific h _
    · exact isNumeral_withPoint h _
  · split
    · refine h.isNumeral.append ?_
      simpa using ⟨hletter, hsign, fun c hc => isPlain_of_mem_digits hc⟩
    · refine h.isNumeral.append fun c hc => ?_
      rw [List.eq_of_mem_replicate hc]
      decide

/-- A decimal that is not negative is written as a numeral. -/
theorem isNumeral_text {d : Decimal} (h : 0 ≤ d.coeff) : IsNumeral d.text.toList := by
  rw [text]
  split
  · exact ⟨by decide, nofun⟩
  · dsimp only
    rw [if_neg (Int.not_lt.mpr h), String.toList_ofList]
    exact isNumeral_unsignedText (isDigits_digits _) _

end Decimal

theorem isNumeral_integerText (n : Nat) : IsNumeral (integerText n).toList := by
  rw [integerText, if_neg (Int.not_lt.mpr (Int.natCast_nonneg n)), String.toList_ofList]
  exact (isDigits_digits _).isNumeral

/-! ### Written leaves -/

/-- The sort of a leaf, by its written form. -/
def sortOf : List Char → LeafSort
  | []      => .name
  | c :: cs =>
    if c = '"' then .text
    else if c.isDigit then .number
    else
      match keywords.lookup (c :: cs) with
      | some .nullWord  => .null
      | some .trueWord  => .boolean
      | some .falseWord => .boolean
      | _               => .name

/-- A written leaf: something between quotes, or plain characters. -/
inductive LeafText : List Char → Prop where
  | quoted {body : List Char} : '"' ∉ body → LeafText ('"' :: body ++ ['"'])
  | plain {text : List Char} : text ≠ [] → (∀ c ∈ text, IsPlain c) → LeafText text

/-- A numeral is the text of a leaf, and of no other sort than numbers. -/
theorem leafText_of_isNumeral {text : List Char} (h : IsNumeral text) :
    LeafText text ∧ sortOf text = .number := by
  cases text with
  | nil => exact h.elim
  | cons c cs =>
    have hquote : c ≠ '"' := by
      rintro rfl
      exact absurd h.1 (by decide)
    refine ⟨.plain (List.cons_ne_nil _ _)
      (List.forall_mem_cons.mpr ⟨isPlain_of_isDigit h.1, h.2⟩), ?_⟩
    rw [sortOf, if_neg hquote, if_pos h.1]

/-- An identifier is the text of a leaf, and of no other sort than names. -/
theorem leafText_of_identifier {text : List Char} (h : Lexeme .identifier text) :
    LeafText text ∧ sortOf text = .name := by
  have hsymbols : ∀ s ∈ symbols, s.2 ≠ .identifier := by decide
  have hkeywords : ∀ s ∈ keywords, s.2 ≠ .identifier := by decide
  cases h with
  | symbol hs => exact absurd rfl (hsymbols _ hs)
  | keyword hk => exact absurd rfl (hkeywords _ hk)
  | identifier hword hk =>
    cases text with
    | nil => exact hword.elim
    | cons c cs =>
      have hquote : c ≠ '"' := by
        rintro rfl
        exact absurd hword.1 (by decide)
      have hlookup : keywords.lookup (c :: cs) = none := by
        refine List.lookup_eq_none_iff.mpr fun k hmem => bne_iff_ne.mpr fun heq => ?_
        exact hk k.2 (heq ▸ hmem)
      refine ⟨.plain (List.cons_ne_nil _ _) hword.isPlain, ?_⟩
      rw [sortOf, if_neg hquote, not_isDigit_of_isWordStart hword.1, if_neg Bool.false_ne_true,
        hlookup]

/-- What a literal is written as tells its sort. -/
theorem Spells.leafText {kind : TokenKind} {text : List Char} {value : Literal}
    (h : Spells kind text value) :
    LeafText value.written.toList ∧ sortOf value.written.toList = value.leafSort := by
  cases h with
  | whole => exact leafText_of_isNumeral (isNumeral_integerText _)
  | fraction => exact leafText_of_isNumeral (Decimal.isNumeral_text (Int.natCast_nonneg _))
  | text hbody => simpa [Literal.written, sortOf, Literal.leafSort] using LeafText.quoted hbody
  | yes | no | null =>
    exact ⟨.plain (by decide) (IsWord.isPlain (by decide)), by decide⟩

/-- The leaves are written as their sort is, and as no other. -/
theorem Expr.Lexical.leaf {e : Expr} {sort : LeafSort} (h : e.Lexical arities)
    (hsort : e.leafSort? = some sort) :
    LeafText e.written.toList ∧ sortOf e.written.toList = sort := by
  cases e with
  | name t =>
    cases hsort
    exact leafText_of_identifier h
  | literal t value =>
    cases hsort
    exact Spells.leafText h
  | group | unary | binary | call => cases hsort

/-! ### Written operators -/

/-- A text is a lexeme of one kind only. -/
theorem Lexeme.kind_unique {kind kind' : TokenKind} {text : List Char} (h : Lexeme kind text)
    (h' : Lexeme kind' text) : kind = kind' := by
  obtain ⟨c, cs, rfl⟩ := List.exists_cons_of_ne_nil h.ne_nil
  have hpiece := firstPiece_eq_token_iff.mpr (@Lexeme.longest _ _ [] h nofun)
  have hpiece' := firstPiece_eq_token_iff.mpr (@Lexeme.longest _ _ [] h' nofun)
  cases hpiece.symm.trans hpiece'
  rfl

theorem lexeme_group : Lexeme .identifier "group".toList :=
  .identifier (by decide) (by simp [keywords])

theorem lexeme_dollar : Lexeme .dollar "$".toList := .symbol (by decide)

section Operators

variable {op : Token}

/-- Only strings have blanks in them. -/
theorem Lexeme.ne_blank {kind : TokenKind} {text : List Char} (h : Lexeme kind text)
    (hkind : kind ≠ .string) : ∀ c ∈ text, c ≠ ' ' := by
  rcases h.string_or_isApart with ⟨hstring, -⟩ | hapart
  · exact absurd hstring hkind
  · rintro c hc rfl
    exact absurd (hapart _ hc).separator (by decide)

/-- A prefix operator is not called `group` where that name is no unary operator. -/
theorem PrefixToken.lexeme_ne_group (h : PrefixToken arities op)
    (hlexeme : Lexeme op.kind op.lexeme.toList) (hgroup : arities "group" ≠ some .unary) :
    op.lexeme ≠ "group" := by
  intro heq
  rw [heq] at hlexeme
  have hkind := hlexeme.kind_unique lexeme_group
  rcases h with h | h | ⟨-, harity⟩
  · cases h.symm.trans hkind
  · cases h.symm.trans hkind
  · exact hgroup (heq ▸ harity)

/-- A binary operator is not written as an application is. -/
theorem InfixToken.lexeme_ne_dollar (h : InfixToken arities op)
    (hlexeme : Lexeme op.kind op.lexeme.toList) : op.lexeme ≠ "$" := by
  intro heq
  rw [heq] at hlexeme
  exact h.ne_dollar (hlexeme.kind_unique lexeme_dollar)

end Operators

namespace Expr

/-- What stands behind the parenthesis ends before the first blank. -/
theorem Lexical.operator_ne_blank {e : Expr} {op : String} (h : e.Lexical arities)
    (hop : e.operator? = some op) : ∀ c ∈ op.toList, c ≠ ' ' := by
  cases e with
  | literal | name => cases hop
  | group =>
    cases hop
    exact lexeme_group.ne_blank (by decide)
  | call =>
    cases hop
    exact lexeme_dollar.ne_blank (by decide)
  | unary op e =>
    cases hop
    obtain ⟨htoken, hlexeme, -⟩ := h
    refine hlexeme.ne_blank fun hkind => ?_
    simp [PrefixToken, hkind] at htoken
  | binary l op r =>
    cases hop
    obtain ⟨htoken, hlexeme, -⟩ := h
    refine hlexeme.ne_blank fun hkind => ?_
    simp [InfixToken, hkind, BinaryOp.ofKind?] at htoken

/-- The operator and the number of parts tell what a tree is. -/
theorem SameForm.of_parts {e e' : Expr} {op : String} (hgroup : arities "group" ≠ some .unary)
    (h : e.Lexical arities) (h' : e'.Lexical arities) (hop : e.operator? = some op)
    (hop' : e'.operator? = some op) (hparts : List.Forall₂ SameForm e.parts e'.parts) :
    SameForm e e' := by
  cases e with
  | literal | name => cases hop
  | group o e c =>
    cases hop
    cases e' with
    | literal | name => cases hop'
    | group o' e' c' =>
      cases hparts with
      | cons he => exact .group he
    | unary op e' => exact absurd (Option.some.inj hop') (h'.1.lexeme_ne_group h'.2.1 hgroup)
    | binary | call => cases hparts with | cons _ hnil => cases hnil
  | unary op e =>
    cases hop
    cases e' with
    | literal | name => cases hop'
    | group => exact absurd (Option.some.inj hop').symm (h.1.lexeme_ne_group h.2.1 hgroup)
    | unary op' e' =>
      cases hparts with
      | cons he => exact .unary (Option.some.inj hop').symm he
    | binary | call => cases hparts with | cons _ hnil => cases hnil
  | binary l op r =>
    cases hop
    cases e' with
    | literal | name => cases hop'
    | group | unary => cases hparts with | cons _ hnil => cases hnil
    | binary l' op' r' =>
      obtain _ | ⟨hl, _ | ⟨hr, -⟩⟩ := hparts
      exact .binary (Option.some.inj hop').symm hl hr
    | call => exact absurd (Option.some.inj hop').symm (h.1.lexeme_ne_dollar h.2.1)
  | call f d a =>
    cases hop
    cases e' with
    | literal | name => cases hop'
    | group | unary => cases hparts with | cons _ hnil => cases hnil
    | binary l' op' r' => exact absurd (Option.some.inj hop') (h'.1.lexeme_ne_dollar h'.2.1)
    | call f' d' a' =>
      obtain _ | ⟨hf, _ | ⟨ha, -⟩⟩ := hparts
      exact .call hf ha

end Expr

/-! ### Cutting a written tree off -/

/-- What comes after a written tree: nothing, a blank or a closing parenthesis. -/
def Closes (rest : List Char) : Prop := ∀ c ∈ rest.head?, c = ' ' ∨ c = ')'

/-- A leaf does not go on after its end. -/
theorem Closes.not_isPlain {rest : List Char} (h : Closes rest) :
    ∀ c ∈ rest.head?, ¬ IsPlain c := by
  intro c hc
  rcases h c hc with rfl | rfl <;> decide

theorem closes_cons {c : Char} (h : c = ' ' ∨ c = ')') (rest : List Char) : Closes (c :: rest) := by
  rintro _ ⟨⟩
  exact h

/-- Two texts of one class, each up to the first character that is not in it, are the same. -/
theorem append_inj_of_class {p : Char → Prop} {xs ys rest rest' : List Char}
    (hxs : ∀ c ∈ xs, p c) (hys : ∀ c ∈ ys, p c) (hrest : ∀ c ∈ rest.head?, ¬ p c)
    (hrest' : ∀ c ∈ rest'.head?, ¬ p c) (h : xs ++ rest = ys ++ rest') :
    xs = ys ∧ rest = rest' := by
  induction xs generalizing ys with
  | nil =>
    cases ys with
    | nil => exact ⟨rfl, h⟩
    | cons y ys =>
      rw [List.nil_append] at h
      exact absurd (hys y (.head _)) (hrest y (by simp [h]))
  | cons x xs ih =>
    cases ys with
    | nil =>
      rw [List.nil_append] at h
      exact absurd (hxs x (.head _)) (hrest' x (by simp [← h]))
    | cons y ys =>
      obtain ⟨rfl, htail⟩ := List.cons.inj h
      obtain ⟨rfl, hr⟩ := ih (fun c hc => hxs c (.tail _ hc)) (fun c hc => hys c (.tail _ hc)) htail
      exact ⟨rfl, hr⟩

section Leaves

variable {text text' rest rest' : List Char}

/-- A leaf does not begin as an operator does. -/
theorem LeafText.exists_cons (h : LeafText text) : ∃ c cs, text = c :: cs ∧ c ≠ '(' := by
  cases h with
  | quoted => exact ⟨_, _, rfl, by decide⟩
  | plain hne hplain =>
    obtain ⟨c, cs, rfl⟩ := List.exists_cons_of_ne_nil hne
    refine ⟨c, cs, rfl, ?_⟩
    rintro rfl
    exact absurd (hplain _ (.head _)) (by decide)

/-- A leaf that is no text does not begin as a text does. -/
theorem append_ne_of_isPlain {body : List Char} (hne : text ≠ []) (hplain : ∀ c ∈ text, IsPlain c) :
    text ++ rest ≠ '"' :: body := by
  obtain ⟨c, cs, rfl⟩ := List.exists_cons_of_ne_nil hne
  rintro heq
  obtain ⟨rfl, -⟩ := List.cons.inj heq
  exact absurd (hplain _ (.head _)) (by decide)

/-- A quoted leaf ends with its second quote, a plain one where the plain characters end. -/
theorem LeafText.append_inj (h : LeafText text) (h' : LeafText text') (hrest : Closes rest)
    (hrest' : Closes rest') (heq : text ++ rest = text' ++ rest') :
    text = text' ∧ rest = rest' := by
  cases h with
  | @quoted body hbody =>
    cases h' with
    | @quoted body' hbody' =>
      have hquote (cs : List Char) : ∀ c ∈ ('"' :: cs).head?, ¬ c ≠ '"' := by simp
      simp only [List.cons_append, List.append_assoc, List.nil_append, List.cons.injEq,
        true_and] at heq
      obtain ⟨rfl, hcons⟩ := append_inj_of_class (fun c hc => ne_of_mem_of_not_mem hc hbody)
        (fun c hc => ne_of_mem_of_not_mem hc hbody') (hquote rest) (hquote rest') heq
      exact ⟨rfl, (List.cons.inj hcons).2⟩
    | plain hne hplain => exact absurd heq.symm (append_ne_of_isPlain hne hplain)
  | plain hne hplain =>
    cases h' with
    | quoted => exact absurd heq (append_ne_of_isPlain hne hplain)
    | plain hne' hplain' =>
      exact append_inj_of_class hplain hplain' hrest.not_isPlain hrest'.not_isPlain heq

end Leaves

namespace Expr

/-- Where a text begins with this tree, it begins with no other and goes on in one way. -/
def CutsOff (arities : Arities) (e : Expr) : Prop :=
  ∀ ⦃e' : Expr⦄ ⦃rest rest' : List Char⦄, e'.Lexical arities → Closes rest → Closes rest' →
    e.written.toList ++ rest = e'.written.toList ++ rest' → SameForm e e' ∧ rest = rest'

/-- What follows the parts up to the closing parenthesis. -/
theorem closes_writtenParts (es : List Expr) (rest : List Char) :
    Closes (writtenParts es ++ ')' :: rest) := by
  cases es with
  | nil => exact closes_cons (.inr rfl) _
  | cons e es => exact closes_cons (.inl rfl) _

/-- Written parts are cut off one by one. -/
theorem writtenParts_append_inj {es es' : List Expr} {rest rest' : List Char}
    (hes : ∀ e ∈ es, CutsOff arities e) (hes' : ∀ e ∈ es', e.Lexical arities)
    (h : writtenParts es ++ ')' :: rest = writtenParts es' ++ ')' :: rest') :
    List.Forall₂ SameForm es es' ∧ rest = rest' := by
  induction es generalizing es' with
  | nil =>
    cases es' with
    | nil => exact ⟨.nil, (List.cons.inj h).2⟩
    | cons e' es' => exact absurd (List.cons.inj h).1 (by decide)
  | cons e es ih =>
    cases es' with
    | nil => exact absurd (List.cons.inj h).1 (by decide)
    | cons e' es' =>
      obtain ⟨he, hes⟩ := List.forall_mem_cons.mp hes
      obtain ⟨he', hes'⟩ := List.forall_mem_cons.mp hes'
      simp only [writtenParts, List.flatMap_cons, List.cons_append, List.append_assoc,
        List.cons.injEq, true_and] at h
      obtain ⟨hform, htail⟩ :=
        he he' (closes_writtenParts es rest) (closes_writtenParts es' rest') h
      obtain ⟨hforms, hrest⟩ := ih hes hes' htail
      exact ⟨.cons hform hforms, hrest⟩

/-- A leaf and a tree with an operator begin with different characters. -/
theorem Lexical.leaf_append_ne {e e' : Expr} {sort : LeafSort} {op : String}
    {rest rest' : List Char} (h : e.Lexical arities) (hsort : e.leafSort? = some sort)
    (hop : e'.operator? = some op) : e.written.toList ++ rest ≠ e'.written.toList ++ rest' := by
  obtain ⟨c, cs, hcs, hc⟩ := (h.leaf hsort).1.exists_cons
  rw [hcs, toList_written hop]
  exact fun heq => hc (List.cons.inj heq).1

/-- The head of a text can be read as a written tree in one way only. -/
theorem Lexical.cutsOff (hgroup : arities "group" ≠ some .unary) (e : Expr)
    (h : e.Lexical arities) : CutsOff arities e := by
  induction e using parts_induction with
  | step e ih =>
    intro e' rest rest' h' hrest hrest' heq
    rcases e.leaf_or_operator with ⟨sort, hsort⟩ | ⟨op, hop, hparts⟩ <;>
      rcases e'.leaf_or_operator with ⟨sort', hsort'⟩ | ⟨op', hop', hparts'⟩
    · obtain ⟨htext, rfl⟩ := h.leaf hsort
      obtain ⟨htext', rfl⟩ := h'.leaf hsort'
      obtain ⟨hwritten, hr⟩ := htext.append_inj htext' hrest hrest' heq
      rw [← hwritten] at hsort'
      exact ⟨.leaf hsort hsort' (String.toList_inj.mp hwritten), hr⟩
    · exact absurd heq (h.leaf_append_ne hsort hop')
    · exact absurd heq.symm (h'.leaf_append_ne hsort' hop)
    · -- the operators end at the blank before the first part, and then the parts are cut off
      have hblank {es : List Expr} (hne : es ≠ []) (tail : List Char) :
          ∀ c ∈ (writtenParts es ++ tail).head?, ¬ c ≠ ' ' := by
        obtain ⟨p, ps, rfl⟩ := List.exists_cons_of_ne_nil hne
        rintro _ ⟨⟩
        exact not_not_intro rfl
      rw [toList_written hop, toList_written hop'] at heq
      simp only [List.cons_append, List.append_assoc, List.cons.injEq, true_and,
        List.nil_append] at heq
      obtain ⟨hsame, htail⟩ := append_inj_of_class (h.operator_ne_blank hop)
        (h'.operator_ne_blank hop') (hblank hparts _) (hblank hparts' _) heq
      cases String.toList_inj.mp hsame
      obtain ⟨hforms, hr⟩ :=
        writtenParts_append_inj (fun p hp => ih p hp (h.parts p hp)) h'.parts htail
      exact ⟨.of_parts hgroup h h' hop hop' hforms, hr⟩

end Expr

/-! ### Trees of a source -/

/-- The trees of a source are made of scanned tokens. -/
theorem lexical_of_parse {source : String} {forest : List Expr}
    (h : Expr.parse arities (scan source).tokens = .ok forest) :
    ∀ e ∈ forest, e.Lexical arities := by
  refine fun e he => (phrase_of_parse h e he).lexical fun t ht => ?_
  obtain ⟨hmem, hkind⟩ := mem_scan_of_mem_forest h (List.mem_flatMap_of_mem he ht)
  exact lexeme_of_scan hmem hkind

/-- **The written form determines the form.**  Where `group` is not bound as a prefix operator, two
trees of sources are written alike exactly if they have the same shape, the same operators, and
leaves of the same sorts that are written alike. -/
theorem written_determines_form (hgroup : arities "group" ≠ some .unary) {source source' : String}
    {forest forest' : List Expr} (h : Expr.parse arities (scan source).tokens = .ok forest)
    (h' : Expr.parse arities (scan source').tokens = .ok forest') {e e' : Expr} (he : e ∈ forest)
    (he' : e' ∈ forest') : e.written = e'.written ↔ e.SameForm e' := by
  refine ⟨fun heq => ?_, Expr.SameForm.written_eq⟩
  have hnil : Closes [] := nofun
  have hcut := (lexical_of_parse h e he).cutsOff hgroup
  exact (hcut (lexical_of_parse h' e' he') hnil hnil (by rw [heq])).1

/-- The same tree twice, with different brackets and a string that looks like two groups. -/
theorem written_determines_form_brackets :
    Env.initial.arity? "group" ≠ some .unary ∧ ∃ e e' : Expr,
      Expr.parse Env.initial.arity? (scan "size [\"a) (b\" - -02.5]").tokens = .ok [e] ∧
      Expr.parse Env.initial.arity? (scan "size(\"a) (b\"- -2.5)").tokens = .ok [e'] ∧
      e.written = "(size (group (- \"a) (b\" (- 2.5))))" ∧ e.SameForm e' := by
  have htokens : (scan "size [\"a) (b\" - -02.5]").tokens =
      [⟨.identifier, "size", 0, 1⟩, ⟨.leftBracket, "[", 5, 1⟩, ⟨.string, "\"a) (b\"", 6, 1⟩,
        ⟨.minus, "-", 14, 1⟩, ⟨.minus, "-", 16, 1⟩, ⟨.number, "02.5", 17, 1⟩,
        ⟨.rightBracket, "]", 21, 1⟩, ⟨.endOfInput, "", 22, 1⟩] := by decide +kernel
  have htokens' : (scan "size(\"a) (b\"- -2.5)").tokens =
      [⟨.identifier, "size", 0, 1⟩, ⟨.leftParen, "(", 4, 1⟩, ⟨.string, "\"a) (b\"", 5, 1⟩,
        ⟨.minus, "-", 12, 1⟩, ⟨.minus, "-", 14, 1⟩, ⟨.number, "2.5", 15, 1⟩,
        ⟨.rightParen, ")", 18, 1⟩, ⟨.endOfInput, "", 19, 1⟩] := by decide +kernel
  obtain ⟨e, h, htext⟩ : ∃ e,
      Expr.parse Env.initial.arity? (scan "size [\"a) (b\" - -02.5]").tokens = .ok [e] ∧
        e.written = "(size (group (- \"a) (b\" (- 2.5))))" := by
    rw [htokens]
    exact ⟨_, rfl, by decide +kernel⟩
  obtain ⟨e', h', htext'⟩ : ∃ e',
      Expr.parse Env.initial.arity? (scan "size(\"a) (b\"- -2.5)").tokens = .ok [e'] ∧
        e'.written = "(size (group (- \"a) (b\" (- 2.5))))" := by
    rw [htokens']
    exact ⟨_, rfl, by decide +kernel⟩
  have hgroup : Env.initial.arity? "group" ≠ some .unary := by decide +kernel
  have hiff := written_determines_form hgroup h h' (.head _) (.head _)
  exact ⟨hgroup, e, e', h, h', htext, hiff.mp (htext.trans htext'.symm)⟩

end ListCalc
