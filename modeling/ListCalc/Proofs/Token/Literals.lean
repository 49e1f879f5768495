import ListCalc.Proofs.Expr.Parse
import ListCalc.Proofs.Token.Munch
import Mathlib.Data.Nat.Digits.Defs
import Mathlib.Tactic.Ring

/-!
# Proofs — what literals stand for

`Spells kind text value` says which constant a text stands for: digits for their value in base ten,
digits with a point for all of them at the scale that the point gives, a string for what is between
its quotes.  Every lexeme of a literal kind spells a constant, and it is the one that
`Token.literal?` reads (`Lexeme.exists_spells`).  So the parser never meets a literal without a
value (`parse_fault_ne_invalidLiteral`).

`scan_maximal_munch` puts this beside the reading of a source by longest lexemes.
-/

namespace ListCalc

open Place (byteSize)

/-! ### Constants -/

/-- The value of digits in base ten. -/
def baseTen (ds : List Char) : Nat :=
  Nat.ofDigits 10 (ds.reverse.map fun d => d.toNat - '0'.toNat)

/-- The constant that a text of a literal kind stands for. -/
inductive Spells : TokenKind → List Char → Literal → Prop where
  | whole {ds : List Char} : IsDigits ds → Spells .number ds (.integer (baseTen ds))
  | fraction {ds fs : List Char} : IsDigits ds → IsDigits fs →
      Spells .number (ds ++ '.' :: fs) (.decimal ⟨baseTen (ds ++ fs), fs.length⟩)
  | text {body : List Char} : '"' ∉ body →
      Spells .string ('"' :: body ++ ['"']) (.text (String.ofList body))
  | yes : Spells .trueWord ['t', 'r', 'u', 'e'] (.boolean true)
  | no : Spells .falseWord ['f', 'a', 'l', 's', 'e'] (.boolean false)
  | null : Spells .nullWord ['n', 'u', 'l', 'l'] .null

/-! ### Reading digits -/

theorem ofDigitChars_eq (ds : List Char) (n : Nat) :
    Nat.ofDigitChars 10 ds n = n * 10 ^ ds.length + baseTen ds := by
  induction ds generalizing n with
  | nil => simp [Nat.ofDigitChars, baseTen]
  | cons d ds ih =>
    rw [Nat.ofDigitChars_cons, ih]
    simp only [baseTen, List.reverse_cons, List.map_append, List.map_cons, List.map_nil,
      Nat.ofDigits_append, List.length_map, List.length_reverse, Nat.ofDigits_singleton,
      List.length_cons, Nat.pow_succ]
    ring

/-- Digits are read as the number that they are to the base ten. -/
theorem natOfDigits?_eq {ds : List Char} (h : IsDigits ds) :
    natOfDigits? ds = some (baseTen ds) := by
  have hall : ds.all Char.isDigit = true := List.all_eq_true.mpr h.2
  rw [natOfDigits?, if_pos ⟨h.1, hall⟩, ofDigitChars_eq, Nat.zero_mul, Nat.zero_add]

theorem takeWhile_digits {ds : List Char} (h : IsDigits ds) : ds.takeWhile Char.isDigit = ds := by
  have htake := @List.takeWhile_append_of_pos _ _ ds [] h.2
  rwa [List.append_nil, List.takeWhile_nil, List.append_nil] at htake

theorem dropWhile_digits {ds : List Char} (h : IsDigits ds) : ds.dropWhile Char.isDigit = [] := by
  have hdrop := @List.dropWhile_append_of_pos _ _ ds [] h.2
  rwa [List.append_nil] at hdrop

/-- Digits with a point are read at the scale that the point gives. -/
theorem ofUnsignedText?_eq {ds fs : List Char} (hds : IsDigits ds) (hfs : IsDigits fs) :
    Decimal.ofUnsignedText? (ds ++ '.' :: fs) = some ⟨baseTen (ds ++ fs), fs.length⟩ := by
  have hpoint : Char.isDigit '.' = false := by decide
  have htake : (ds ++ '.' :: fs).takeWhile Char.isDigit = ds := by
    rw [List.takeWhile_append_of_pos hds.2, List.takeWhile_cons_of_neg (by simp [hpoint]),
      List.append_nil]
  have hdrop : (ds ++ '.' :: fs).dropWhile Char.isDigit = '.' :: fs := by
    rw [List.dropWhile_append_of_pos hds.2, List.dropWhile_cons_of_neg (by simp [hpoint])]
  have hjoined : IsDigits (ds ++ fs) :=
    ⟨by simp [hds.1], fun d hd => (List.mem_append.mp hd).elim (hds.2 d) (hfs.2 d)⟩
  rw [Decimal.ofUnsignedText?]
  simp only [htake, hdrop, takeWhile_digits hfs, dropWhile_digits hfs, hds.1, hfs.1,
    Decimal.exponentOfText?, natOfDigits?_eq hjoined]
  simp

/-! ### The constant of a lexeme -/

/-- Every lexeme of a literal kind spells the constant that is read from a token with its text. -/
theorem Lexeme.exists_spells {kind : TokenKind} {text : List Char} (h : Lexeme kind text)
    (hkind : kind.isLiteral = true) {t : Token} (ht : t.kind = kind)
    (htext : t.lexeme.toList = text) :
    ∃ value, t.literal? = some value ∧ Spells kind text value := by
  have hsymbols : ∀ s ∈ symbols, s.2.isLiteral = false := by decide
  cases h with
  | symbol hs => simp [hsymbols _ hs] at hkind
  | whole hds =>
    refine ⟨_, ?_, .whole hds⟩
    have hpoint : '.' ∉ text := fun hmem => absurd (hds.2 '.' hmem) (by decide)
    rw [Token.literal?, ht, htext]
    simp [Literal.ofDigits?, hpoint, natOfDigits?_eq hds]
  | fraction hds hfs =>
    refine ⟨_, ?_, .fraction hds hfs⟩
    rw [Token.literal?, ht, htext]
    simp [Literal.ofDigits?, ofUnsignedText?_eq hds hfs]
  | string hbody =>
    refine ⟨_, ?_, .text hbody⟩
    rw [Token.literal?, ht, htext]
    simp
  | keyword hk =>
    simp only [keywords, List.mem_cons, List.not_mem_nil, or_false, Prod.mk.injEq] at hk
    rcases hk with ⟨rfl, rfl⟩ | ⟨rfl, rfl⟩ | ⟨rfl, rfl⟩ | ⟨rfl, rfl⟩ | ⟨rfl, rfl⟩ | ⟨rfl, rfl⟩
    · exact ⟨_, by rw [Token.literal?, ht], .no⟩
    · exact ⟨_, by rw [Token.literal?, ht], .yes⟩
    · exact ⟨_, by rw [Token.literal?, ht], .null⟩
    all_goals cases hkind
  | identifier => cases hkind

/-- The literal tokens of a source stand for what their texts spell. -/
theorem exists_spells_of_scan {source : String} {t : Token} (ht : t ∈ (scan source).tokens)
    (hkind : t.kind.isLiteral = true) :
    ∃ value, t.literal? = some value ∧ Spells t.kind t.lexeme.toList value := by
  have hend : t.kind ≠ .endOfInput := by
    intro hend
    rw [hend] at hkind
    cases hkind
  obtain ⟨before, rest, -, -, hlongest⟩ := longestLexeme_of_scan ht hend
  exact hlongest.lexeme.exists_spells hkind rfl rfl

/-- The parser never meets a literal without a value. -/
theorem parse_fault_ne_invalidLiteral {arities : Arities} {source : String} {error : SyntaxError}
    (h : Expr.parse arities (scan source).tokens = .error error) :
    error.fault ≠ .invalidLiteral := by
  obtain ⟨before, t, behind, s, hscan, -, hstuck⟩ := parse_scan_eq_error h
  obtain ⟨fault, rfl, hvalue⟩ := hstuck.failsAt
  intro hfault
  obtain ⟨hkind, hnone⟩ := hvalue hfault
  have ht : t ∈ (scan source).tokens := by simp [hscan]
  obtain ⟨value, hsome, -⟩ := exists_spells_of_scan ht hkind
  cases hnone.symm.trans hsome

/-! ### The scan as a whole -/

/-- **Maximal munch, and what it gives.**  The items of a source are its one reading by longest
lexemes, which says where the two faults are.  Every token before the end is the longest lexeme at
its offset, and of that kind; every literal stands for what its text spells, and so no parse fails
for want of a value. -/
theorem scan_maximal_munch (source : String) :
    (∀ is, items source = is ↔ Munches .start source.toList is) ∧
    SyntaxFault.message .unexpectedCharacter = "Unexpected character." ∧
    SyntaxFault.message .unterminatedString = "Unterminated string." ∧
    (∀ t ∈ (scan source).tokens, t.kind ≠ .endOfInput → ∃ before rest,
      source.toList = before ++ rest ∧ t.offset = byteSize before ∧
        LongestLexeme t.kind t.lexeme.toList rest) ∧
    (∀ t ∈ (scan source).tokens, t.kind.isLiteral = true →
      ∃ value, t.literal? = some value ∧ Spells t.kind t.lexeme.toList value) ∧
    ∀ arities error, Expr.parse arities (scan source).tokens = .error error →
      error.fault ≠ .invalidLiteral :=
  ⟨items_eq_iff source, rfl, rfl, fun _ => longestLexeme_of_scan, fun _ => exists_spells_of_scan,
    fun _ _ => parse_fault_ne_invalidLiteral⟩

end ListCalc
