import ListCalc.Text.Blank
import ListCalc.Token.Basic

/-!
# Token — cutting the source

`pieces` cuts a source into consecutive pieces: tokens, separators (a blank or a comma), comments,
and the two sorts of text that belong to no token, an unexpected character and a string that is
never closed.  No piece is empty and together they are the source (`pieces_flatten`), so every
place in it is determined by the pieces before.

The fixed tokens stand in the table `symbols`, the reserved words in `keywords`; a number is digits
with an optional point and more digits, a word an ASCII letter or underscore with more of them or
digits.
-/

namespace ListCalc

/-- A stretch of the source, with what it is. -/
inductive Piece where
  | separator (c : Char)
  | comment (text : List Char)
  | token (kind : TokenKind) (text : List Char)
  | unexpected (c : Char)
  | unterminated (text : List Char)
deriving DecidableEq

/-- The source text that a piece covers. -/
def Piece.text : Piece → List Char
  | separator c       => [c]
  | comment text      => text
  | token _ text      => text
  | unexpected c      => [c]
  | unterminated text => text

/-! ### Lexical classes -/

/-- The fixed tokens; a token of two characters stands before the one it begins with. -/
def symbols : List (List Char × TokenKind) :=
  [([':', '='], .colonEqual), (['>', '='], .greaterEqual), (['<', '='], .lessEqual),
   (['<', '>'], .lessGreater), (['|', '|'], .pipePipe), (['&', '&'], .ampersandAmpersand),
   (['.', '.'], .dotDot),
   (['('], .leftParen), ([')'], .rightParen), (['['], .leftBracket), ([']'], .rightBracket),
   (['\x7b'], .leftBrace), (['\x7d'], .rightBrace), (['+'], .plus), (['-'], .minus),
   (['*'], .star), (['/'], .slash), (['%'], .percent), (['^'], .caret), (['='], .equal),
   (['<'], .less), (['>'], .greater), (['|'], .pipe), (['&'], .ampersand), (['~'], .tilde),
   ([';'], .semicolon), (['@'], .at), ([':'], .colon), (['$'], .dollar), (['.'], .dot)]

/-- The reserved words. -/
def keywords : List (List Char × TokenKind) :=
  [(['f', 'a', 'l', 's', 'e'], .falseWord), (['t', 'r', 'u', 'e'], .trueWord),
   (['n', 'u', 'l', 'l'], .nullWord), (['t', 'h', 'i', 's'], .thisWord),
   (['l', 'e', 'f', 't'], .leftWord), (['r', 'i', 'g', 'h', 't'], .rightWord)]

/-- A word is its keyword if it is reserved and an identifier otherwise. -/
def wordKind (text : List Char) : TokenKind :=
  (keywords.lookup text).getD .identifier

/-- Whether a word can begin with the character. -/
def isWordStart (c : Char) : Bool := c.isAlpha || c == '_'

/-- Whether a word can go on with the character. -/
def isWordPart (c : Char) : Bool := c.isAlphanum || c == '_'

/-- A separator: a blank or a comma. -/
def isSeparator (c : Char) : Bool := c == ',' || isBlank c

/-! ### Cutting off one piece -/

/-- The number at the head of a text: digits, and a point only if digits follow it. -/
def numberText (cs : List Char) : List Char :=
  let whole := cs.takeWhile Char.isDigit
  match cs.dropWhile Char.isDigit with
  | '.' :: d :: rest =>
    if d.isDigit then whole ++ '.' :: d :: rest.takeWhile Char.isDigit else whole
  | _ => whole

/-- The first piece of the text that begins with `c` and goes on with `cs`. -/
def firstPiece (c : Char) (cs : List Char) : Piece :=
  if isSeparator c then .separator c
  else if c = '#' then .comment (c :: cs.takeWhile (· ≠ '\n'))
  else if c = '"' then
    let body := cs.takeWhile (· ≠ '"')
    if '"' ∈ cs then .token .string (c :: body ++ ['"']) else .unterminated (c :: cs)
  else if c.isDigit then .token .number (numberText (c :: cs))
  else if isWordStart c then
    let word := c :: cs.takeWhile isWordPart
    .token (wordKind word) word
  else
    match symbols.find? (·.1.isPrefixOf (c :: cs)) with
    | some (text, kind) => .token kind text
    | none              => .unexpected c

/-- What stands before the first `c` has no `c` in it. -/
theorem not_mem_takeWhile_ne (c : Char) (cs : List Char) : c ∉ cs.takeWhile (· ≠ c) :=
  fun hmem => by simpa using List.all_eq_true.mp List.all_takeWhile _ hmem

/-- A number stands at the head of the text. -/
theorem numberText_isPrefix (cs : List Char) : numberText cs <+: cs := by
  unfold numberText
  split
  · rename_i d rest h
    split
    · refine ⟨rest.dropWhile Char.isDigit, ?_⟩
      rw [List.append_assoc, List.cons_append, List.cons_append, List.takeWhile_append_dropWhile,
        ← h, List.takeWhile_append_dropWhile]
    · exact List.takeWhile_prefix _
  · exact List.takeWhile_prefix _

theorem numberText_cons_ne_nil {c : Char} {cs : List Char} (h : c.isDigit = true) :
    numberText (c :: cs) ≠ [] := by
  unfold numberText
  have h' : (c :: cs).takeWhile Char.isDigit ≠ [] := by simp [h]
  split
  · split
    · simp
    · exact h'
  · exact h'

theorem symbols_text_ne_nil {s : List Char × TokenKind} (h : s ∈ symbols) : s.1 ≠ [] := by
  simp only [symbols, List.mem_cons, List.not_mem_nil, or_false] at h
  rcases h with h | h | h | h | h | h | h | h | h | h | h | h | h | h | h | h | h | h | h | h |
    h | h | h | h | h | h | h | h | h | h <;> subst h <;> simp

/-- A quoted body and its closing quote are the head of what follows the opening quote. -/
theorem quoted_isPrefix {cs : List Char} (h : '"' ∈ cs) :
    cs.takeWhile (· ≠ '"') ++ ['"'] <+: cs := by
  induction cs with
  | nil => cases h
  | cons c cs ih =>
    by_cases hc : c = '"'
    · subst hc
      exact ⟨cs, by simp⟩
    · have h' : '"' ∈ cs := by simpa [Ne.symm hc] using h
      obtain ⟨rest, hr⟩ := ih h'
      exact ⟨rest, by simpa [hc] using hr⟩

/-- The first piece stands at the head of the text. -/
theorem firstPiece_isPrefix (c : Char) (cs : List Char) : (firstPiece c cs).text <+: c :: cs := by
  unfold firstPiece
  have hword := fun p => (List.prefix_cons_inj c).2 (List.takeWhile_prefix (l := cs) p)
  split
  · exact ⟨cs, rfl⟩
  split
  · exact hword _
  split
  · dsimp only
    split
    · rename_i h
      simpa [Piece.text] using (List.prefix_cons_inj c).2 (quoted_isPrefix h)
    · exact List.prefix_refl _
  split
  · exact numberText_isPrefix _
  split
  · exact hword _
  split
  · rename_i text kind h
    have hp := List.find?_some h
    exact List.isPrefixOf_iff_prefix.1 hp
  · exact ⟨cs, rfl⟩

/-- No piece is empty. -/
theorem firstPiece_text_ne_nil (c : Char) (cs : List Char) : (firstPiece c cs).text ≠ [] := by
  unfold firstPiece
  split
  · simp [Piece.text]
  split
  · simp [Piece.text]
  split
  · dsimp only; split <;> simp [Piece.text]
  split
  · rename_i h; exact numberText_cons_ne_nil h
  split
  · simp [Piece.text]
  split
  · rename_i text kind h
    exact symbols_text_ne_nil (List.mem_of_find?_eq_some h)
  · simp [Piece.text]

theorem firstPiece_length_pos (c : Char) (cs : List Char) : 0 < (firstPiece c cs).text.length :=
  List.length_pos_iff.2 (firstPiece_text_ne_nil c cs)

/-! ### Cutting the whole source -/

/-- The pieces of a source, one after the other. -/
def pieces : List Char → List Piece
  | []      => []
  | c :: cs =>
    let piece := firstPiece c cs
    piece :: pieces ((c :: cs).drop piece.text.length)
termination_by cs => cs.length
decreasing_by
  have := firstPiece_length_pos c cs
  simp only [List.length_drop, List.length_cons]
  omega

/-- The pieces of a source are the source. -/
theorem pieces_flatten (cs : List Char) : ((pieces cs).map Piece.text).flatten = cs := by
  fun_induction pieces cs with
  | case1 => rfl
  | case2 c cs piece ih =>
    obtain ⟨rest, hrest⟩ := firstPiece_isPrefix c cs
    have hdrop : (c :: cs).drop piece.text.length = rest := by
      rw [← hrest]; exact List.drop_left
    rw [List.map_cons, List.flatten_cons, ih, hdrop]
    exact hrest

end ListCalc
