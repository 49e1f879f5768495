import ListCalc.Proofs.Token.Munch

/-!
# Proofs — the lexer, turn by turn

The items of a source are what an iterator gives.  A `Lexer` holds the rest of the source, the byte
and the line that it has come to, and whether the end of input has been given.  One `turn` takes a
character, decides by it how the piece goes on (`leading`), and moves each field as far as the piece
needs: most pieces move the byte only, a newline and a string the line as well.  `next` takes turns
until one gives an item.

* `turn_cons`: a turn cuts off the first piece of what is left and stands behind it, as if all
  fields had been advanced over the text of the piece (`beyond`).
* `left_of_turn`: every turn leaves less to do, so `next` and `collect` end.
* `collect_start`: the iterator gives the items of the source, and then ends.

That a character decides as the order of the lexical classes does is one case analysis
(`leads_leading`); no fixed token that begins with another character can be in the way
(`find_symbol`).
-/

namespace ListCalc

open Place (byteSize)

/-! ### The first character -/

/-- What the first character of a piece decides. -/
inductive Leading where
  /-- A token of one character. -/
  | single (kind : TokenKind)
  /-- A token of two characters if the next one is as given, otherwise of one. -/
  | double (next : Char) (both alone : TokenKind)
  /-- The one sign that begins two tokens of two characters. -/
  | less
  | comment
  | string
  | number
  | word
  /-- A separator that ends a line. -/
  | newline
  /-- Any other separator. -/
  | skipped
  /-- No piece begins so. -/
  | unexpected
deriving DecidableEq

/-- What the character decides where a piece begins with it. -/
def leading (c : Char) : Leading :=
  match c with
  | '(' => .single .leftParen
  | ')' => .single .rightParen
  | '[' => .single .leftBracket
  | ']' => .single .rightBracket
  | '\x7b' => .single .leftBrace
  | '\x7d' => .single .rightBrace
  | '-' => .single .minus
  | '+' => .single .plus
  | ';' => .single .semicolon
  | '*' => .single .star
  | '=' => .single .equal
  | '~' => .single .tilde
  | '^' => .single .caret
  | '%' => .single .percent
  | '@' => .single .at
  | '/' => .single .slash
  | '$' => .single .dollar
  | ':' => .double '=' .colonEqual .colon
  | '>' => .double '=' .greaterEqual .greater
  | '|' => .double '|' .pipePipe .pipe
  | '&' => .double '&' .ampersandAmpersand .ampersand
  | '.' => .double '.' .dotDot .dot
  | '<' => .less
  | '#' => .comment
  | '"' => .string
  | '\n' => .newline
  | ',' => .skipped
  | c =>
    if c.isDigit then .number
    else if isWordStart c then .word
    else if isBlank c then .skipped
    else .unexpected

/-- The length of a point and the digits after it, if the text begins so. -/
def fractionLength : List Char → Nat
  | '.' :: d :: ds =>
    if d.isDigit then 1 + ((d :: ds).takeWhile Char.isDigit).length else 0
  | _              => 0

/-- How many of the characters after its first digit belong to a number. -/
def numberRest (cs : List Char) : Nat :=
  let whole := (cs.takeWhile Char.isDigit).length
  whole + fractionLength (cs.drop whole)

/-! ### The lexer -/

/-- A lexer on its way through a source. -/
structure Lexer where
  /-- What is left of the source. -/
  rest : List Char
  /-- The bytes that are behind. -/
  byte : Nat
  /-- One more than the newlines that are behind. -/
  line : Nat
  /-- Whether the end of input has been given. -/
  finished : Bool
deriving DecidableEq

namespace Lexer

/-- The lexer before the first character. -/
def start (source : String) : Lexer := ⟨source.toList, 0, 1, false⟩

/-- The lexer behind the first character. -/
def past (l : Lexer) (c : Char) (cs : List Char) : Lexer :=
  { l with rest := cs, byte := l.byte + c.utf8Size }

/-- Moves past `n` more characters of the piece. -/
def bump (l : Lexer) (n : Nat) : Lexer :=
  { l with rest := l.rest.drop n, byte := l.byte + byteSize (l.rest.take n) }

/-- Counts the newlines in the next `n` characters. -/
def countLines (l : Lexer) (n : Nat) : Lexer :=
  { l with line := l.line + (l.rest.take n).count '\n' }

/-- The token of the first `n` characters. -/
def token (l : Lexer) (kind : TokenKind) (n : Nat) : Option Item :=
  some (.token ⟨kind, String.ofList (l.rest.take n), l.byte, l.line⟩)

/-- The fault in the next bytes. -/
def fault (l : Lexer) (length : Nat) (fault : SyntaxFault) : Option Item :=
  some (.fault (.inSource l.line ⟨l.byte, length⟩ fault))

/-- One turn of the loop: nothing at the very end, otherwise the lexer behind the piece, with the
item of the piece if it has one. -/
def turn (l : Lexer) : Option (Option Item × Lexer) :=
  match l.rest with
  | []      =>
    if l.finished then none else some (l.token .endOfInput 0, { l with finished := true })
  | c :: cs =>
    match leading c with
    | .single kind            => some (l.token kind 1, l.past c cs)
    | .double next both alone =>
      if cs.head? = some next then some (l.token both 2, (l.past c cs).bump 1)
      else some (l.token alone 1, l.past c cs)
    | .less                   =>
      if cs.head? = some '=' then some (l.token .lessEqual 2, (l.past c cs).bump 1)
      else if cs.head? = some '>' then some (l.token .lessGreater 2, (l.past c cs).bump 1)
      else some (l.token .less 1, l.past c cs)
    | .comment                =>
      let stop := (cs.takeWhile (· ≠ '\n')).length
      some (none, (l.past c cs).bump stop)
    | .string                 =>
      if '"' ∈ cs then
        let stop := (cs.takeWhile (· ≠ '"')).length
        some (l.token .string (stop + 2), ((l.past c cs).countLines stop).bump (stop + 1))
      else
        let stop := cs.length
        some (l.fault (byteSize (c :: cs)) .unterminatedString,
          ((l.past c cs).countLines stop).bump stop)
    | .number                 =>
      let stop := numberRest cs
      some (l.token .number (stop + 1), (l.past c cs).bump stop)
    | .word                   =>
      let stop := (cs.takeWhile isWordPart).length
      some (l.token (wordKind (c :: cs.take stop)) (stop + 1), (l.past c cs).bump stop)
    | .newline                => some (none, { l.past c cs with line := l.line + 1 })
    | .skipped                => some (none, l.past c cs)
    | .unexpected             => some (l.fault c.utf8Size .unexpectedCharacter, l.past c cs)

/-- Where the lexer stands. -/
def place (l : Lexer) : Place := ⟨l.byte, l.line⟩

/-- The lexer behind a text, with all fields as they have to be there. -/
def beyond (l : Lexer) (text : List Char) : Lexer :=
  ⟨l.rest.drop text.length, (l.place.advance text).offset, (l.place.advance text).line, l.finished⟩

/-- The item of a piece where the lexer stands, and the lexer behind the piece. -/
def behind (l : Lexer) (piece : Piece) : Option Item × Lexer :=
  (piece.item? l.place, l.beyond piece.text)

end Lexer

/-! ### What the first character decides -/

/-- The fixed tokens that begin with the character. -/
def symbolsAt (c : Char) : List (List Char × TokenKind) :=
  symbols.filter fun s => s.1.head? == some c

theorem find_symbol (c : Char) (cs : List Char) :
    symbols.find? (·.1.isPrefixOf (c :: cs)) = (symbolsAt c).find? (·.1.isPrefixOf (c :: cs)) := by
  rw [← List.head?_filter, ← List.head?_filter, symbolsAt, List.filter_filter]
  refine congrArg List.head? (List.filter_congr fun s hs => ?_)
  obtain ⟨d, ds, hd⟩ := List.exists_cons_of_ne_nil (symbols_text_ne_nil hs)
  rw [hd, List.head?_cons, List.isPrefixOf_cons_cons]
  by_cases hdc : d = c <;> simp [hdc]

/-- What is known of a character by what it decides. -/
inductive Leads (c : Char) : Leading → Prop where
  | single {kind : TokenKind} : symbolsAt c = [([c], kind)] → Leads c (.single kind)
  | double {next : Char} {both alone : TokenKind} :
      symbolsAt c = [([c, next], both), ([c], alone)] → Leads c (.double next both alone)
  | less : symbolsAt c = [([c, '='], .lessEqual), ([c, '>'], .lessGreater), ([c], .less)] →
      Leads c .less
  | comment : c = '#' → Leads c .comment
  | string : c = '"' → Leads c .string
  | number : c.isDigit = true → Leads c .number
  | word : isWordStart c = true → Leads c .word
  | newline : c = '\n' → Leads c .newline
  | skipped : isSeparator c = true → c ≠ '\n' → Leads c .skipped
  | unexpected : IsApart c → c.isDigit = false → isWordStart c = false → Leads c .unexpected

theorem leads_leading (c : Char) : Leads c (leading c) := by
  unfold leading
  split
  all_goals try exact .single (by decide)
  all_goals try exact .double (by decide)
  · exact .less (by decide)
  · exact .comment rfl
  · exact .string rfl
  · exact .newline rfl
  · exact .skipped (by decide) (by decide)
  · split
    · exact .number ‹_›
    split
    · exact .word ‹_›
    split
    · rename_i hblank
      exact .skipped (by rw [isSeparator, hblank, Bool.or_true]) ‹c = '\n' → False›
    · rename_i hdigit hword hblank
      have hcomma : c ≠ ',' := ‹c = ',' → False›
      refine .unexpected ⟨?_, ‹c = '#' → False›, ‹c = '"' → False›⟩ ?_ ?_
      · simp [isSeparator, hcomma, hblank]
      · simpa using hdigit
      · simpa using hword

/-- No fixed token begins with a character that decides nothing. -/
theorem symbolsAt_of_unexpected {c : Char} (h : leading c = .unexpected) : symbolsAt c = [] := by
  have hall : ∀ s ∈ symbols, s.1.head?.all (leading · != .unexpected) = true := by decide
  refine List.filter_eq_nil_iff.mpr fun s hs hhead => ?_
  have hleads := hall s hs
  rw [eq_of_beq hhead, Option.all_some, h] at hleads
  cases hleads

/-! ### The first piece by its first character -/

section FirstPiece

variable {c : Char} {cs : List Char}

theorem isApart_of_symbolsAt {s : List Char × TokenKind} (hs : s ∈ symbolsAt c) :
    IsApart c ∧ c.isDigit = false ∧ isWordStart c = false := by
  obtain ⟨hmem, hhead⟩ := List.mem_filter.mp hs
  obtain ⟨d, ds, htext⟩ := List.exists_cons_of_ne_nil (symbols_text_ne_nil hmem)
  rw [htext, List.head?_cons, beq_iff_eq, Option.some_inj] at hhead
  exact hhead ▸ symbol_head hmem htext

/-- A fixed token is looked for among those that begin with the character. -/
theorem firstPiece_of_symbolsAt {text : List Char} {kind : TokenKind}
    (hfind : (symbolsAt c).find? (·.1.isPrefixOf (c :: cs)) = some (text, kind)) :
    firstPiece c cs = .token kind text ∧ c ≠ '"' := by
  obtain ⟨hapart, hdigit, hword⟩ := isApart_of_symbolsAt (List.mem_of_find?_eq_some hfind)
  refine ⟨?_, hapart.quote⟩
  simp only [firstPiece, find_symbol, hfind, hapart.separator, hapart.comment, hapart.quote, hdigit,
    hword]
  simp

theorem firstPiece_of_no_symbol (hapart : IsApart c) (hdigit : c.isDigit = false)
    (hword : isWordStart c = false) (hnone : symbolsAt c = []) :
    firstPiece c cs = .unexpected c := by
  simp only [firstPiece, find_symbol, hnone, hapart.separator, hapart.comment, hapart.quote, hdigit,
    hword]
  simp

theorem find_double {next : Char} {both alone : TokenKind} :
    ([([c, next], both), ([c], alone)].find? (·.1.isPrefixOf (c :: cs))) =
      if cs.head? = some next then some ([c, next], both) else some ([c], alone) := by
  cases cs with
  | nil => simp
  | cons d ds =>
    by_cases hd : d = next
    · simp [hd]
    · simp [hd, Ne.symm hd]

theorem find_less : ([([c, '='], TokenKind.lessEqual), ([c, '>'], .lessGreater),
      ([c], .less)].find? (·.1.isPrefixOf (c :: cs))) =
      if cs.head? = some '=' then some ([c, '='], .lessEqual)
      else if cs.head? = some '>' then some ([c, '>'], .lessGreater)
      else some ([c], .less) := by
  cases cs with
  | nil => simp
  | cons d ds =>
    by_cases heq : d = '='
    · simp [heq]
    · by_cases hgt : d = '>'
      · simp [hgt]
      · simp [heq, hgt, Ne.symm heq, Ne.symm hgt]

theorem take_length_takeWhile (p : Char → Bool) (cs : List Char) :
    cs.take (cs.takeWhile p).length = cs.takeWhile p :=
  (List.prefix_iff_eq_take.mp (List.takeWhile_prefix p)).symm

theorem numberText_eq (cs : List Char) :
    numberText cs = cs.takeWhile Char.isDigit ++
      (cs.dropWhile Char.isDigit).take (fractionLength (cs.dropWhile Char.isDigit)) := by
  unfold numberText
  generalize cs.dropWhile Char.isDigit = fraction
  fun_cases fractionLength fraction with
  | case1 d ds hd =>
    have hds := take_length_takeWhile Char.isDigit ds
    simp [hd, Nat.add_comm 1, hds]
  | case2 d ds hd => simp [hd]
  | case3 fraction hnone =>
    split
    · exact absurd rfl (hnone _ _)
    · simp

/-- The number that a digit begins goes on as far as the lexer looks. -/
theorem numberText_cons (hc : c.isDigit = true) :
    numberText (c :: cs) = c :: cs.take (numberRest cs) := by
  have hcs := @List.takeWhile_append_dropWhile _ Char.isDigit cs
  rw [numberText_eq, List.takeWhile_cons_of_pos hc, List.dropWhile_cons_of_pos hc, numberRest]
  generalize cs.takeWhile Char.isDigit = whole, cs.dropWhile Char.isDigit = fraction at hcs ⊢
  rw [← hcs, List.drop_left, List.take_length_add_append]
  rfl

end FirstPiece

/-! ### One turn -/

theorem byteSize_singleton (c : Char) : byteSize [c] = c.utf8Size := by
  simp [byteSize]

/-- A token that begins with no quote has no newline in it. -/
theorem newline_not_mem_of_firstPiece {c : Char} {cs text : List Char} {kind : TokenKind}
    (hpiece : firstPiece c cs = .token kind text) (hc : c ≠ '"') : '\n' ∉ text := by
  intro hmem
  rcases (lexeme_of_firstPiece hpiece).string_or_isApart with ⟨-, body, -, rfl⟩ | hapart
  · have hprefix := firstPiece_isPrefix c cs
    rw [hpiece] at hprefix
    exact hc (List.cons_prefix_cons.mp hprefix).1.symm
  · exact absurd (hapart _ hmem).separator (by decide)

namespace Lexer

variable {l : Lexer} {c : Char} {cs : List Char}

theorem beyond_cons (hl : l.rest = c :: cs) (n : Nat) : l.beyond (c :: cs.take n) =
    ⟨cs.drop n, l.byte + c.utf8Size + byteSize (cs.take n), l.line + (c :: cs.take n).count '\n',
      l.finished⟩ := by
  have hrest : (c :: cs).drop (c :: cs.take n).length = cs.drop n := by
    rw [List.length_cons, List.drop_succ_cons, List.length_take]
    rcases Nat.le_total n cs.length with hle | hle
    · rw [Nat.min_eq_left hle]
    · rw [Nat.min_eq_right hle, List.drop_length, List.drop_of_length_le hle]
  have hbytes : byteSize (c :: cs.take n) = c.utf8Size + byteSize (cs.take n) := by
    rw [← List.singleton_append, byteSize_append, byteSize_singleton]
  rw [beyond, hl, hrest, Place.advance, hbytes, ← Nat.add_assoc]
  rfl

/-- The lexer is behind the piece once the newlines of the piece are counted. -/
theorem countLines_bump_past (hl : l.rest = c :: cs) {m n : Nat}
    (hlines : (cs.take m).count '\n' = (c :: cs.take n).count '\n') :
    ((l.past c cs).countLines m).bump n = l.beyond (c :: cs.take n) := by
  rw [beyond_cons hl, ← hlines]
  rfl

/-- Moving past a piece without newlines is a matter of bytes. -/
theorem bump_past (hl : l.rest = c :: cs) {n : Nat} (hline : '\n' ∉ c :: cs.take n) :
    (l.past c cs).bump n = l.beyond (c :: cs.take n) := by
  rw [beyond_cons hl, List.count_eq_zero.mpr hline]
  rfl

@[simp] theorem bump_zero (l : Lexer) : l.bump 0 = l := by
  simp [bump, byteSize]

/-- Moving past the first character is all there is to a piece of one character. -/
theorem past_eq_beyond (hl : l.rest = c :: cs) (hc : c ≠ '\n') : l.past c cs = l.beyond [c] := by
  have hbeyond := bump_past hl (n := 0) (by simpa using hc.symm)
  rwa [bump_zero] at hbeyond

/-- A turn that takes a token, strings aside. -/
theorem turn_token (hl : l.rest = c :: cs) {kind : TokenKind} {n : Nat}
    (hpiece : firstPiece c cs = .token kind (c :: cs.take n)) (hc : c ≠ '"') :
    (l.token kind (n + 1), (l.past c cs).bump n) = l.behind (firstPiece c cs) := by
  have hline := newline_not_mem_of_firstPiece hpiece hc
  rw [hpiece, bump_past hl hline, token, hl]
  rfl

/-- A turn that takes a fixed token of one character. -/
theorem turn_symbol (hl : l.rest = c :: cs) {kind : TokenKind}
    (hfind : (symbolsAt c).find? (·.1.isPrefixOf (c :: cs)) = some ([c], kind)) :
    (l.token kind 1, l.past c cs) = l.behind (firstPiece c cs) := by
  obtain ⟨hpiece, hc⟩ := firstPiece_of_symbolsAt hfind
  have hturn := @turn_token l c cs hl kind 0 hpiece hc
  rwa [bump_zero] at hturn

/-- A turn that takes a fixed token of two characters. -/
theorem turn_symbol_two (hl : l.rest = c :: cs) {next : Char} {kind : TokenKind}
    (hnext : cs.head? = some next)
    (hfind : (symbolsAt c).find? (·.1.isPrefixOf (c :: cs)) = some ([c, next], kind)) :
    (l.token kind 2, (l.past c cs).bump 1) = l.behind (firstPiece c cs) := by
  obtain ⟨hpiece, hc⟩ := firstPiece_of_symbolsAt hfind
  obtain ⟨ds, rfl⟩ := List.head?_eq_some_iff.mp hnext
  exact @turn_token l c (next :: ds) hl kind 1 hpiece hc

/-- A turn that takes a comment. -/
theorem turn_comment (hl : l.rest = '#' :: cs) {stop : Nat}
    (hstop : stop = (cs.takeWhile (· ≠ '\n')).length) :
    (none, (l.past '#' cs).bump stop) = l.behind (firstPiece '#' cs) := by
  have htext : cs.take stop = cs.takeWhile (· ≠ '\n') := hstop ▸ take_length_takeWhile _ cs
  have hline : '\n' ∉ '#' :: cs.take stop := by
    rw [htext, List.mem_cons]
    rintro (h | h)
    · exact absurd h (by decide)
    · exact not_mem_takeWhile_ne '\n' cs h
  rw [bump_past hl hline, firstPiece_of_hash, htext]
  rfl

/-- A turn that takes a string. -/
theorem turn_string (hl : l.rest = '"' :: cs) (hmem : '"' ∈ cs) {stop : Nat}
    (hstop : stop = (cs.takeWhile (· ≠ '"')).length) :
    (l.token .string (stop + 2), ((l.past '"' cs).countLines stop).bump (stop + 1)) =
      l.behind (firstPiece '"' cs) := by
  have hbody : cs.take stop = cs.takeWhile (· ≠ '"') := hstop ▸ take_length_takeWhile _ cs
  have hquoted : cs.take (stop + 1) = cs.takeWhile (· ≠ '"') ++ ['"'] := by
    rw [List.prefix_iff_eq_take.mp (quoted_isPrefix hmem), List.length_append, hstop]
    rfl
  have hpiece : firstPiece '"' cs = .token .string ('"' :: cs.take (stop + 1)) := by
    have hsep : isSeparator '"' = false := by decide
    rw [hquoted]
    simp [firstPiece, hsep, hmem]
  have hlines : (cs.take stop).count '\n' = ('"' :: cs.take (stop + 1)).count '\n' := by
    rw [hbody, hquoted]
    simp
  rw [hpiece, countLines_bump_past hl hlines, token, hl]
  rfl

/-- A turn at a string that is never closed takes all that is left. -/
theorem turn_unterminated (hl : l.rest = '"' :: cs) (hmem : '"' ∉ cs) :
    (l.fault (byteSize ('"' :: cs)) .unterminatedString,
        ((l.past '"' cs).countLines cs.length).bump cs.length) =
      l.behind (firstPiece '"' cs) := by
  have hbeyond : ((l.past '"' cs).countLines cs.length).bump cs.length = l.beyond ('"' :: cs) := by
    rw [countLines_bump_past hl (by simp), List.take_length]
  rw [firstPiece_of_openQuote hmem, hbeyond, fault]
  rfl

/-- A turn at a character that no piece goes on after. -/
theorem turn_unexpected (hl : l.rest = c :: cs) (hpiece : firstPiece c cs = .unexpected c)
    (hc : c ≠ '\n') :
    (l.fault c.utf8Size .unexpectedCharacter, l.past c cs) = l.behind (firstPiece c cs) := by
  rw [hpiece, past_eq_beyond hl hc, ← byteSize_singleton]
  rfl

/-- **A turn cuts off the first piece** and goes on behind it. -/
theorem turn_cons (hl : l.rest = c :: cs) : l.turn = some (l.behind (firstPiece c cs)) := by
  have hleads := leads_leading c
  rw [turn, hl]
  dsimp only
  generalize hlead : leading c = lead at hleads ⊢
  cases hleads with
  | @single kind hsymbols => exact congrArg some (turn_symbol hl (by simp [hsymbols]))
  | @double next both alone hsymbols =>
    have hfind := @find_double c cs next both alone
    rw [← hsymbols] at hfind
    dsimp only
    split
    · rename_i hnext
      exact congrArg some (turn_symbol_two hl hnext (by rw [hfind, if_pos hnext]))
    · rename_i hnext
      exact congrArg some (turn_symbol hl (by rw [hfind, if_neg hnext]))
  | less hsymbols =>
    have hfind := @find_less c cs
    rw [← hsymbols] at hfind
    dsimp only
    split
    · rename_i hequal
      exact congrArg some (turn_symbol_two hl hequal (by rw [hfind, if_pos hequal]))
    split
    · rename_i hequal hgreater
      exact congrArg some
        (turn_symbol_two hl hgreater (by rw [hfind, if_neg hequal, if_pos hgreater]))
    · rename_i hequal hgreater
      exact congrArg some (turn_symbol hl (by rw [hfind, if_neg hequal, if_neg hgreater]))
  | comment hc =>
    subst hc
    exact congrArg some (turn_comment hl rfl)
  | string hc =>
    subst hc
    dsimp only
    split
    · rename_i hmem
      exact congrArg some (turn_string hl hmem rfl)
    · rename_i hmem
      exact congrArg some (turn_unterminated hl hmem)
  | number hdigit =>
    have hpiece : firstPiece c cs = .token .number (c :: cs.take (numberRest cs)) := by
      rw [firstPiece_of_digit hdigit, numberText_cons hdigit]
    exact congrArg some (turn_token hl hpiece (isApart_of_isDigit hdigit).quote)
  | word hword =>
    have hpiece := @firstPiece_of_wordStart c cs hword
    have hc := (isApart_of_isWordPart (isWordPart_of_isWordStart hword)).quote
    rw [← take_length_takeWhile isWordPart cs] at hpiece
    exact congrArg some (turn_token hl hpiece hc)
  | newline hc =>
    subst hc
    rw [firstPiece_of_separator (by decide), behind, Piece.text, beyond, hl, Place.advance,
      byteSize_singleton]
    rfl
  | skipped hsep hne =>
    rw [firstPiece_of_separator hsep, past_eq_beyond hl hne]
    rfl
  | unexpected hapart hdigit hword =>
    have hne : c ≠ '\n' := by
      rintro rfl
      exact absurd hapart.separator (by decide)
    have hpiece := @firstPiece_of_no_symbol c cs hapart hdigit hword (symbolsAt_of_unexpected hlead)
    exact congrArg some (turn_unexpected hl hpiece hne)

/-! ### Turn after turn -/

/-- At the end of the source a turn gives the end of input, the first time. -/
theorem turn_nil (hl : l.rest = []) : l.turn =
    if l.finished then none else some (l.token .endOfInput 0, { l with finished := true }) := by
  rw [turn, hl]

/-- The characters that are left, and one more as long as the end of input has to be given. -/
def left (l : Lexer) : Nat := l.rest.length + if l.finished then 0 else 1

/-- Every turn leaves less to do. -/
theorem left_of_turn {i? : Option Item} {l' : Lexer} (h : l.turn = some (i?, l')) :
    l'.left < l.left := by
  cases hl : l.rest with
  | nil =>
    rw [turn_nil hl] at h
    split at h
    · cases h
    · rename_i hfinished
      cases h
      simp [left, hfinished]
  | cons c cs =>
    rw [turn_cons hl] at h
    cases h
    have hpos := firstPiece_length_pos c cs
    simp only [left, beyond, hl, List.length_drop, List.length_cons]
    omega

/-- The next item and the lexer behind it: turns are taken until one gives an item. -/
def next (l : Lexer) : Option (Item × Lexer) :=
  match _h : l.turn with
  | none              => none
  | some (some i, l') => some (i, l')
  | some (none, l')   => l'.next
termination_by l.left
decreasing_by exact left_of_turn ‹_›

theorem left_of_next {i : Item} {l' : Lexer} (h : l.next = some (i, l')) : l'.left < l.left := by
  fun_induction next l with
  | case1 => cases h
  | case2 l j l₁ hturn =>
    cases h
    exact left_of_turn hturn
  | case3 l l₁ hturn ih => exact Nat.lt_trans (ih h) (left_of_turn hturn)

/-- All items that are still to come. -/
def collect (l : Lexer) : List Item :=
  match _h : l.next with
  | none         => []
  | some (i, l') => i :: l'.collect
termination_by l.left
decreasing_by exact left_of_next ‹_›

theorem next_eq (l : Lexer) : l.next =
    match l.turn with
    | none              => none
    | some (some i, l') => some (i, l')
    | some (none, l')   => l'.next := by
  fun_cases next l with
  | case1 hturn => rw [hturn]
  | case2 i l' hturn => rw [hturn]
  | case3 l' hturn => rw [hturn]

theorem collect_eq (l : Lexer) : l.collect =
    match l.next with
    | none         => []
    | some (i, l') => i :: l'.collect := by
  fun_cases collect l with
  | case1 hnext => rw [hnext]
  | case2 i l' hnext => rw [hnext]

theorem collect_of_turn_none (h : l.turn = none) : l.collect = [] := by
  rw [collect_eq, next_eq, h]

/-- The item of a turn comes before the items of the later ones. -/
theorem collect_of_turn {i? : Option Item} {l' : Lexer} (h : l.turn = some (i?, l')) :
    l.collect = i?.toList ++ l'.collect := by
  cases i? with
  | some i =>
    rw [collect_eq, next_eq, h]
    rfl
  | none =>
    have hnext : l.next = l'.next := by rw [next_eq, h]
    rw [collect_eq, hnext, ← collect_eq]
    rfl

/-- **The iterator gives the items of what is left**, from where it stands. -/
theorem collect_eq_placed (l : Lexer) (hfinished : l.finished = false) :
    l.collect = placed l.place (pieces l.rest) := by
  generalize hl : l.rest = rest
  fun_induction pieces rest generalizing l with
  | case1 =>
    have hturn := turn_nil hl
    rw [hfinished, if_neg Bool.false_ne_true] at hturn
    have hend : { l with finished := true }.turn = none := by
      rw [turn_nil (l := { l with finished := true }) hl, if_pos rfl]
    rw [collect_of_turn hturn, collect_of_turn_none hend]
    rfl
  | case2 c cs piece ih =>
    have hrest : (l.beyond piece.text).rest = (c :: cs).drop piece.text.length := by rw [beyond, hl]
    rw [collect_of_turn (turn_cons hl), ih (l.beyond piece.text) hfinished hrest]
    rfl

/-- **The lexer.**  Taken to its end, the iterator of a source gives the items of the source. -/
theorem collect_start (source : String) : (start source).collect = items source :=
  collect_eq_placed (start source) rfl

end Lexer

end ListCalc
