import ListCalc.Decimal.Text

/-!
# Token — kinds, places and literals

A `Token` is a lexeme with its kind and its place in the source: the byte offset at which it starts
and the line on which it starts, counted from one.  Lengths are UTF-8 bytes.

`Token.literal?` reads the constant that a literal token stands for.
-/

namespace ListCalc

/-- The kinds of tokens: fixed ones, those with a text of their own, reserved words, the end. -/
inductive TokenKind where
  | leftParen | rightParen | leftBracket | rightBracket | leftBrace | rightBrace
  | plus | minus | star | slash | percent | caret
  | equal | lessGreater | less | lessEqual | greater | greaterEqual
  | pipe | pipePipe | ampersand | ampersandAmpersand
  | tilde | semicolon | at | colon | colonEqual | dollar | dot | dotDot
  | string | number | identifier
  | falseWord | trueWord | nullWord | thisWord | leftWord | rightWord
  | endOfInput
deriving DecidableEq, Inhabited

/-- The name under which a kind is listed. -/
def TokenKind.name : TokenKind → String
  | leftParen          => "LeftParen"
  | rightParen         => "RightParen"
  | leftBracket        => "LeftBracket"
  | rightBracket       => "RightBracket"
  | leftBrace          => "LeftBrace"
  | rightBrace         => "RightBrace"
  | plus               => "Plus"
  | minus              => "Minus"
  | star               => "Star"
  | slash              => "Slash"
  | percent            => "Percent"
  | caret              => "Caret"
  | equal              => "Equal"
  | lessGreater        => "LessGreater"
  | less               => "Less"
  | lessEqual          => "LessEqual"
  | greater            => "Greater"
  | greaterEqual       => "GreaterEqual"
  | pipe               => "Pipe"
  | pipePipe           => "PipePipe"
  | ampersand          => "Ampersand"
  | ampersandAmpersand => "AmpersandAmpersand"
  | tilde              => "Tilde"
  | semicolon          => "Semicolon"
  | .at                => "At"
  | colon              => "Colon"
  | colonEqual         => "ColonEqual"
  | dollar             => "Dollar"
  | dot                => "Dot"
  | dotDot             => "DotDot"
  | string             => "String"
  | number             => "Number"
  | identifier         => "Identifier"
  | falseWord          => "False"
  | trueWord           => "True"
  | nullWord           => "Null"
  | thisWord           => "This"
  | leftWord           => "Left"
  | rightWord          => "Right"
  | endOfInput         => "Eof"

/-- The three pairs of grouping tokens; they mean the same. -/
inductive Bracket where
  | round | square | curly
deriving DecidableEq, Inhabited

namespace Bracket

/-- The pair that a token opens. -/
def ofOpener? : TokenKind → Option Bracket
  | .leftParen   => some round
  | .leftBracket => some square
  | .leftBrace   => some curly
  | _            => none

/-- The kind of the token that closes the group. -/
def closer : Bracket → TokenKind
  | round  => .rightParen
  | square => .rightBracket
  | curly  => .rightBrace

/-- The lexeme that closes the group. -/
def closing : Bracket → String
  | round  => ")"
  | square => "]"
  | curly  => "\x7d"

end Bracket

/-- A stretch of the source, in bytes. -/
structure Span where
  offset : Nat
  length : Nat
deriving DecidableEq, Inhabited

/-- A lexeme with its kind and the place in the source where it starts. -/
structure Token where
  kind : TokenKind
  lexeme : String
  offset : Nat
  line : Nat
deriving DecidableEq, Inhabited

namespace Token

/-- The bytes of the lexeme. -/
def length (t : Token) : Nat := t.lexeme.utf8ByteSize

/-- The stretch of the source that the lexeme is. -/
def span (t : Token) : Span := ⟨t.offset, t.length⟩

/-- The line of a listing: kind, lexeme and line. -/
def listing (t : Token) : String :=
  t.kind.name ++ " " ++ t.lexeme ++ " " ++ t.line.repr

end Token

/-- The constants that can be written down. -/
inductive Literal where
  | integer (n : Int)
  | decimal (d : Decimal)
  | text (s : String)
  | boolean (b : Bool)
  | null
deriving DecidableEq, Inhabited

/-- The words for the two truth values. -/
def boolText : Bool → String
  | true  => "true"
  | false => "false"

/-- A literal as it is written in a tree; a text stands between quotes. -/
def Literal.written : Literal → String
  | integer n => integerText n
  | decimal d => d.text
  | text s    => "\"" ++ s ++ "\""
  | boolean b => boolText b
  | null      => "null"

/-- The constant of a lexeme of digits: a decimal if it has a point, an integer otherwise. -/
def Literal.ofDigits? (cs : List Char) : Option Literal :=
  if '.' ∈ cs then (Decimal.ofUnsignedText? cs).map decimal
  else (natOfDigits? cs).map fun n => integer n

/-- The constant that a literal token stands for; a text is what stands between its quotes. -/
def Token.literal? (t : Token) : Option Literal :=
  match t.kind with
  | .number    => Literal.ofDigits? t.lexeme.toList
  | .string    => some (.text (String.ofList t.lexeme.toList.tail.dropLast))
  | .trueWord  => some (.boolean true)
  | .falseWord => some (.boolean false)
  | .nullWord  => some .null
  | _          => none

end ListCalc
