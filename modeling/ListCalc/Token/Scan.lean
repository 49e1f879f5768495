import ListCalc.Fault
import ListCalc.Token.Piece

/-!
# Token — scanning

`items` gives the pieces of a source their places and drops the separators and comments: what is
left are tokens and syntax errors in source order, closed by the one token for the end of input.
A fault does not stop the scan.  `scan` separates the two.

A place is advanced over every piece alike (`Place.advance`), so offset and line after any text
depend on that text alone.  A lexer that moves its fields as each sort of piece needs it gives the
same items (`Lexer.collect_start`).
-/

namespace ListCalc

/-- Where a piece starts: the bytes before it, and one more than the newlines before it. -/
structure Place where
  offset : Nat
  line : Nat
deriving DecidableEq, Inhabited

namespace Place

/-- The beginning of a source. -/
def start : Place := ⟨0, 1⟩

/-- The number of UTF-8 bytes of a text. -/
def byteSize (cs : List Char) : Nat := (String.ofList cs).utf8ByteSize

/-- The place after a text that starts here. -/
def advance (p : Place) (cs : List Char) : Place :=
  ⟨p.offset + byteSize cs, p.line + cs.count '\n'⟩

theorem advance_append (p : Place) (cs ds : List Char) :
    p.advance (cs ++ ds) = (p.advance cs).advance ds := by
  simp [advance, byteSize, String.ofList_append, Nat.add_assoc]

/-- The token of the given kind and text at this place. -/
def token (p : Place) (kind : TokenKind) (cs : List Char) : Token :=
  ⟨kind, String.ofList cs, p.offset, p.line⟩

/-- The fault that the given text, which is no token, is at this place. -/
def fault (p : Place) (cs : List Char) (fault : SyntaxFault) : SyntaxError :=
  .inSource p.line ⟨p.offset, byteSize cs⟩ fault

end Place

/-- What a scan yields. -/
inductive Item where
  | token (t : Token)
  | fault (e : SyntaxError)
deriving DecidableEq

/-- The item of a piece; separators and comments have none. -/
def Piece.item? (p : Place) : Piece → Option Item
  | separator _       => none
  | comment _         => none
  | token kind text   => some (.token (p.token kind text))
  | unexpected c      => some (.fault (p.fault [c] .unexpectedCharacter))
  | unterminated text => some (.fault (p.fault text .unterminatedString))

/-- The items of consecutive pieces, the first of which is at `p`. -/
def placed (p : Place) : List Piece → List Item
  | []          => [.token (p.token .endOfInput [])]
  | piece :: ps => (piece.item? p).toList ++ placed (p.advance piece.text) ps

/-- The items of a source, one after the other. -/
def items (source : String) : List Item :=
  placed .start (pieces source.toList)

/-- The token that an item is. -/
def Item.token? : Item → Option Token
  | token t => some t
  | fault _ => none

/-- The fault that an item is. -/
def Item.fault? : Item → Option SyntaxError
  | token _ => none
  | fault e => some e

/-- The tokens of a source and the faults met on the way. -/
structure Scan where
  tokens : List Token
  faults : List SyntaxError
deriving DecidableEq

/-- The tokens and the faults of a source, each in source order. -/
def scan (source : String) : Scan :=
  ⟨(items source).filterMap Item.token?, (items source).filterMap Item.fault?⟩

end ListCalc
