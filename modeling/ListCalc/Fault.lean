import ListCalc.Decimal.Number
import ListCalc.Token.Basic

/-!
# Faults

What can go wrong, as causes, and where.  A `SyntaxFault` is found while scanning or parsing, an
`OperatorFault` while one operator is applied, a `RuntimeFault` while a tree is evaluated; the
wording of each cause stands in its `message` function and nowhere else.

A `SyntaxError` and a `RuntimeError` add the line and the span of the source that they point at.
-/

namespace ListCalc

/-! ### Syntax -/

/-- What can be wrong with a source. -/
inductive SyntaxFault where
  | unexpectedCharacter
  | unterminatedString
  | expectExpression
  | expectCloser (bracket : Bracket)
  | invalidLiteral
  | nestedTooDeeply
deriving DecidableEq, Inhabited

/-- What a syntax error says, its place aside. -/
def SyntaxFault.message : SyntaxFault → String
  | unexpectedCharacter  => "Unexpected character."
  | unterminatedString   => "Unterminated string."
  | expectExpression     => "Expect expression."
  | expectCloser bracket => "Expect '" ++ bracket.closing ++ "' after expression."
  | invalidLiteral       => "Invalid literal."
  | nestedTooDeeply      => "Expression nested too deeply."

/-- How a syntax error names its place: a lexeme, the end of the input, or not at all. -/
inductive Location where
  | unnamed
  | lexeme (text : String)
  | endOfInput
deriving DecidableEq, Inhabited

/-- The place as it stands in the text of an error. -/
def Location.text : Location → String
  | unnamed     => ""
  | lexeme text => " at '" ++ text ++ "'"
  | endOfInput  => " at end"

/-- A fault of the source, with the line and the span that it points at. -/
structure SyntaxError where
  fault : SyntaxFault
  location : Location
  line : Nat
  span : Span
deriving DecidableEq, Inhabited

namespace SyntaxError

/-- A fault in a piece of source that is no token. -/
def inSource (line : Nat) (span : Span) (fault : SyntaxFault) : SyntaxError :=
  ⟨fault, .unnamed, line, span⟩

/-- A fault at a token; the end of input is named as such, any other token by its lexeme. -/
def atToken (t : Token) (fault : SyntaxFault) : SyntaxError :=
  ⟨fault, if t.kind = .endOfInput then .endOfInput else .lexeme t.lexeme, t.line, t.span⟩

/-- What the error says, without its place. -/
def message (e : SyntaxError) : String := e.fault.message

/-- The error in full, as it is reported. -/
def text (e : SyntaxError) : String :=
  "[line " ++ e.line.repr ++ "] Error" ++ e.location.text ++ ": " ++ e.message

end SyntaxError

/-! ### Operators -/

/-- Why an operator cannot be applied to its operands. -/
inductive OperatorFault where
  | notCoercible (kind : String)
  | notANumber
  | divisionByZero
  | negativeExponent
  | exponentTooLarge (exponent : Number)
  | notReal
  | rangeTooLarge (low high : String)
  | extension (reason : String)
deriving DecidableEq, Inhabited

/-- What an error of an operator says; an operator of the host has reasons of its own. -/
def OperatorFault.message : OperatorFault → String
  | notCoercible kind         => "Operand of kind " ++ kind ++ " has no numeric value."
  | notANumber                => "Operand must be a number."
  | divisionByZero            => "Division by zero."
  | negativeExponent          => "Exponent must not be negative."
  | exponentTooLarge exponent => "Exponent " ++ exponent.text ++ " is too large."
  | notReal                   =>
    "Power of a negative base by a fractional exponent is not a real number."
  | rangeTooLarge low high    =>
    "Range bounds " ++ low ++ " and " ++ high ++ " span too many elements."
  | extension reason          => reason

/-! ### Evaluation -/

/-- Why a stream refuses. -/
inductive StreamFault where
  | writeRefused
  | flushRefused
  | notUtf8
deriving DecidableEq, Inhabited

/-- What an error of a stream says. -/
def StreamFault.message : StreamFault → String
  | writeRefused => "write refused"
  | flushRefused => "flush refused"
  | notUtf8      => "stream did not contain valid UTF-8"

/-- Why a tree cannot be evaluated. -/
inductive RuntimeFault where
  | operator (fault : OperatorFault)
  | stream (fault : StreamFault)
  | invalidTarget
  | notCallable
  | unknownOperator (name : String)
deriving DecidableEq, Inhabited

/-- What an error of the evaluation says, its place aside. -/
def RuntimeFault.message : RuntimeFault → String
  | operator fault       => fault.message
  | stream fault         => "I/O failure: " ++ fault.message
  | invalidTarget        => "Invalid assignment target."
  | notCallable          => "Can only call unary operators."
  | unknownOperator name => "Unknown operator '" ++ name ++ "'."

/-- A fault of the evaluation, with the line and the span that it points at. -/
structure RuntimeError where
  fault : RuntimeFault
  line : Nat
  span : Span
deriving DecidableEq, Inhabited

namespace RuntimeError

/-- A fault at a token, on the line and span of the token. -/
def atToken (t : Token) (fault : RuntimeFault) : RuntimeError :=
  ⟨fault, t.line, t.span⟩

/-- What the error says, without its place. -/
def message (e : RuntimeError) : String := e.fault.message

/-- The error in full, as it is reported. -/
def text (e : RuntimeError) : String :=
  e.message ++ "\n[line " ++ e.line.repr ++ "]"

end RuntimeError

end ListCalc
