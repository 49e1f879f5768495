import ListCalc.Expr.Basic
import ListCalc.Fault
import ListCalc.Operator.Table

/-!
# Expr — parsing

The parser is a machine that takes the tokens one by one, with the kind of the next token in view.
Its stack holds a `Frame` for every construct that is begun and not finished; beside it stands the
application read last, if one has been read (`State.operand?`), and the trees that are complete.

* An operator token puts its frame on the stack; a prefix operator, a group and an assignment count
  toward the nesting, which never exceeds `maxNesting`.
* A binary operator finishes what binds closer: the prefix operators on top, and one binary
  operator below them, so binary operators group to the left.
* `$` applies what was just read to the expression after it.  That expression runs up to the next
  `$` of the same group, so inside an argument a `$` finishes the argument first.
* A token that continues no expression finishes everything up to the enclosing group, or the tree.

A name bound to a unary operator is a prefix operator where an operand can follow it, and a name
bound to a binary operator is a binary operator where an operand precedes it; elsewhere both are
plain names.
-/

namespace ListCalc

/-- The deepest nesting of groups, prefix operators and assignments. -/
def maxNesting : Nat := 256

/-- Whether a token can begin the operand of a prefix operator. -/
def startsOperand : TokenKind → Bool
  | .number | .string | .identifier | .trueWord | .falseWord | .nullWord => true
  | .leftParen | .leftBracket | .leftBrace | .tilde | .minus             => true
  | _                                                                    => false

/-- A construct that is begun and waits for what is parsed now. -/
inductive Frame where
  | group (opener : Token) (bracket : Bracket)
  | prefixOp (op : Token)
  | binary (left : Expr) (op : Token)
  | assign (target op : Token)
  | argument (callee : Expr) (dollar : Token)
deriving DecidableEq

namespace Frame

/-- Whether the frame counts toward the nesting. -/
def nests : Frame → Bool
  | group .. | prefixOp _ | assign .. => true
  | binary .. | argument ..           => false

/-- How deeply what is parsed now is nested. -/
def depth (stack : List Frame) : Nat :=
  stack.countP nests

/-- Whether `$` applies what was read last, and does not finish an argument around it. -/
def chains : List Frame → Bool
  | []                 => true
  | group .. :: _      => true
  | argument .. :: _   => false
  | prefixOp _ :: fs   => chains fs
  | binary .. :: fs    => chains fs
  | assign .. :: fs    => chains fs

/-- Finishes the prefix operators on top with `e` as the operand of the innermost. -/
def closePrefixes (e : Expr) : List Frame → Expr × List Frame
  | prefixOp op :: fs => closePrefixes (.unary op e) fs
  | fs                => (e, fs)

/-- Finishes the operand `e` before a binary operator. -/
def closeOperand (e : Expr) (stack : List Frame) : Expr × List Frame :=
  match closePrefixes e stack with
  | (e, binary left op :: fs) => (.binary left op e, fs)
  | (e, fs)                   => (e, fs)

/-- Finishes everything up to and including the innermost argument. -/
def closeArgument (e : Expr) : List Frame → Expr × List Frame
  | prefixOp op :: fs            => closeArgument (.unary op e) fs
  | binary left op :: fs         => closeArgument (.binary left op e) fs
  | assign target op :: fs       => closeArgument (.binary (.name target) op e) fs
  | argument callee dollar :: fs => (.call callee dollar e, fs)
  | fs                           => (e, fs)

/-- Finishes everything down to the enclosing group or the bottom of the stack. -/
def closeAll (e : Expr) : List Frame → Expr × List Frame
  | prefixOp op :: fs            => closeAll (.unary op e) fs
  | binary left op :: fs         => closeAll (.binary left op e) fs
  | assign target op :: fs       => closeAll (.binary (.name target) op e) fs
  | argument callee dollar :: fs => closeAll (.call callee dollar e) fs
  | fs                           => (e, fs)

/-- Puts a frame that counts toward the nesting on the stack, at the token that begins it. -/
def enter (frame : Frame) (t : Token) (stack : List Frame) : Except SyntaxError (List Frame) :=
  if depth stack < maxNesting then .ok (frame :: stack)
  else .error (.atToken t .nestedTooDeeply)

end Frame

namespace Expr

/-- A parse in progress. -/
structure State where
  stack : List Frame
  /-- What was read last, if a token may now continue it; otherwise an operand is expected. -/
  operand? : Option Expr
  /-- The finished trees, the last one first. -/
  done : List Expr
deriving DecidableEq

namespace State

/-- The parse before the first token. -/
def initial : State := ⟨[], none, []⟩

/-- Whether a token in operand position is a prefix operator, by the kind of the token after it. -/
def isPrefixOp (arities : Arities) (t : Token) (next : TokenKind) : Bool :=
  match t.kind with
  | .tilde | .minus => true
  | .identifier     => arities t.lexeme == some .unary && startsOperand next
  | _               => false

/-- Whether a token after an operand is a binary operator. -/
def isBinaryOp (arities : Arities) (t : Token) : Bool :=
  match t.kind with
  | .identifier => arities t.lexeme == some .binary
  | kind        => (BinaryOp.ofKind? kind).isSome

/-- Takes a token where an operand is expected. -/
def takeOperand (arities : Arities) (stack : List Frame) (done : List Expr) (t : Token)
    (next : TokenKind) : Except SyntaxError State :=
  if isPrefixOp arities t next then do
    return ⟨← Frame.enter (.prefixOp t) t stack, none, done⟩
  else
    match t.kind with
    | .identifier => .ok ⟨stack, some (.name t), done⟩
    | .number | .string | .trueWord | .falseWord | .nullWord =>
      match t.literal? with
      | some value => .ok ⟨stack, some (.literal t value), done⟩
      | none       => .error (.atToken t .invalidLiteral)
    | kind =>
      match Bracket.ofOpener? kind with
      | some bracket => do return ⟨← Frame.enter (.group t bracket) t stack, none, done⟩
      | none         => .error (.atToken t .expectExpression)

/-- Takes a binary operator after the operand `e`. -/
def takeBinaryOp (stack : List Frame) (e : Expr) (done : List Expr) (t : Token) :
    Except SyntaxError State := do
  let (e, stack) := Frame.closeOperand e stack
  match e, BinaryOp.ofKind? t.kind with
  | .name target, some .assign => return ⟨← Frame.enter (.assign target t) t stack, none, done⟩
  | e,            _            => return ⟨.binary e t :: stack, none, done⟩

/-- Takes `$` after the operand `e`. -/
def takeDollar (stack : List Frame) (e : Expr) (done : List Expr) (t : Token) : State :=
  let (e, stack) := if Frame.chains stack then (e, stack) else Frame.closeArgument e stack
  ⟨.argument e t :: stack, none, done⟩

/-- Takes a token that does not continue the expression that `e` ends. -/
def takeOther (arities : Arities) (stack : List Frame) (e : Expr) (done : List Expr) (t : Token)
    (next : TokenKind) : Except SyntaxError State :=
  match Frame.closeAll e stack with
  | (e, .group opener bracket :: stack) =>
    if t.kind = bracket.closer then .ok ⟨stack, some (.group opener e t), done⟩
    else .error (.atToken t (.expectCloser bracket))
  | (e, _) => takeOperand arities [] (e :: done) t next

/-- Takes one token, with the kind of the token after it in view. -/
def step (arities : Arities) (s : State) (t : Token) (next : TokenKind) :
    Except SyntaxError State :=
  match s.operand? with
  | none => takeOperand arities s.stack s.done t next
  | some e =>
    if t.kind = .dollar then .ok (takeDollar s.stack e s.done t)
    else if isBinaryOp arities t then takeBinaryOp s.stack e s.done t
    else takeOther arities s.stack e s.done t next

/-- Ends the parse at `stop`, the token for the end of input. -/
def finish (s : State) (stop : Token) : Except SyntaxError (List Expr) :=
  match s.operand?, s.stack with
  | none,   []     => .ok s.done.reverse
  | none,   _ :: _ => .error (.atToken stop .expectExpression)
  | some e, stack  =>
    match Frame.closeAll e stack with
    | (_, .group _ bracket :: _) => .error (.atToken stop (.expectCloser bracket))
    | (e, _)                     => .ok (e :: s.done).reverse

/-- Runs the machine over `tokens`, at the end of which stands `stop`. -/
def run (arities : Arities) (stop : Token) (s : State) : List Token → Except SyntaxError (List Expr)
  | []      => s.finish stop
  | t :: ts => do
    let s ← s.step arities t ((ts.head?.getD stop).kind)
    run arities stop s ts

end State

/-- The token that ends tokens without one: just after the last of them. -/
def endAfter (tokens : List Token) : Token :=
  match tokens.getLast? with
  | some t => ⟨.endOfInput, "", t.offset + t.length, t.line⟩
  | none   => ⟨.endOfInput, "", 0, 1⟩

/-- The tokens before the end of input, and the token that marks it. -/
def body (tokens : List Token) : List Token × Token :=
  (tokens.takeWhile (·.kind ≠ .endOfInput),
    (tokens.find? (·.kind = .endOfInput)).getD (endAfter tokens))

/-- The trees of all expressions up to the end of input; the first error ends the parse. -/
def parse (arities : Arities) (tokens : List Token) : Except SyntaxError (List Expr) :=
  let (tokens, stop) := body tokens
  State.run arities stop .initial tokens

end Expr

end ListCalc
