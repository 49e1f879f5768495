import ListCalc.Expr.Parse

/-!
# Proofs — the grammar of expressions

`Phrase arities k e` is the grammar: the tree `e` is a phrase of category `k`, one constructor for
each production.  It says nothing about which of several readings of a text is taken, and bounds
no nesting.  Three things more are needed before a text has one reading at most.

* `Expr.nesting`: how deep groups, prefix operators and assignments are nested.
* `Expr.Longest`: the tree could not have been read further, given the token that stands after it.
  A name bound to a unary operator is a plain name only where no operand can follow it, and the
  argument of `$` goes on over every infix operator.
* `IsForest`: the same for the trees of a source, none of which is followed by an infix operator.

A phrase begins with a token that can begin an operand (`Phrase.startsOperand_first`).
-/

namespace ListCalc

/-! ### Operator tokens -/

/-- The token joins two operands. -/
def InfixToken (arities : Arities) (t : Token) : Prop :=
  (BinaryOp.ofKind? t.kind).isSome ∨ t.kind = .identifier ∧ arities t.lexeme = some .binary

/-- The token stands before one operand. -/
def PrefixToken (arities : Arities) (t : Token) : Prop :=
  t.kind = .tilde ∨ t.kind = .minus ∨ t.kind = .identifier ∧ arities t.lexeme = some .unary

/-- The parser takes exactly these tokens as binary operators. -/
theorem isBinaryOp_iff {arities : Arities} {t : Token} :
    Expr.State.isBinaryOp arities t = true ↔ InfixToken arities t := by
  unfold Expr.State.isBinaryOp InfixToken
  split
  · rename_i h
    simp [h, BinaryOp.ofKind?]
  · rename_i h
    simp [show t.kind ≠ .identifier from h]

theorem isBinaryOp_eq_false {arities : Arities} {t : Token} (h : ¬ InfixToken arities t) :
    Expr.State.isBinaryOp arities t = false :=
  Bool.eq_false_iff.mpr fun ht => h (isBinaryOp_iff.mp ht)

theorem InfixToken.ne_dollar {arities : Arities} {t : Token} (h : InfixToken arities t) :
    t.kind ≠ .dollar := by
  intro hd
  rcases h with h | ⟨h, -⟩
  · rw [hd] at h
    cases h
  · rw [hd] at h
    cases h

/-- Only literal tokens have a constant. -/
theorem Token.kind_of_literal? {t : Token} {value : Literal} (h : t.literal? = some value) :
    t.kind = .number ∨ t.kind = .string ∨ t.kind = .trueWord ∨ t.kind = .falseWord ∨
      t.kind = .nullWord := by
  unfold Token.literal? at h
  split at h <;> simp_all

/-- Only the three opening brackets open a group. -/
theorem Bracket.kind_of_ofOpener? {k : TokenKind} {bracket : Bracket}
    (h : Bracket.ofOpener? k = some bracket) :
    k = .leftParen ∨ k = .leftBracket ∨ k = .leftBrace := by
  unfold Bracket.ofOpener? at h
  split at h <;> simp_all

/-! ### Categories and productions -/

/-- What a tree can be in the grammar.  `chain` says whether `$` may apply what is read: it may
not directly inside the argument of a `$`. -/
inductive Category where
  | expression (chain : Bool)
  /-- Operands joined by infix operators, grouped to the left. -/
  | series (chain : Bool)
  | operand (chain : Bool)
  | application (chain : Bool)
  | primary
deriving DecidableEq

/-- Whether `left op …` is an assignment to a name. -/
def Expr.assignsName : Expr → Token → Bool
  | name _, op => BinaryOp.ofKind? op.kind == some .assign
  | _,      _  => false

/-- The grammar: which trees are phrases of which category. -/
inductive Phrase (arities : Arities) : Category → Expr → Prop where
  | assign {chain : Bool} {target op : Token} {e : Expr} :
      target.kind = .identifier → BinaryOp.ofKind? op.kind = some .assign →
      Phrase arities (.expression chain) e →
      Phrase arities (.expression chain) (.binary (.name target) op e)
  | series {chain : Bool} {e : Expr} :
      Phrase arities (.series chain) e → Phrase arities (.expression chain) e
  | joined {chain : Bool} {left right : Expr} {op : Token} :
      Phrase arities (.series chain) left → InfixToken arities op →
      left.assignsName op = false →
      Phrase arities (.operand chain) right →
      Phrase arities (.series chain) (.binary left op right)
  | operand {chain : Bool} {e : Expr} :
      Phrase arities (.operand chain) e → Phrase arities (.series chain) e
  | prefixed {chain : Bool} {op : Token} {e : Expr} :
      PrefixToken arities op → Phrase arities (.operand chain) e →
      Phrase arities (.operand chain) (.unary op e)
  | application {chain : Bool} {e : Expr} :
      Phrase arities (.application chain) e → Phrase arities (.operand chain) e
  | call {callee argument : Expr} {dollar : Token} :
      Phrase arities (.application true) callee → dollar.kind = .dollar →
      Phrase arities (.expression false) argument →
      Phrase arities (.application true) (.call callee dollar argument)
  | primary {chain : Bool} {e : Expr} :
      Phrase arities .primary e → Phrase arities (.application chain) e
  | literal {t : Token} {value : Literal} :
      t.literal? = some value → Phrase arities .primary (.literal t value)
  | name {t : Token} :
      t.kind = .identifier → Phrase arities .primary (.name t)
  | group {opener closer : Token} {bracket : Bracket} {e : Expr} :
      Bracket.ofOpener? opener.kind = some bracket → Phrase arities (.expression true) e →
      closer.kind = bracket.closer → Phrase arities .primary (.group opener e closer)

/-- In every category, a plain name is an identifier. -/
theorem Phrase.kind_of_name {arities : Arities} {k : Category} {t : Token}
    (h : Phrase arities k (.name t)) : t.kind = .identifier := by
  generalize he : Expr.name t = e at h
  induction h with
  | assign => cases he
  | series _ ih => exact ih he
  | joined => cases he
  | operand _ ih => exact ih he
  | prefixed => cases he
  | application _ ih => exact ih he
  | call => cases he
  | primary _ ih => exact ih he
  | literal => cases he
  | name h => cases he; exact h
  | group => cases he

namespace Expr

/-! ### The first token of a tree -/

/-- The leftmost token of the tree. -/
def first : Expr → Token
  | literal t _      => t
  | name t           => t
  | group opener _ _ => opener
  | unary op _       => op
  | binary l _ _     => l.first
  | call f _ _       => f.first

/-- A tree has tokens, and begins with its first one. -/
theorem exists_tokens_eq (e : Expr) : ∃ ts, e.tokens = e.first :: ts := by
  induction e with
  | literal t v => exact ⟨[], rfl⟩
  | name t => exact ⟨[], rfl⟩
  | group o e c ih => exact ⟨_, rfl⟩
  | unary op e ih => exact ⟨_, rfl⟩
  | binary l op r ihl ihr =>
    obtain ⟨ts, h⟩ := ihl
    exact ⟨ts ++ op :: r.tokens, by simp [tokens, first, h]⟩
  | call f d a ihf iha =>
    obtain ⟨ts, h⟩ := ihf
    exact ⟨ts ++ d :: a.tokens, by simp [tokens, first, h]⟩

theorem head?_tokens_append (e : Expr) (ts : List Token) :
    (e.tokens ++ ts).head? = some e.first := by
  obtain ⟨us, h⟩ := e.exists_tokens_eq
  simp [h]

/-- A name is assigned to only by an assignment to a name. -/
theorem assignsName_eq_true {e : Expr} {op : Token} (h : e.assignsName op = true) :
    ∃ target, e = .name target ∧ BinaryOp.ofKind? op.kind = some .assign := by
  cases e with
  | name target => exact ⟨target, rfl, eq_of_beq h⟩
  | _ => cases h

/-! ### Nesting and longest readings -/

/-- How deep groups, prefix operators and assignments to names are nested. -/
def nesting : Expr → Nat
  | literal _ _   => 0
  | name _        => 0
  | group _ e _   => e.nesting + 1
  | unary _ e     => e.nesting + 1
  | binary l op r => if l.assignsName op then r.nesting + 1 else max l.nesting r.nesting
  | call f _ a    => max f.nesting a.nesting

/-- The tree, standing before the token `next`, could not have been read further. -/
def Longest (arities : Arities) : Expr → Token → Prop
  | literal _ _,   _    => True
  | name t,        next => arities t.lexeme = some .unary → startsOperand next.kind = false
  | group _ e c,   _    => e.Longest arities c
  | unary _ e,     next => e.Longest arities next
  | binary l op r, next => l.Longest arities op ∧ r.Longest arities next
  | call f d a,    next =>
    f.Longest arities d ∧ a.Longest arities next ∧ ¬ InfixToken arities next

/-- An assignment is one level deeper than its right side. -/
theorem nesting_assign {target op : Token} {e : Expr}
    (h : BinaryOp.ofKind? op.kind = some .assign) :
    (binary (.name target) op e).nesting = e.nesting + 1 := by
  simp [nesting, assignsName, h]

/-- A binary operator is as deep as the deeper one of its sides. -/
theorem nesting_joined {l r : Expr} {op : Token} (h : l.assignsName op = false) :
    (binary l op r).nesting = max l.nesting r.nesting := by
  simp [nesting, h]

end Expr

/-- A phrase begins with a token that can begin an operand. -/
theorem Phrase.startsOperand_first {arities : Arities} {k : Category} {e : Expr}
    (h : Phrase arities k e) : startsOperand e.first.kind = true := by
  induction h with
  | assign ht => simp [Expr.first, ht, startsOperand]
  | series _ ih => exact ih
  | joined _ _ _ _ ihl => exact ihl
  | operand _ ih => exact ih
  | prefixed hop =>
    rcases hop with h | h | ⟨h, -⟩ <;> simp [Expr.first, h, startsOperand]
  | application _ ih => exact ih
  | call _ _ _ ihf => exact ihf
  | primary _ ih => exact ih
  | literal h =>
    rcases Token.kind_of_literal? h with h | h | h | h | h <;>
      simp [Expr.first, h, startsOperand]
  | name ht => simp [Expr.first, ht, startsOperand]
  | group hb =>
    rcases Bracket.kind_of_ofOpener? hb with h | h | h <;> simp [Expr.first, h, startsOperand]

/-! ### The trees of a source -/

/-- The token after which come `forest` and then `stop`: the first of the forest, if any. -/
def firstOf (forest : List Expr) (stop : Token) : Token :=
  match forest with
  | []     => stop
  | e :: _ => e.first

/-- Each of the trees, the last one standing before `stop`, could not have been read further. -/
def LongestForest (arities : Arities) (stop : Token) : List Expr → Prop
  | []      => True
  | e :: es =>
    e.Longest arities (firstOf es stop) ∧ ¬ InfixToken arities (firstOf es stop) ∧
      LongestForest arities stop es

/-- The trees of a source that ends at `stop`. -/
structure IsForest (arities : Arities) (stop : Token) (forest : List Expr) : Prop where
  phrases : ∀ e ∈ forest, Phrase arities (.expression true) e
  nesting : ∀ e ∈ forest, e.nesting ≤ maxNesting
  longest : LongestForest arities stop forest

theorem head?_forestTokens (forest : List Expr) (stop : Token) :
    ((forest.flatMap Expr.tokens).head?).getD stop = firstOf forest stop := by
  cases forest with
  | nil => rfl
  | cons e es => simp [List.flatMap_cons, e.head?_tokens_append, firstOf]

end ListCalc
