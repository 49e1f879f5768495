import ListCalc.Token.Basic

/-!
# Expr — expression trees

Each top-level expression of a source is one tree.  A tree keeps every token it was read from:
`Expr.tokens` lists them in source order.  `Expr.token` is the one that a diagnostic about the tree
points at, and `Expr.written` is the tree in parenthesised operator-first form,
`(+ 1 (group 2))`.
-/

namespace ListCalc

/-- An expression with the tokens it was read from. -/
inductive Expr where
  | literal (token : Token) (value : Literal)
  | name (token : Token)
  | group (opener : Token) (inner : Expr) (closer : Token)
  | unary (op : Token) (operand : Expr)
  | binary (left : Expr) (op : Token) (right : Expr)
  | call (callee : Expr) (dollar : Token) (argument : Expr)
deriving DecidableEq, Inhabited

namespace Expr

/-- The token that a diagnostic about the tree points at. -/
def token : Expr → Token
  | literal t _   => t
  | name t        => t
  | group _ e _   => e.token
  | unary op _    => op
  | binary _ op _ => op
  | call _ t _    => t

/-- The tree in parenthesised form, operators first. -/
def written : Expr → String
  | literal _ value => value.written
  | name t          => t.lexeme
  | group _ e _     => "(group " ++ e.written ++ ")"
  | unary op e      => "(" ++ op.lexeme ++ " " ++ e.written ++ ")"
  | binary l op r   => "(" ++ op.lexeme ++ " " ++ l.written ++ " " ++ r.written ++ ")"
  | call f _ a      => "($ " ++ f.written ++ " " ++ a.written ++ ")"

/-- The tokens of the tree, from left to right. -/
def tokens : Expr → List Token
  | literal t _            => [t]
  | name t                 => [t]
  | group opener e closer  => opener :: e.tokens ++ [closer]
  | unary op e             => op :: e.tokens
  | binary l op r          => l.tokens ++ op :: r.tokens
  | call f dollar a        => f.tokens ++ dollar :: a.tokens

/-- A diagnostic about a tree points at one of its own tokens. -/
theorem token_mem_tokens (e : Expr) : e.token ∈ e.tokens := by
  induction e with
  | literal t v => simp [token, tokens]
  | name t => simp [token, tokens]
  | group o e c ih => simp [token, tokens, ih]
  | unary op e ih => simp [token, tokens]
  | binary l op r ihl ihr => simp [token, tokens]
  | call f d a ihf iha => simp [token, tokens]

end Expr

end ListCalc
