import Calculator.Parser

/-! Expressions as trees, with the stretch of the input that each token of them takes up. A tree
says what the value of an expression is, and where an expression without a value is at fault,
without any parsing. -/

namespace Calculator

/-- The phrases of each level of the grammar. -/
inductive Expr : Level → Type where
  | literal (n : UInt32) (span : Span) : Expr .primary
  | paren (opening : Span) (body : Expr .sum) (closing : Span) : Expr .primary
  | unsigned (e : Expr .primary) : Expr .unary
  | negated (sign : Span) (e : Expr .primary) : Expr .unary
  | factor (e : Expr .unary) : Expr .product
  | product (left : Expr .product) (op : BinOp) (h : op ∈ Level.product.operators) (sign : Span)
      (right : Expr .unary) : Expr .product
  | term (e : Expr .product) : Expr .sum
  | sum (left : Expr .sum) (op : BinOp) (h : op ∈ Level.sum.operators) (sign : Span)
      (right : Expr .product) : Expr .sum

namespace Expr

/-- The tokens of an expression from left to right. -/
def tokens {l : Level} : Expr l → List Token
  | .literal n span => [{ value := .uint n, span }]
  | .paren opening body closing =>
    .ofByte openParen opening :: body.tokens ++ [.ofByte closeParen closing]
  | .unsigned e | .factor e | .term e => e.tokens
  | .negated sign e => .ofByte UnOp.negate.byte sign :: e.tokens
  | .product left op _ sign right | .sum left op _ sign right =>
    left.tokens ++ .ofByte op.byte sign :: right.tokens

/-- How deep parentheses nest. -/
def depth {l : Level} : Expr l → Nat
  | .literal _ _ => 0
  | .paren _ body _ => body.depth + 1
  | .unsigned e | .factor e | .term e | .negated _ e => e.depth
  | .product left _ _ _ right | .sum left _ _ _ right => max left.depth right.depth

/-- Where the first token starts. -/
def start {l : Level} : Expr l → Position
  | .literal _ span | .paren span _ _ | .negated span _ => span.start
  | .unsigned e | .factor e | .term e => e.start
  | .product left .. | .sum left .. => left.start

/-- Where the last token ends. -/
def stop {l : Level} : Expr l → Position
  | .literal _ span | .paren _ _ span => span.stop
  | .unsigned e | .factor e | .term e | .negated _ e => e.stop
  | .product _ _ _ _ right | .sum _ _ _ _ right => right.stop

/-- The value of an expression: operands from left to right, then the operation. A division by
zero takes up the stretch from its first token to the last one of the divisor. -/
def evaluate {l : Level} : Expr l → Except Span Int32
  | .literal n _ => .ok (literalValue n)
  | .paren _ e _ | .unsigned e | .factor e | .term e => e.evaluate
  | .negated _ e => e.evaluate.map UnOp.negate.apply
  | .product left op _ _ right | .sum left op _ _ right => do
    let a ← left.evaluate
    let b ← right.evaluate
    match op.apply a b with
    | .ok v => .ok v
    | .error .divisionByZero => .error ⟨left.start, right.stop⟩

theorem head?_tokens {l : Level} (e : Expr l) :
    ∃ t, e.tokens.head? = some t ∧ t.span.start = e.start := by
  induction e with
  | literal | paren | negated => exact ⟨_, rfl, rfl⟩
  | unsigned _ ih | factor _ ih | term _ ih => exact ih
  | product _ _ _ _ _ ih | sum _ _ _ _ _ ih =>
    obtain ⟨t, ht, hs⟩ := ih
    exact ⟨t, by simp [tokens, ht], hs⟩

theorem getLast?_tokens {l : Level} (e : Expr l) :
    ∃ t, e.tokens.getLast? = some t ∧ t.span.stop = e.stop := by
  induction e with
  | literal => exact ⟨_, rfl, rfl⟩
  | paren => exact ⟨_, List.getLast?_concat, rfl⟩
  | unsigned _ ih | factor _ ih | term _ ih => exact ih
  | negated _ _ ih =>
    obtain ⟨t, ht, hs⟩ := ih
    exact ⟨t, by simp [tokens, List.getLast?_cons, ht], hs⟩
  | product _ _ _ _ _ _ ih | sum _ _ _ _ _ _ ih =>
    obtain ⟨t, ht, hs⟩ := ih
    exact ⟨t, by simp [tokens, List.getLast?_append, List.getLast?_cons, ht], hs⟩

end Expr
end Calculator
