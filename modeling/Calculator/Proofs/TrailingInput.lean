import Calculator.Evaluate
import Calculator.Proofs.Parser.Rules

/-!
# What follows an expression

Evaluating the whole input and evaluating what it begins with differ only in what they make of
tokens that follow a complete expression (`Lexer.agreement`). That the end of the input is expected,
and nothing else, is never said of any other error (`Parser.Fails.ne_trailing`).
-/

namespace Calculator

/-- The error of a whole input in which a token follows a complete expression. -/
def EvalError.trailing (t : Token) : EvalError := .unexpectedToken [.eof] t

/-- No rule inside an expression asks for the end of the input alone. -/
theorem Parser.Fails.ne_trailing {c : Call} {p q : Parser} {e : EvalError} (h : Fails c p e q)
    (t : Token) : e ≠ .trailing t := by
  induction h with
  | operand _ _ ih | joined _ _ _ ih | negated _ _ ih | unsigned _ _ ih | paren _ _ _ ih
  | linkOperand _ _ ih | link _ _ _ _ ih => exact ih
  | noOperand => exact fun he => nomatch (EvalError.unexpectedToken.inj he).1
  | unclosed => exact fun he => nomatch (EvalError.unexpectedToken.inj he).1
  | tooDeep | zeroDivisor => exact nofun

/-- What the whole of an input comes to, beside what it begins with. -/
inductive Agreement : Except EvalError Int32 → Except EvalError (Int32 × Token) → Prop
  /-- The expression is all there is. -/
  | complete {v : Int32} {t : Token} (ht : t.isEof = true) : Agreement (.ok v) (.ok (v, t))
  /-- A token follows the expression, and this is the error. -/
  | trailing {v : Int32} {t : Token} (ht : t.isEof = false) :
    Agreement (.error (.trailing t)) (.ok (v, t))
  /-- The error is in the expression. -/
  | failed {e : EvalError} (he : ∀ t, e ≠ .trailing t) : Agreement (.error e) (.error e)

theorem Parser.agreement (p : Parser) : Agreement p.whole.result p.leading.result := by
  cases ends (.phrase .sum) p with
  | @gives v q h =>
    rw [leading_of_gives h]
    cases ht : q.token.isEof with
    | true =>
      rw [whole_of_eof h ht]
      exact .complete ht
    | false =>
      rw [whole_of_trailing h ht]
      exact .trailing ht
  | fails h =>
    rw [leading_of_fails h, whole_of_fails h]
    exact .failed h.ne_trailing

theorem Lexer.agreement (l : Lexer) (limit : Nat) :
    Agreement (l.evaluate limit) (l.evaluateLeading limit) :=
  (Parser.ofLexer l limit).agreement

end Calculator
