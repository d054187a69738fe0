import Calculator.Arith
import Calculator.Token

/-! Why an input has no value. -/

namespace Calculator

inductive EvalError where
  /-- The grammar asks for a token of some other kind. -/
  | unexpectedToken (expected : List Token.Kind) (actual : Token)
  /-- The span is that of the division. -/
  | divisionByZero (span : Span)
  /-- The span is that of the parenthesis that opens one level too many. -/
  | recursionLimit (span : Span)
deriving DecidableEq

namespace EvalError

def span : EvalError → Span
  | .unexpectedToken _ actual => actual.span
  | .divisionByZero span => span
  | .recursionLimit span => span

def message : EvalError → String
  | .unexpectedToken expected actual =>
    "encountered an unexpected token: " ++ actual.text ++
      if expected = [] then "" else " (expected " ++ Token.Kind.choiceText expected ++ ")"
  | .divisionByZero _ => ArithError.divisionByZero.message
  | .recursionLimit _ => "a recursion limit has been reached while parsing"

end EvalError
end Calculator
