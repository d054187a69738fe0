import Calculator.Parser
import Calculator.Sources

/-! The value of an input: of the whole of it, or of the expression that it begins with. -/

namespace Calculator

namespace Lexer

/-- The value of the expression that the input consists of. -/
def evaluate (l : Lexer) (limit : Nat := recursionLimit) : Except EvalError Int32 :=
  (Parser.ofLexer l limit).whole.result

/-- The value of the longest expression that the input begins with, and the first token that is
not part of it. -/
def evaluateLeading (l : Lexer) (limit : Nat := recursionLimit) :
    Except EvalError (Int32 × Token) :=
  (Parser.ofLexer l limit).leading.result

end Lexer

/-- The value of a text. -/
def evaluate (text : String) : Except EvalError Int32 :=
  (Lexer.ofBytes (.ofString text)).evaluate

/-- The value of a text, or a message that says where in the text the error is. -/
def evaluateOrExplain (text : String) : Except String Int32 :=
  let (id, sources) := ({} : Sources).load "input" (.ofString text)
  match sources.get? id with
  | none => .error "the input could not be loaded"
  | some file =>
    match file.lexer.evaluate with
    | .ok v => .ok v
    | .error e => .error (sources.locateSpan e.span ++ " " ++ e.message)

end Calculator
