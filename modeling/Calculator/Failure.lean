/-! Why bytes could not be read or written. -/

namespace Calculator

inductive Failure where
  | notFound
  | notADirectory
  | isADirectory
  | noSpace
  /-- Anything else, with a text of its own. -/
  | other (text : String)
deriving DecidableEq

/-- The system's text and number for the failure. -/
def Failure.message : Failure → String
  | .notFound => "No such file or directory (os error 2)"
  | .notADirectory => "Not a directory (os error 20)"
  | .isADirectory => "Is a directory (os error 21)"
  | .noSpace => "No space left on device (os error 28)"
  | .other text => text

end Calculator
