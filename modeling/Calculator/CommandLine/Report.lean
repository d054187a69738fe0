import Calculator.Diagnostic
import Calculator.Sources

/-! Diagnostics as lines on a terminal. -/

namespace Calculator.CommandLine

inductive Palette where
  | plain
  | coloured
deriving DecidableEq

/-- The label of a severity, which is five characters wide. -/
def severityLabel : Severity → String
  | .fatal => "FATAL"
  | .error => "ERROR"
  | .warning => "WARN "

/-- The number of the foreground colour: red, bright red and yellow. -/
def severityColour : Severity → String
  | .fatal => "31"
  | .error => "91"
  | .warning => "33"

/-- A label between the codes that switch its colour on and back to the default. -/
def Palette.label (p : Palette) (s : Severity) : String :=
  match p with
  | .plain => severityLabel s
  | .coloured => "\x1b[" ++ severityColour s ++ "m" ++ severityLabel s ++ "\x1b[39m"

/-- What follows the label: the message after its place, if it has one, or else before the
cause. -/
def diagnosticText (sources : Sources) (d : Diagnostic) : String :=
  match d.message.span, d.cause with
  | some span, _ => sources.locateSpan span ++ " " ++ d.message.text
  | none, some cause => d.message.text ++ ": " ++ cause.message
  | none, none => d.message.text

def diagnosticLine (p : Palette) (sources : Sources) (d : Diagnostic) : String :=
  p.label d.severity ++ " " ++ diagnosticText sources d ++ "\n"

end Calculator.CommandLine
