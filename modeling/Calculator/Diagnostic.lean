import Calculator.EvalError
import Calculator.Failure

/-! Messages for the user, and the record that is kept of them. -/

namespace Calculator

inductive Severity where
  | fatal
  | error
  | warning
deriving DecidableEq

namespace Severity

/-- The most severe comes first. -/
def rank : Severity → Nat
  | .fatal => 0
  | .error => 1
  | .warning => 2

def isError (s : Severity) : Bool := s.rank ≤ Severity.error.rank

end Severity

inductive Cause where
  | failure (f : Failure)
  | evaluation (e : EvalError)
deriving DecidableEq

def Cause.message : Cause → String
  | .failure f => f.message
  | .evaluation e => e.message

/-- An error that has a text and a place of its own, and can be the cause of a diagnostic. -/
structure SpannedError where
  text : String
  span : Span
  cause : Cause
deriving DecidableEq

def EvalError.spanned (e : EvalError) : SpannedError where
  text := e.message
  span := e.span
  cause := .evaluation e

structure Message where
  text : String
  span : Option Span := none
deriving DecidableEq

structure Diagnostic where
  severity : Severity
  message : Message
  cause : Option Cause := none
deriving DecidableEq

/-- A diagnostic in the making. -/
structure Diagnostic.Draft where
  severity : Severity
  message : Option Message := none
  cause : Option Cause := none
deriving DecidableEq

inductive Diagnostic.DraftError where
  | noMessage
deriving DecidableEq

namespace Diagnostic.Draft

/-- Sets the message, in place of any other. -/
def withMessage (d : Draft) (m : Message) : Draft := { d with message := some m }

/-- Sets the cause, in place of any other. -/
def withCause (d : Draft) (c : Cause) : Draft := { d with cause := some c }

/-- Makes an error the cause. It gives the message and the place too, unless there is a message
already. -/
def withError (d : Draft) (e : SpannedError) : Draft :=
  { d with
    message := d.message <|> some { text := e.text, span := some e.span }
    cause := some e.cause }

/-- A diagnostic has to have a message. -/
def finish (d : Draft) : Except DraftError Diagnostic :=
  match d.message with
  | some message => .ok { severity := d.severity, message, cause := d.cause }
  | none => .error .noMessage

end Diagnostic.Draft

/-- The diagnostics of a session. An emitter, where one is installed, is handed each of them as
soon as it comes up; `delivered` is what emitters were handed so far. -/
structure Diagnostics (Emitter : Type) where
  recorded : List Diagnostic := []
  emitter : Option Emitter := none
  delivered : List (Emitter × Diagnostic) := []

namespace Diagnostics

variable {Emitter : Type}

/-- Installs an emitter for the diagnostics that are still to come. -/
def setEmitter (ds : Diagnostics Emitter) (e : Emitter) : Diagnostics Emitter :=
  { ds with emitter := some e }

/-- Hands a diagnostic to the emitter, where one is installed. -/
def notify (ds : Diagnostics Emitter) (d : Diagnostic) : Diagnostics Emitter :=
  { ds with delivered := ds.delivered ++ (ds.emitter.map (·, d)).toList }

def push (ds : Diagnostics Emitter) (d : Diagnostic) : Diagnostics Emitter :=
  { ds with recorded := ds.recorded ++ [d] }

/-- The emitter hears of a diagnostic before it is on record. -/
def record (ds : Diagnostics Emitter) (d : Diagnostic) : Diagnostics Emitter :=
  (ds.notify d).push d

/-- Steps that change the record, up to one that fails. -/
abbrev Steps (Emitter α : Type) := ExceptT Diagnostic.DraftError (StateM (Diagnostics Emitter)) α

/-- A draft is finished before anything else is done. -/
def emission (draft : Diagnostic.Draft) : Steps Emitter Unit := do
  let d ← draft.finish
  modify (·.notify d)
  modify (·.push d)

/-- Emits a draft. The record comes with the result also where this fails. -/
def emit (ds : Diagnostics Emitter) (draft : Diagnostic.Draft) :
    Except Diagnostic.DraftError Unit × Diagnostics Emitter :=
  ((emission draft).run.run ds).run

/-- What emitters were handed since the record was as in `before`. -/
def deliveredSince (before ds : Diagnostics Emitter) : List (Emitter × Diagnostic) :=
  ds.delivered.drop before.delivered.length

section
variable {ds : Diagnostics Emitter} {draft : Diagnostic.Draft}

theorem emit_of_message {message : Message} (h : draft.message = some message) :
    ds.emit draft = (.ok (), ds.record ⟨draft.severity, message, draft.cause⟩) := by
  rw [emit, emission, Diagnostic.Draft.finish, h]
  rfl

theorem emit_of_none (h : draft.message = none) : ds.emit draft = (.error .noMessage, ds) := by
  rw [emit, emission, Diagnostic.Draft.finish, h]
  rfl

theorem emit_eq_error_iff : (ds.emit draft).1 = .error .noMessage ↔ draft.message = none := by
  cases h : draft.message with
  | none => simp [emit_of_none h]
  | some message => simp [emit_of_message h]

theorem deliveredSince_record (d : Diagnostic) :
    ds.deliveredSince (ds.record d) = (ds.emitter.map (·, d)).toList :=
  List.drop_left

end

def hasErrors (ds : Diagnostics Emitter) : Bool := ds.recorded.any (·.severity.isError)

end Diagnostics
end Calculator
