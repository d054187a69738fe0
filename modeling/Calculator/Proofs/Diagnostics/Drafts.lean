import Calculator.Diagnostic

/-!
# Diagnostics made of parts

What comes of a draft that messages, causes and errors are added to before it is emitted, in any
order and however many of them (`Diagnostic.Draft.ofParts`). The last message counts, wherever it
stands, and without a message the first error speaks for itself. The last cause counts, and causes
alone make no diagnostic (`Diagnostics.emissionLaw`).
-/

namespace Calculator

/-- The last of some values is there also when one comes in front of them. -/
private theorem getLast?_cons_or {α : Type} (a : α) (as : List α) (b : Option α) :
    (a :: as).getLast?.or b = as.getLast?.or (some a) := by
  rw [List.getLast?_cons]
  cases as.getLast? <;> rfl

/-- What an error says of itself. -/
def Message.ofError (e : SpannedError) : Message := { text := e.text, span := some e.span }

namespace Diagnostic

/-- What can be added to a draft. -/
inductive Part where
  | message (m : Message)
  | cause (c : Cause)
  | error (e : SpannedError)

namespace Part

def message? : Part → Option Message
  | .message m => some m
  | .cause _ | .error _ => none

def error? : Part → Option SpannedError
  | .error e => some e
  | .message _ | .cause _ => none

def cause? : Part → Option Cause
  | .message _ => none
  | .cause c => some c
  | .error e => some e.cause

end Part

variable {parts : List Part}

/-- The message that was added last. -/
def lastMessage? (parts : List Part) : Option Message := (parts.filterMap Part.message?).getLast?

/-- The error that was added first. -/
def firstError? (parts : List Part) : Option SpannedError := (parts.filterMap Part.error?).head?

/-- The cause that was added last, be it on its own or as an error. -/
def lastCause? (parts : List Part) : Option Cause := (parts.filterMap Part.cause?).getLast?

theorem lastMessage?_eq_none_iff : lastMessage? parts = none ↔ ∀ m, .message m ∉ parts := by
  rw [lastMessage?, List.getLast?_eq_none_iff, List.filterMap_eq_nil_iff]
  constructor
  · intro h m hm
    cases h _ hm
  · intro h part hp
    cases part with
    | message m => exact absurd hp (h m)
    | cause | error => rfl

theorem firstError?_eq_none_iff : firstError? parts = none ↔ ∀ e, .error e ∉ parts := by
  rw [firstError?, List.head?_eq_none_iff, List.filterMap_eq_nil_iff]
  constructor
  · intro h e he
    cases h _ he
  · intro h part hp
    cases part with
    | error e => exact absurd hp (h e)
    | message | cause => rfl

namespace Draft

def add (d : Draft) : Part → Draft
  | .message m => d.withMessage m
  | .cause c => d.withCause c
  | .error e => d.withError e

def ofParts (severity : Severity) (parts : List Part) : Draft := parts.foldl add { severity }

/-- What parts make of a draft. A message that is there already comes behind a new one, but before
what an error says. -/
theorem foldl_add (d : Draft) (parts : List Part) :
    parts.foldl add d = {
      severity := d.severity
      message := (lastMessage? parts).or (d.message.or ((firstError? parts).map .ofError))
      cause := (lastCause? parts).or d.cause } := by
  induction parts generalizing d with
  | nil => simp [lastMessage?, firstError?, lastCause?]
  | cons part parts ih =>
    rw [List.foldl_cons, ih]
    cases part with
    | message m =>
      simp only [add, withMessage, lastMessage?, firstError?, lastCause?, Part.message?,
        Part.error?, Part.cause?, List.filterMap_cons, getLast?_cons_or, Option.some_or]
    | cause c =>
      simp only [add, withCause, lastMessage?, firstError?, lastCause?, Part.message?,
        Part.error?, Part.cause?, List.filterMap_cons, getLast?_cons_or]
    | error e =>
      simp only [add, withError, lastMessage?, firstError?, lastCause?, Part.message?,
        Part.error?, Part.cause?, List.filterMap_cons, getLast?_cons_or, List.head?_cons,
        Option.map_some]
      cases d.message <;> rfl

theorem ofParts_eq (severity : Severity) (parts : List Part) :
    ofParts severity parts = {
      severity
      message := (lastMessage? parts).or ((firstError? parts).map .ofError)
      cause := lastCause? parts } := by
  rw [ofParts, foldl_add, Option.none_or, Option.or_none]

end Draft
end Diagnostic

namespace Diagnostics

open Diagnostic

/-- What comes of emitting a draft of some severity that parts were added to. -/
structure EmissionLaw {Emitter : Type} (ds : Diagnostics Emitter) (severity : Severity)
    (parts : List Part) : Prop where
  /-- The last message is the one that counts, whether errors come before or behind it. -/
  of_message {m : Message} (h : lastMessage? parts = some m) :
    ds.emit (.ofParts severity parts) = (.ok (), ds.record ⟨severity, m, lastCause? parts⟩)
  /-- Without a message, the text and the place are those of the first error. -/
  of_error {e : SpannedError} (hm : ∀ m, .message m ∉ parts) (h : firstError? parts = some e) :
    ds.emit (.ofParts severity parts) =
      (.ok (), ds.record ⟨severity, { text := e.text, span := some e.span }, lastCause? parts⟩)
  fails_iff : (ds.emit (.ofParts severity parts)).1 = .error .noMessage ↔
    (∀ m, .message m ∉ parts) ∧ ∀ e, .error e ∉ parts

/-- Whatever is added to a draft, and in whichever order: the last message is emitted, or else what
the first error says, with the last cause, and emitting fails exactly if there is neither a message
nor an error. -/
theorem emissionLaw {Emitter : Type} (ds : Diagnostics Emitter) (severity : Severity)
    (parts : List Part) : EmissionLaw ds severity parts where
  of_message h := by
    rw [Draft.ofParts_eq, h]
    exact emit_of_message rfl
  of_error hm h := by
    rw [Draft.ofParts_eq, lastMessage?_eq_none_iff.mpr hm, h]
    exact emit_of_message rfl
  fails_iff := by
    rw [emit_eq_error_iff, Draft.ofParts_eq, ← lastMessage?_eq_none_iff,
      ← firstError?_eq_none_iff, Option.or_eq_none_iff, Option.map_eq_none_iff]

/-- A message between two errors counts, and the second error is the cause. -/
theorem emit_message_between_errors :
    let zero (line : Nat) : EvalError := .divisionByZero ⟨{ line }, { line }⟩
    let parts : List Part := [.message { text := "a" }, .error (zero 1).spanned,
      .message { text := "b" }, .error (zero 2).spanned]
    lastMessage? parts = some { text := "b" } ∧
      (({} : Diagnostics Unit).emit (.ofParts .warning parts)).2.recorded =
        [⟨.warning, { text := "b" }, some (.evaluation (zero 2))⟩] := by
  intro zero parts
  have h : lastMessage? parts = some { text := "b" } := rfl
  refine ⟨h, ?_⟩
  rw [(emissionLaw {} .warning parts).of_message h]
  rfl

end Diagnostics
end Calculator
