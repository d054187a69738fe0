import Mathlib.Data.List.Basic
import Mathlib.Data.List.Induction
import Calculator.Diagnostic

/-!
# Recorded and delivered once

What a record of diagnostics holds after emitters were installed and drafts emitted in any order.
Every draft with a message is recorded and handed once to the emitter that was installed last
before it, and a draft without one leaves no trace (`Diagnostics.deliveryLaw`).
-/

namespace Calculator

theorem Severity.isError_iff (s : Severity) : s.isError = true ↔ s = .error ∨ s = .fatal := by
  cases s <;> decide

theorem Severity.isError_eq_false_iff (s : Severity) : s.isError = false ↔ s = .warning := by
  cases s <;> decide

namespace Diagnostics
variable {Emitter : Type}

/-- What is asked of a record of diagnostics. -/
inductive Event (Emitter : Type) where
  | install (e : Emitter)
  | attempt (draft : Diagnostic.Draft)

namespace Event

/-- The emitter that an event installs. -/
def emitter? : Event Emitter → Option Emitter
  | .install e => some e
  | .attempt _ => none

/-- The diagnostic that an event brings up, which takes a message. -/
def diagnostic? : Event Emitter → Option Diagnostic
  | .install _ => none
  | .attempt draft => draft.message.map fun message => ⟨draft.severity, message, draft.cause⟩

/-- The answer to an event, and the record after it. -/
def run (ds : Diagnostics Emitter) :
    Event Emitter → Except Diagnostic.DraftError Unit × Diagnostics Emitter
  | .install e => (.ok (), ds.setEmitter e)
  | .attempt draft => ds.emit draft

end Event

/-- The record after events, from an empty one on. -/
def after (events : List (Event Emitter)) : Diagnostics Emitter :=
  events.foldl (fun ds event => (event.run ds).2) {}

/-- The emitter that was installed last. -/
def installed? (events : List (Event Emitter)) : Option Emitter :=
  (events.filterMap Event.emitter?).getLast?

/-- What an emitter is handed at the `i`th event: the diagnostic, if there is one, for the emitter
that was installed last before. -/
def delivery? (events : List (Event Emitter)) (i : Nat) : Option (Emitter × Diagnostic) :=
  (events[i]?.bind Event.diagnostic?).bind fun d => (installed? (events.take i)).map (·, d)

variable {ds : Diagnostics Emitter} {events : List (Event Emitter)} {draft : Diagnostic.Draft}

/-! ### Single events -/

/-- What an event does to a record. -/
theorem run_eq (event : Event Emitter) (ds : Diagnostics Emitter) :
    (event.run ds).2 = {
      recorded := ds.recorded ++ event.diagnostic?.toList
      emitter := event.emitter?.or ds.emitter
      delivered := ds.delivered ++
        (event.diagnostic?.bind fun d => ds.emitter.map (·, d)).toList } := by
  cases event with
  | install e => simp [Event.run, setEmitter, Event.diagnostic?, Event.emitter?]
  | attempt draft =>
    cases h : draft.message with
    | none => simp [Event.run, emit_of_none h, Event.diagnostic?, Event.emitter?, h]
    | some message =>
      simp [Event.run, emit_of_message h, record, notify, push, Event.diagnostic?, Event.emitter?,
        h]

/-! ### Events one after the other -/

theorem after_append (events more : List (Event Emitter)) :
    after (events ++ more) = more.foldl (fun ds event => (event.run ds).2) (after events) :=
  List.foldl_append

theorem after_concat (events : List (Event Emitter)) (event : Event Emitter) :
    after (events ++ [event]) = (event.run (after events)).2 := after_append events [event]

theorem installed?_concat (events : List (Event Emitter)) (event : Event Emitter) :
    installed? (events ++ [event]) = event.emitter?.or (installed? events) := by
  rw [installed?, List.filterMap_append, List.getLast?_append]
  cases h : event.emitter? <;> simp [h, installed?]

/-- What was handed out before does not depend on what comes later. -/
theorem delivery?_concat_of_lt {i : Nat} (h : i < events.length) (event : Event Emitter) :
    delivery? (events ++ [event]) i = delivery? events i := by
  rw [delivery?, List.getElem?_append_left h, List.take_append_of_le_length (Nat.le_of_lt h)]
  rfl

theorem delivery?_concat_length (events : List (Event Emitter)) (event : Event Emitter) :
    delivery? (events ++ [event]) events.length =
      event.diagnostic?.bind fun d => (installed? events).map (·, d) := by
  rw [delivery?, List.getElem?_concat_length, List.take_left]
  rfl

/-- The whole record from the events. -/
theorem after_eq (events : List (Event Emitter)) :
    after events = {
      recorded := events.filterMap Event.diagnostic?
      emitter := installed? events
      delivered := (List.range events.length).filterMap (delivery? events) } := by
  induction events using List.reverseRecOn with
  | nil => rfl
  | append_singleton events event ih =>
    have hd : (List.range events.length).filterMap (delivery? (events ++ [event])) =
        (List.range events.length).filterMap (delivery? events) :=
      List.filterMap_congr fun i hi => delivery?_concat_of_lt (List.mem_range.mp hi) event
    rw [after_concat, run_eq, ih, List.filterMap_append, installed?_concat, List.length_append,
      List.length_singleton, List.range_succ, List.filterMap_append, hd]
    simp only [List.filterMap_cons, List.filterMap_nil, delivery?_concat_length]
    cases event.diagnostic? <;> cases installed? events <;> rfl

/-! ### The law -/

/-- What events leave behind in a record that was empty before them. -/
structure DeliveryLaw (events : List (Event Emitter)) : Prop where
  /-- What was brought up is recorded, and nothing else. -/
  recorded : (after events).recorded = events.filterMap Event.diagnostic?
  /-- Each of it was handed once, in order, to the emitter that was the last one then. -/
  delivered : (after events).delivered =
    (List.range events.length).filterMap (delivery? events)
  length : (after events).recorded.length = events.countP (·.diagnostic?.isSome)
  fails_iff (draft : Diagnostic.Draft) :
    ((Event.attempt draft).run (after events)).1 = .error .noMessage ↔ draft.message = none
  /-- A draft that fails might as well not have been there. -/
  ignored {draft : Diagnostic.Draft} (h : draft.message = none) (more : List (Event Emitter)) :
    after (events ++ .attempt draft :: more) = after (events ++ more)
  hasErrors_iff : (after events).hasErrors = true ↔
    ∃ d ∈ events.filterMap Event.diagnostic?, d.severity = .error ∨ d.severity = .fatal
  hasErrors_append (h : (after events).hasErrors = true) (more : List (Event Emitter)) :
    (after (events ++ more)).hasErrors = true

theorem hasErrors_after_iff : (after events).hasErrors = true ↔
    ∃ d ∈ events.filterMap Event.diagnostic?, d.severity = .error ∨ d.severity = .fatal := by
  rw [hasErrors, after_eq, List.any_eq_true]
  simp only [Severity.isError_iff]

/-- Whatever emitters are installed and drafts emitted, and in whichever order: each draft with a
message is recorded, and handed once to the emitter that was installed last before it, a draft
without one fails and leaves no trace, and errors stay on record. -/
theorem deliveryLaw (events : List (Event Emitter)) : DeliveryLaw events where
  recorded := by rw [after_eq]
  delivered := by rw [after_eq]
  length := by rw [after_eq, List.length_filterMap_eq_countP]
  fails_iff _ := emit_eq_error_iff
  ignored h more := by
    rw [after_append, after_append, List.foldl_cons, Event.run, emit_of_none h]
  hasErrors_iff := hasErrors_after_iff
  hasErrors_append h more := by
    obtain ⟨d, hd, hs⟩ := hasErrors_after_iff.mp h
    rw [hasErrors_after_iff, List.filterMap_append]
    exact ⟨d, List.mem_append_left _ hd, hs⟩

/-- Of three drafts with a message, the first finds no emitter yet. The one without a message comes
to neither of them. -/
example :
    let draft (text : String) : Event Nat := .attempt { severity := .warning, message := some { text } }
    (after [draft "a", .install 1, draft "b", .attempt { severity := .fatal }, .install 2,
      draft "c"]).delivered.map (fun (e, d) => (e, d.message.text)) = [(1, "b"), (2, "c")] := by
  decide

end Diagnostics
end Calculator
