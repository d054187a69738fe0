import Calculator.Proofs.Registration
import Calculator.Proofs.Sources.Loads

/-!
# The ways to evaluate an input

A text has the same value whether it is evaluated on its own or as a registered input, and where it
has none, the message shows the same error behind its place (`evaluateOrExplain_eq`). This is a
case of what holds of all registered inputs: everything that is computed of them is computed of
their bytes, and the id is only carried along (`entryPoints_agree`).
-/

namespace Calculator

/-- The tokens of a registered input are those of its bytes. -/
theorem Lexer.tokens_ofBytes_eq (source : Option SourceId) (bytes : Bytes) :
    (ofBytes bytes source).tokens = (ofBytes bytes).tokens.map (Token.inSource source) :=
  (ofBytes bytes).ahead_inSource source

/-- The first input of a session is found under its id. -/
theorem Sources.get?_load_empty (name : String) (contents : Bytes) :
    (({} : Sources).load name contents).2.get? (({} : Sources).load name contents).1 =
      some ⟨⟨0⟩, name, contents⟩ := rfl

/-- Places in the first input of a session are shown under its name. -/
theorem Sources.locateSpan_load_empty (name : String) (contents : Bytes) (span : Span) :
    (({} : Sources).load name contents).2.locateSpan (span.inSource (some ⟨0⟩)) =
      name ++ ":" ++ span.start.text := by
  have hf : (({} : Sources).load name contents).2.get?
      (SourceFile.id ⟨⟨0⟩, name, contents⟩) = some ⟨⟨0⟩, name, contents⟩ :=
    get?_load_empty name contents
  exact locate_of_get? hf rfl

/-- The message that explains an error in a text. -/
def EvalError.explanation (e : EvalError) : String :=
  "input:" ++ toString e.span.start.line ++ ":" ++ toString e.span.start.col ++ " " ++ e.message

/-- No explanation is the complaint that the text cannot be loaded. -/
theorem EvalError.explanation_ne (e : EvalError) :
    e.explanation ≠ "the input could not be loaded" := by
  intro h
  have hc := congrArg (·.toList.head?) h
  simp [explanation] at hc

theorem EvalError.explanation_eq (e : EvalError) (text : String) :
    (({} : Sources).load "input" (.ofString text)).2.locateSpan (e.inSource (some ⟨0⟩)).span ++
      " " ++ (e.inSource (some ⟨0⟩)).message = e.explanation := by
  rw [span_inSource, message_inSource, Sources.locateSpan_load_empty, Position.text, explanation]
  simp only [← String.append_assoc]
  rfl

/-- What a text comes to with an explanation is what it comes to on its own. -/
theorem evaluateOrExplain_eq (text : String) :
    evaluateOrExplain text = (evaluate text).mapError EvalError.explanation := by
  have hl : evaluateOrExplain text =
      (Lexer.ofBytes (.ofString text) (some ⟨0⟩)).evaluate.mapError fun e =>
        (({} : Sources).load "input" (.ofString text)).2.locateSpan e.span ++ " " ++ e.message := by
    unfold evaluateOrExplain
    simp only [Sources.get?_load_empty, SourceFile.lexer]
    cases (Lexer.ofBytes (.ofString text) (some ⟨0⟩)).evaluate <;> rfl
  rw [hl, Lexer.evaluate_ofBytes_eq, evaluate]
  cases (Lexer.ofBytes (.ofString text)).evaluate with
  | ok v => rfl
  | error e => exact congrArg Except.error (e.explanation_eq text)

/-- The id of a registered input shows in the places of its tokens, of the token behind its
expression and of its errors, and nowhere else. -/
theorem entryPoints_agree (file : SourceFile) (limit : Nat) (text : String) :
    file.lexer.tokens = (Lexer.ofBytes file.contents).tokens.map (Token.inSource (some file.id)) ∧
      file.lexer.evaluate limit =
        ((Lexer.ofBytes file.contents).evaluate limit).mapError
          (EvalError.inSource (some file.id)) ∧
      file.lexer.evaluateLeading limit =
        (((Lexer.ofBytes file.contents).evaluateLeading limit).map fun (v, t) =>
          (v, t.inSource (some file.id))).mapError (EvalError.inSource (some file.id)) ∧
      (∀ v, evaluateOrExplain text = .ok v ↔ evaluate text = .ok v) ∧
      (∀ message, evaluateOrExplain text = .error message ↔
        ∃ e, evaluate text = .error e ∧ message = "input:" ++ toString e.span.start.line ++ ":" ++
          toString e.span.start.col ++ " " ++ e.message) ∧
      evaluateOrExplain text ≠ .error "the input could not be loaded" := by
  rw [evaluateOrExplain_eq]
  refine ⟨Lexer.tokens_ofBytes_eq .., Lexer.evaluate_ofBytes_eq ..,
    Lexer.evaluateLeading_ofBytes_eq .., fun _ => mapError_eq_ok_iff,
    fun _ => mapError_eq_error_iff, fun h => ?_⟩
  obtain ⟨e, -, he⟩ := mapError_eq_error_iff.mp h
  exact e.explanation_ne he.symm

end Calculator
