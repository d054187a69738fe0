import Mathlib.Data.List.Basic
import Calculator.Proofs.CommandLine.Writing
import Calculator.Proofs.Registration

/-!
# The values that a run prints

Where all inputs can be read and the output can be written, each input is evaluated for itself, and
what comes of it is printed under its own name, in the order of the inputs
(`Request.complete_eval`).
-/

namespace Calculator.CommandLine

/-- What evaluating an input comes to: its value, and the token behind the expression if the rest
of the input is ignored. -/
abbrev Evaluation := Except EvalError (Int32 × Option Token)

namespace Evaluation

/-- The same with all places in another input. -/
def inSource (source : Option SourceId) (r : Evaluation) : Evaluation :=
  (r.map fun (v, rest) => (v, rest.map (Token.inSource source))).mapError
    (EvalError.inSource source)

def value? (r : Evaluation) : Option Int32 := r.toOption.map (·.1)

def isError : Evaluation → Bool
  | .ok _ => false
  | .error _ => true

def diagnostic? : Evaluation → Option Diagnostic
  | .ok (_, none) => none
  | .ok (_, some rest) => some {
      severity := .warning
      message := {
        text := "ignoring the input starting with " ++ rest.text
        span := some rest.span } }
  | .error e => some {
      severity := .error
      message := { text := e.message, span := some e.span }
      cause := some (.evaluation e) }

/-- The line that is printed of a value. -/
def line? (format : OutputFormat) (name : String) : Evaluation → Option Bytes
  | .ok (v, _) =>
    match format with
    | .plain => some (Decimal.ofInt v.toInt ++ .ofString "\n")
    | .debug => some (.ofString (name ++ ": ") ++ (Decimal.ofInt v.toInt ++ .ofString "\n"))
  | .error _ => none

/-- What is printed of a value, which is nothing if there is none. -/
def output (format : OutputFormat) (name : String) (r : Evaluation) : Bytes :=
  (r.line? format name).getD []

/-- The line that is printed of an error, or of a rest that is ignored. -/
def complaint? (p : Palette) (name : String) : Evaluation → Option String
  | .ok (_, none) => none
  | .ok (_, some rest) => some (p.line .warning (name ++ ":" ++ rest.span.start.text ++ " " ++
      ("ignoring the input starting with " ++ rest.text)))
  | .error e => some (p.line .error (name ++ ":" ++ e.span.start.text ++ " " ++ e.message))

section
variable (source : Option SourceId) (r : Evaluation)

theorem isError_inSource : (r.inSource source).isError = r.isError := by
  cases r <;> rfl

theorem line?_inSource (format : OutputFormat) (name : String) :
    (r.inSource source).line? format name = r.line? format name := by
  cases r <;> rfl

/-- A value is printed under the name of its input. -/
theorem map_resultLine {sources : Sources} {file : SourceFile}
    (h : sources.get? file.id = some file) (format : OutputFormat) :
    r.value?.map (fun v => Session.resultLine sources format (file.id, v)) =
      r.line? format file.name := by
  have hn : sources.nameOf (some file.id) = file.name := Sources.nameOf_of_get? h
  rcases r with e | ⟨v, rest⟩
  · rfl
  · cases format with
    | plain => rfl
    | debug =>
      exact congrArg (fun name =>
        some (.ofString (name ++ ": ") ++ (Decimal.ofInt v.toInt ++ .ofString "\n"))) hn

theorem any_isError_diagnostic? : r.diagnostic?.any (·.severity.isError) = r.isError := by
  rcases r with e | ⟨v, _ | rest⟩ <;> rfl

/-- A diagnostic about a registered input is printed under its name. -/
theorem map_line_diagnostic? {sources : Sources} {file : SourceFile}
    (h : sources.get? file.id = some file) (p : Palette) :
    (r.inSource (some file.id)).diagnostic?.map (diagnosticLine p sources) =
      r.complaint? p file.name := by
  have line {d : Diagnostic} {span : Span}
      (hs : d.message.span = some (span.inSource (some file.id))) :
      diagnosticLine p sources d =
        p.line d.severity (file.name ++ ":" ++ span.start.text ++ " " ++ d.message.text) := by
    have hl : sources.locateSpan (span.inSource (some file.id)) =
        file.name ++ ":" ++ span.start.text := Sources.locate_of_get? h rfl
    rw [diagnosticLine, diagnosticText, hs, ← hl]
    rfl
  rcases r with e | ⟨v, _ | rest⟩
  · simp only [inSource, Except.map, Except.mapError, diagnostic?, complaint?,
      EvalError.message_inSource, EvalError.span_inSource, Option.map_some]
    exact congrArg some (line rfl)
  · rfl
  · exact congrArg some (line rfl)

end

end Evaluation

/-- Evaluates an input as the command line asks for. -/
def Config.evaluate (config : Config) (l : Lexer) : Evaluation :=
  if config.allowTrailing then
    l.evaluateLeading.map fun (v, rest) => (v, if rest.isEof then none else some rest)
  else l.evaluate.map (·, none)

/-- A loaded input comes to what its bytes come to. -/
theorem Config.evaluate_lexer (config : Config) (file : SourceFile) :
    config.evaluate file.lexer =
      (config.evaluate (.ofBytes file.contents)).inSource (some file.id) := by
  unfold evaluate SourceFile.lexer
  split
  · rw [Lexer.evaluateLeading_ofBytes_eq]
    rcases (Lexer.ofBytes file.contents).evaluateLeading with e | ⟨v, rest⟩
    · rfl
    · cases h : rest.isEof <;>
        simp only [Except.map, Except.mapError, Token.isEof_inSource, h] <;> rfl
  · rw [Lexer.evaluate_ofBytes_eq]
    cases (Lexer.ofBytes file.contents).evaluate <;> rfl

namespace Session

section
variable (env : Environment) (config : Config) (entries : List (String × Bytes))
  (ds : List Diagnostic) (output : Bytes)

theorem evaluateFile_holding (file : SourceFile) :
    (holding env entries ds output).evaluateFile config file =
      ((config.evaluate file.lexer).value?,
        holding env entries (ds ++ (config.evaluate file.lexer).diagnostic?.toList) output) := by
  have reported (draft : Diagnostic.Draft) {message : Message} (h : draft.message = some message) :=
    report_holding env entries ds output h
  have unreported : holding env entries ds output = holding env entries (ds ++ []) output := by
    rw [List.append_nil]
  unfold evaluateFile Config.evaluate
  split
  · rcases file.lexer.evaluateLeading with e | ⟨v, rest⟩
    · exact congrArg _ (reported _ rfl)
    · cases h : rest.isEof with
      | true =>
        simp only [warnOfTrailing, Except.map, h, if_true]
        exact congrArg _ unreported
      | false =>
        simp only [warnOfTrailing, Except.map, h, Bool.false_eq_true, if_false]
        exact congrArg _ (reported _ rfl)
  · cases file.lexer.evaluate with
    | ok v => exact congrArg _ unreported
    | error e => exact congrArg _ (reported _ rfl)

theorem evaluateFiles_holding (files : List SourceFile) :
    (holding env entries ds output).evaluateFiles config files =
      (files.filterMap fun file => (config.evaluate file.lexer).value?.map (file.id, ·),
        holding env entries
          (ds ++ files.filterMap fun file => (config.evaluate file.lexer).diagnostic?) output) := by
  induction files generalizing ds with
  | nil => simp [evaluateFiles]
  | cons file files ih =>
    rw [evaluateFiles, evaluateFile_holding]
    simp only [ih, List.append_assoc]
    rw [List.filterMap_cons, List.filterMap_cons]
    cases (config.evaluate file.lexer).diagnostic? <;>
      cases (config.evaluate file.lexer).value? <;> rfl

end

end Session

/-- The diagnostics about inputs that were all loaded. -/
def Config.diagnostics (config : Config) (entries : List (String × Bytes)) : List Diagnostic :=
  (Sources.listing [] entries).files.filterMap fun file =>
    (config.evaluate file.lexer).diagnostic?

/-- The lines of the values of inputs. -/
def Config.lines (config : Config) (entries : List (String × Bytes)) : List Bytes :=
  entries.filterMap fun (name, contents) =>
    (config.evaluate (.ofBytes contents)).line? config.format name

/-- The values of inputs, each on a line. -/
def Config.output (config : Config) (entries : List (String × Bytes)) : Bytes :=
  entries.flatMap fun (name, contents) =>
    (config.evaluate (.ofBytes contents)).output config.format name

section
variable (config : Config) (entries : List (String × Bytes))

theorem Config.lines_diagnostics (p : Palette) :
    (config.diagnostics entries).map (diagnosticLine p (.listing [] entries)) =
      entries.filterMap fun (name, contents) =>
        (config.evaluate (.ofBytes contents)).complaint? p name := by
  conv => rhs; rw [← Sources.map_files_listing [] entries]
  rw [diagnostics, List.map_filterMap, List.filterMap_map]
  refine List.filterMap_congr fun file hf => ?_
  rw [evaluate_lexer]
  exact Evaluation.map_line_diagnostic? _ (Sources.get?_of_mem_files hf) p

theorem Config.any_isError_diagnostics :
    (config.diagnostics entries).any (·.severity.isError) =
      entries.any fun (_, contents) => (config.evaluate (.ofBytes contents)).isError := by
  conv => rhs; rw [← Sources.map_files_listing [] entries]
  rw [diagnostics, List.any_filterMap, List.any_map]
  refine List.any_congr rfl fun file => ?_
  have he : (config.evaluate (.ofBytes file.contents)).isError =
      (config.evaluate file.lexer).isError := by
    rw [evaluate_lexer, Evaluation.isError_inSource]
  exact (config.evaluate file.lexer).any_isError_diagnostic?.trans he.symm

theorem Config.map_resultLine :
    ((Sources.listing [] entries).files.filterMap fun file =>
        (config.evaluate file.lexer).value?.map (file.id, ·)).map
      (Session.resultLine (.listing [] entries) config.format) = config.lines entries := by
  rw [lines]
  conv => rhs; rw [← Sources.map_files_listing [] entries]
  rw [List.map_filterMap, List.filterMap_map]
  refine List.filterMap_congr fun file hf => ?_
  have hl := (config.evaluate file.lexer).map_resultLine (Sources.get?_of_mem_files hf)
    config.format
  rw [Option.map_map]
  refine hl.trans ?_
  rw [evaluate_lexer, Evaluation.line?_inSource]
  rfl

theorem Config.flatten_lines : (config.lines entries).flatten = config.output entries := by
  induction entries with
  | nil => rfl
  | cons entry entries ih =>
    rw [lines, List.filterMap_cons, output, List.flatMap_cons]
    simp only [Evaluation.output]
    cases (config.evaluate (.ofBytes entry.2)).line? config.format entry.1 with
    | none => exact ih
    | some line => exact congrArg (line ++ ·) ih

/-- Evaluating is all reported, and then the values are written as far as the output takes them. -/
theorem Session.printValues_holding (env : Environment) :
    (holding env entries [] []).printValues env config =
      writeAll env (holding env entries (config.diagnostics entries) []) (config.lines entries)
        "could not write the results to stdout" := by
  rw [printValues, evaluateFiles_holding, List.nil_append]
  exact congrArg (writeAll env _ · _) (config.map_resultLine entries)

end

/-! ### Runs whose inputs can all be read -/

/-- The inputs of a run under their names, with what was read of them. -/
def Config.entries (config : Config) (contents : Input → Bytes) : List (String × Bytes) :=
  config.inputs.map fun i => (i.name, contents i)

section
variable {env : Environment} {config : Config} {contents : Input → Bytes}

theorem Session.loadInputs_of_readable
    (h : ∀ i ∈ config.inputs, i.contents env = .ok (contents i)) :
    (start env).loadInputs env config =
      holding env (config.entries contents) [] [] := by
  have hr : (config.inputs.filterMap fun i => (i.load env).read?) = config.entries contents := by
    rw [Config.entries, ← List.filterMap_eq_map]
    exact List.filterMap_congr fun i hi => Load.read?_of_ok (l := i.load env) (h i hi)
  have hd : config.inputs.filterMap (Input.report? env) = [] :=
    List.filterMap_eq_nil_iff.mpr fun i hi => Input.report?_of_ok (h i hi)
  rw [loadInputs_start, hr, hd]

/-- A run reports of each input what there is, and then writes the values as far as the output takes
them. If it refuses one, this is reported last. -/
theorem Session.run_of_eval (hs : config.stage = .eval)
    (h : ∀ i ∈ config.inputs, i.contents env = .ok (contents i)) :
    run env config =
      holding env (config.entries contents)
        (config.diagnostics (config.entries contents) ++
          (env.failure? [] (config.lines (config.entries contents))).toList.map
            (outputError "could not write the results to stdout"))
        (env.written [] (config.lines (config.entries contents))) := by
  rw [run, runWith, loadInputs_of_readable h, hs]
  exact (printValues_holding config _ env).trans (writeAll_holding ..)

/-- If the output takes everything, all values are written. -/
theorem Session.run_printed (hs : config.stage = .eval)
    (h : ∀ i ∈ config.inputs, i.contents env = .ok (contents i))
    (hw : ∀ bytes, env.stdoutFailure bytes = none) :
    run env config =
      holding env (config.entries contents) (config.diagnostics (config.entries contents))
        (config.output (config.entries contents)) := by
  rw [run_of_eval hs h, Environment.failure?_of_writable _ _ hw,
    Environment.written_of_writable _ _ hw, Config.flatten_lines]
  exact congrArg (holding env _ · _) (List.append_nil _)

end

/-- Where all inputs can be read and the output can be written, a run prints what comes of each
input on its own, in order: the line of its value, and the line of its error or of the rest that is
ignored, under the name of the input. It fails if one of the inputs has an error. -/
theorem Request.complete_eval (env : Environment) (config : Config) (contents : Input → Bytes)
    (hs : config.stage = .eval) (hw : ∀ bytes, env.stdoutFailure bytes = none)
    (h : ∀ i ∈ config.inputs, i.contents env = .ok (contents i)) :
    (Request.calculate config).complete env =
      { exitCode :=
          if config.inputs.any fun i => (config.evaluate (.ofBytes (contents i))).isError
          then 1 else 0
        stdout := config.inputs.flatMap fun i =>
          (config.evaluate (.ofBytes (contents i))).output config.format i.name
        stderr := String.join (config.inputs.filterMap fun i =>
          (config.evaluate (.ofBytes (contents i))).complaint? env.palette i.name) } := by
  have hr := Session.run_printed hs h hw
  have hd : (Session.run env config).diagnostics.hasErrors =
      config.inputs.any fun i => (config.evaluate (.ofBytes (contents i))).isError := by
    rw [hr]
    exact (config.any_isError_diagnostics _).trans List.any_map
  have hstderr : (Session.run env config).stderr =
      config.inputs.filterMap fun i =>
        (config.evaluate (.ofBytes (contents i))).complaint? env.palette i.name := by
    rw [hr]
    exact (config.lines_diagnostics _ env.palette).trans List.filterMap_map
  have hstdout : (Session.run env config).stdout =
      config.inputs.flatMap fun i =>
        (config.evaluate (.ofBytes (contents i))).output config.format i.name := by
    rw [hr]
    exact List.flatMap_map ..
  simp only [complete, Session.exitCode, hd, hstdout, hstderr]

/-- Of four inputs the second is incomplete, the third has a rest that is ignored, and the fourth
divides by zero. -/
theorem Request.complete_four_inputs :
    (Request.calculate {
        expressions := ["6*7", "1+", "2 3"], files := ["quotient"]
        format := .debug, allowTrailing := true }).complete
        { fileContents := fun _ => .ok [0x38, 0x2f, 0x30], stdin := .ok [] } =
      { exitCode := 1
        stdout := .ofString "<arg 1>: 42\n<arg 3>: 2\n"
        stderr :=
          "ERROR <arg 2>:1:3 encountered an unexpected token: end of input" ++
          " (expected an integer literal or '(')\n" ++
          "WARN  <arg 3>:1:3 ignoring the input starting with integer literal 3\n" ++
          "ERROR quotient:1:1 attempted to divide by zero\n" } := by
  have h (i : Input) : i.contents
        { fileContents := fun _ => .ok [0x38, 0x2f, 0x30], stdin := .ok [] } =
      .ok ((i.contents
        { fileContents := fun _ => .ok [0x38, 0x2f, 0x30], stdin := .ok [] }).toOption.getD []) := by
    cases i <;> rfl
  refine (complete_eval _ _ _ rfl (fun _ => rfl) fun i _ => h i).trans ?_
  rw [Completion.mk.injEq]
  refine ⟨?_, ?_, ?_⟩ <;> decide +kernel

end Calculator.CommandLine
