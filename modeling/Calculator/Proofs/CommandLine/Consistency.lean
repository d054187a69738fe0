import Calculator.Proofs.CommandLine.Runs
import Calculator.Proofs.Diagnostics.Delivery

/-!
# What all runs have in common

Whatever the arguments ask for and whichever inputs and outputs fail, what a run prints, how it ends
and what it has reported go together (`Session.RunLaw`). An input that cannot be read keeps it from
printing anything (`Session.recorded_of_unreadable`), up to the tokens nothing is evaluated
(`Session.runWith_of_lexer`), and values are printed up to the first line that the output refuses,
which is reported once (`Session.outputErrors_of_eval`).
-/

namespace Calculator

theorem EvalError.head?_message_ne (e : EvalError) : e.message.toList.head? ≠ some 'c' := by
  unfold message ArithError.message
  cases e <;> simp

namespace CommandLine

/-! ### Errors about the output -/

/-- Whether a diagnostic says that tokens or values could not be written. -/
def isOutputError (d : Diagnostic) : Bool :=
  d.message.text = "could not dump the tokens to stdout" ||
    d.message.text = "could not write the results to stdout"

theorem isOutputError_iff (d : Diagnostic) : isOutputError d = true ↔
    d.message.text = "could not dump the tokens to stdout" ∨
      d.message.text = "could not write the results to stdout" := by
  rw [isOutputError, Bool.or_eq_true, decide_eq_true_iff, decide_eq_true_iff]

theorem head?_of_isOutputError {d : Diagnostic} (h : isOutputError d = true) :
    d.message.text.toList.head? = some 'c' := by
  rcases (isOutputError_iff d).mp h with ht | ht <;> rw [ht] <;> rfl

theorem not_isOutputError_evaluation {r : Evaluation} {d : Diagnostic} (h : r.diagnostic? = some d) :
    ¬ isOutputError d = true := by
  refine mt head?_of_isOutputError ?_
  rcases r with e | ⟨v, _ | rest⟩
  · cases Option.some.inj h
    exact e.head?_message_ne
  · cases h
  · cases Option.some.inj h
    simp

theorem not_isOutputError_unreadable (f : Failure) (i : Input) :
    ¬ isOutputError (i.unreadable f) = true := by
  rw [isOutputError_iff]
  -- All of them begin alike, up to the verb.
  rintro (h | h) <;>
  · have hc := congrArg (·.toList[10]?) h
    cases i <;> simp [Input.unreadable] at hc

theorem Config.outputErrors_diagnostics (config : Config) (entries : List (String × Bytes)) :
    (config.diagnostics entries).filter isOutputError = [] := by
  refine List.filter_eq_nil_iff.mpr fun d hd => ?_
  obtain ⟨file, -, hf⟩ := List.mem_filterMap.mp hd
  exact not_isOutputError_evaluation hf

theorem Input.outputErrors_report? (env : Environment) (inputs : List Input) :
    (inputs.filterMap (report? env)).filter isOutputError = [] := by
  refine List.filter_eq_nil_iff.mpr fun d hd => ?_
  obtain ⟨i, -, hr⟩ := List.mem_filterMap.mp hd
  cases hc : i.contents env with
  | ok bytes => cases (report?_of_ok hc).symm.trans hr
  | error f =>
    cases (report?_of_error hc).symm.trans hr
    exact not_isOutputError_unreadable f i

/-- Whether an input of a run is evaluated, which is done if all can be read, and has a value. -/
def Config.HasValue (config : Config) (env : Environment) (i : Input) : Prop :=
  (∀ j ∈ config.inputs, ∃ bytes, j.contents env = .ok bytes) ∧ i ∈ config.inputs ∧
    ∃ bytes v, i.contents env = .ok bytes ∧ (config.evaluate (.ofBytes bytes)).value? = some v

/-- Lines come up exactly if there is a value. -/
theorem Config.lines_eq_nil_iff {env : Environment} {config : Config} {contents : Input → Bytes}
    (h : ∀ i ∈ config.inputs, i.contents env = .ok (contents i)) :
    config.lines (config.entries contents) = [] ↔ ¬ ∃ i, config.HasValue env i := by
  have hl : config.lines (config.entries contents) = [] ↔
      ∀ i ∈ config.inputs, (config.evaluate (.ofBytes (contents i))).value? = none := by
    simp only [lines, entries, List.filterMap_eq_nil_iff, List.forall_mem_map,
      Evaluation.line?_eq_none_iff]
  rw [hl]
  constructor
  · rintro hn ⟨i, -, hi, bytes, v, hb, hv⟩
    cases (h i hi).symm.trans hb
    cases (hn i hi).symm.trans hv
  · intro hn i hi
    cases hv : (config.evaluate (.ofBytes (contents i))).value? with
    | none => rfl
    | some v => exact absurd ⟨i, fun j hj => ⟨_, h j hj⟩, hi, _, v, h i hi, hv⟩ hn

namespace Session

section
variable {env : Environment} {config : Config}

/-- Up to the tokens nothing is evaluated, so it makes no difference what that would do. -/
theorem runWith_of_lexer (hs : config.stage = .lexer) (evaluation : Session → Session) :
    runWith evaluation env config = run env config := by
  rw [run, runWith, runWith, hs]

/-- Inputs that cannot be read are reported, and then the run ends. -/
theorem recorded_of_unreadable (h : ∃ i ∈ config.inputs, ∃ f, i.contents env = .error f) :
    (run env config).diagnostics.recorded = config.inputs.filterMap (Input.report? env) ∧
      (run env config).stdout = [] := by
  obtain ⟨i, hi, f, hf⟩ := h
  rw [run_of_unreadable hi hf]
  exact ⟨rfl, rfl⟩

/-- Lines of values are written up to the first one that the output refuses, and if there is one,
this is reported. -/
theorem outputErrors_of_eval {contents : Input → Bytes} (hs : config.stage = .eval)
    (h : ∀ i ∈ config.inputs, i.contents env = .ok (contents i)) :
    (run env config).stdout = env.written [] (config.lines (config.entries contents)) ∧
      (run env config).diagnostics.recorded.filter isOutputError =
        (env.failure? [] (config.lines (config.entries contents))).toList.map
          (outputError "could not write the results to stdout") := by
  rw [run_of_eval hs h]
  simp only [holding, Diagnostics.toldTo, List.filter_append, config.outputErrors_diagnostics,
    List.nil_append, true_and]
  cases env.failure? [] (config.lines (config.entries contents)) with
  | none => rfl
  | some f => exact List.filter_singleton ..

/-- If the output fails, this is reported once if an input has a value, and else it does not show. -/
theorem outputErrors_of_failing {f : Failure} (hs : config.stage = .eval)
    (hf : ∀ bytes, env.stdoutFailure bytes = some f) :
    (run env config).stdout = [] ∧
      ((∃ i, config.HasValue env i) → (run env config).diagnostics.recorded.filter isOutputError =
        [outputError "could not write the results to stdout" f]) ∧
      ((¬ ∃ i, config.HasValue env i) →
        (run env config).diagnostics.recorded.filter isOutputError = []) := by
  by_cases h : ∃ i ∈ config.inputs, ∃ g, i.contents env = .error g
  · obtain ⟨hr, ho⟩ := recorded_of_unreadable h
    rw [hr, Input.outputErrors_report?]
    refine ⟨ho, ?_, fun _ => rfl⟩
    rintro ⟨-, hv, -⟩
    exact absurd h (readable_iff.mp hv)
  · obtain ⟨contents, hc⟩ := exists_contents (readable_iff.mpr h)
    obtain ⟨ho, hr⟩ := outputErrors_of_eval hs hc
    rw [ho, hr, Environment.written_of_failing _ _ hf, Environment.failure?_of_failing _ _ hf,
      ← Config.lines_eq_nil_iff hc]
    refine ⟨rfl, fun hv => ?_, fun hv => ?_⟩
    · obtain ⟨line, lines, hl⟩ :=
        List.exists_cons_of_ne_nil fun hl => (Config.lines_eq_nil_iff hc).mp hl hv
      rw [hl]
      rfl
    · rw [hv]
      rfl

end

/-- What a run that has written tokens comes to. -/
structure DumpLaw (env : Environment) (config : Config) (s : Session) (c : Completion) : Prop where
  runWith_eq (evaluation : Session → Session) : runWith evaluation env config = s
  dumped (contents : Input → Bytes) (h : ∀ i ∈ config.inputs, i.contents env = .ok (contents i))
    (hw : ∀ bytes, env.stdoutFailure bytes = none) :
    c.stdout = config.dumps (config.entries contents) ∧ c.exitCode = 0
  undumped (contents : Input → Bytes) (h : ∀ i ∈ config.inputs, i.contents env = .ok (contents i))
    (f : Failure) (hf : ∀ bytes, env.stdoutFailure bytes = some f) :
    c.stdout = [] ∧ s.diagnostics.recorded =
      config.inputs.map fun _ => outputError "could not dump the tokens to stdout" f
  /-- Each dump is written up to the first piece that the output refuses, and those that are cut off
  are reported, at most one for each input. -/
  written (contents : Input → Bytes)
    (h : ∀ i ∈ config.inputs, i.contents env = .ok (contents i)) :
    c.stdout = (env.batches [] (config.dumpPieces (config.entries contents))).2 ∧
      s.diagnostics.recorded = (env.batches [] (config.dumpPieces (config.entries contents))).1.map
        (outputError "could not dump the tokens to stdout") ∧
      s.diagnostics.recorded.length ≤ config.inputs.length

/-- How what a run puts out goes with what it has reported. -/
structure RunLaw (env : Environment) (config : Config) (s : Session) (c : Completion) : Prop where
  delivered_eq : s.diagnostics.delivered = s.diagnostics.recorded.map (env.palette, ·)
  stderr_eq : c.stderr =
    String.join (s.diagnostics.recorded.map (diagnosticLine env.palette s.sources))
  exitCode_eq_one_iff : c.exitCode = 1 ↔
    ∃ d ∈ s.diagnostics.recorded, d.severity = .error ∨ d.severity = .fatal
  exitCode_eq_zero_iff : c.exitCode = 0 ↔ ∀ d ∈ s.diagnostics.recorded, d.severity = .warning
  unreadable (h : ∃ i ∈ config.inputs, ∃ f, i.contents env = .error f) :
    s.diagnostics.recorded = config.inputs.filterMap (Input.report? env) ∧ c.stdout = []
  dump (hs : config.stage = .lexer) : DumpLaw env config s c
  /-- Values are written up to the first line that the output refuses, which is reported once. -/
  printed (hs : config.stage = .eval) (contents : Input → Bytes)
    (h : ∀ i ∈ config.inputs, i.contents env = .ok (contents i)) :
    c.stdout = env.written [] (config.lines (config.entries contents)) ∧
      s.diagnostics.recorded.filter isOutputError =
        (env.failure? [] (config.lines (config.entries contents))).toList.map
          (outputError "could not write the results to stdout")
  unprinted (hs : config.stage = .eval) (f : Failure)
    (hf : ∀ bytes, env.stdoutFailure bytes = some f) :
    c.stdout = [] ∧
      ((∃ i, config.HasValue env i) → s.diagnostics.recorded.filter isOutputError =
        [outputError "could not write the results to stdout" f]) ∧
      ((¬ ∃ i, config.HasValue env i) → s.diagnostics.recorded.filter isOutputError = [])

variable {env : Environment} {config : Config}

theorem dumpLaw_run (hs : config.stage = .lexer) :
    DumpLaw env config (run env config) ((Request.calculate config).complete env) where
  runWith_eq := runWith_of_lexer hs
  dumped contents h hw := by
    have hr := run_dumped hs h hw
    exact ⟨congrArg stdout hr, congrArg exitCode hr⟩
  undumped contents h f hf := by
    have hr := run_undumped hs h hf
    exact ⟨congrArg stdout hr, congrArg (·.diagnostics.recorded) hr⟩
  written contents h := by
    have hr := run_of_lexer hs h
    have hd := congrArg (·.diagnostics.recorded) hr
    refine ⟨congrArg stdout hr, hd, ?_⟩
    calc (run env config).diagnostics.recorded.length
      _ = (env.batches [] (config.dumpPieces (config.entries contents))).1.length := by
        rw [hd]
        exact List.length_map _
      _ ≤ (config.dumpPieces (config.entries contents)).length := env.length_batches_le ..
      _ = config.inputs.length := config.length_dumpPieces_entries contents

theorem runLaw_run :
    RunLaw env config (run env config) ((Request.calculate config).complete env) where
  delivered_eq := by
    obtain ⟨entries, ds, output, hr⟩ := exists_run_eq env config
    rw [hr]
    rfl
  stderr_eq := by
    obtain ⟨entries, ds, output, hr⟩ := exists_run_eq env config
    rw [Request.complete, hr]
    rfl
  exitCode_eq_one_iff := by
    simp only [← Severity.isError_iff]
    exact exitCode_eq_one_iff (run env config)
  exitCode_eq_zero_iff := by
    simp only [← Severity.isError_eq_false_iff]
    exact exitCode_eq_zero_iff (run env config)
  unreadable := recorded_of_unreadable
  dump := dumpLaw_run
  printed hs _ h := outputErrors_of_eval hs h
  unprinted hs _ hf := outputErrors_of_failing hs hf

end Session

/-- Whatever is asked for and whatever fails, a run prints each of the diagnostics that it records,
fails if there are errors among them, and is ended by inputs that cannot be read. Arguments that ask
for the run start it. -/
theorem runLaw (env : Environment) (config : Config) :
    (Session.run env config).RunLaw env config ((Request.calculate config).complete env) ∧
      ∀ arguments, parse arguments = .ok (.calculate config) →
        complete env arguments = (Request.calculate config).complete env := by
  refine ⟨Session.runLaw_run, fun arguments h => ?_⟩
  rw [complete, h]

/-- On a full device the value of the first input is missing, which is reported once, and the second
one has none. -/
theorem runLaw_no_space :
    let env : Environment :=
      { fileContents := fun _ => .ok [], stdin := .ok [], stdoutFailure := fun _ => some .noSpace }
    let config : Config := { expressions := ["6*7", "1+"] }
    parse ["6*7", "1+"] = .ok (.calculate config) ∧
      (Session.run env config).RunLaw env config (complete env ["6*7", "1+"]) ∧
      config.HasValue env (.expression 0 "6*7") := by
  intro env config
  have hp : parse ["6*7", "1+"] = .ok (.calculate config) := by decide +kernel
  obtain ⟨hr, hc⟩ := runLaw env config
  refine ⟨hp, ?_, fun j _ => ?_, List.mem_cons_self, _, 42, rfl, by decide +kernel⟩
  · rw [hc _ hp]
    exact hr
  · cases j <;> exact ⟨_, rfl⟩

end CommandLine
end Calculator
