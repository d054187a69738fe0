import Calculator.Proofs.CommandLine.Evaluation

/-!
# How runs end

A run ends with the inputs it has loaded, the diagnostics it has reported and the output it has
written. What these are depends on whether all inputs can be read, on the stage and on what the
output takes, and each of these cases is an equation for the whole run. In all of them the emitter
was told all diagnostics, and has printed them (`Session.exists_run_eq`).
-/

namespace Calculator

namespace CommandLine

namespace Evaluation

theorem exists_line (v : Int32) (rest : Option Token) (format : OutputFormat) (name : String) :
    ∃ line, output format name (.ok (v, rest)) = line ++ [0x0a] := by
  have hn : Bytes.ofString "\n" = [0x0a] := by decide +kernel
  cases format with
  | plain => exact ⟨Decimal.ofInt v.toInt, congrArg _ hn⟩
  | debug =>
    refine ⟨Bytes.ofString (name ++ ": ") ++ Decimal.ofInt v.toInt, ?_⟩
    rw [← hn, List.append_assoc]
    rfl

section
variable (r : Evaluation) (format : OutputFormat) (name : String)

/-- What is printed of a value ends its line. -/
theorem output_terminated :
    r.output format name = [] ∨ ∃ line, r.output format name = line ++ [0x0a] := by
  rcases r with e | ⟨v, rest⟩
  · exact .inl rfl
  · exact .inr (exists_line v rest format name)

/-- There is a line exactly if there is a value. -/
theorem line?_eq_none_iff : r.line? format name = none ↔ r.value? = none := by
  rcases r with e | ⟨v, rest⟩
  · exact ⟨fun _ => rfl, fun _ => rfl⟩
  · refine ⟨fun h => ?_, nofun⟩
    cases format <;> cases h

end

end Evaluation

/-! ### Dumps -/

/-- The dumps of inputs in the pieces in which they are written. -/
def Config.dumpPieces (config : Config) (entries : List (String × Bytes)) : List (List Bytes) :=
  (Sources.listing [] entries).files.map fun file =>
    Token.dumpPieces (.listing [] entries) file.lexer.tokens config.format

/-- The dumps of inputs, one after the other. -/
def Config.dumps (config : Config) (entries : List (String × Bytes)) : Bytes :=
  (Sources.listing [] entries).files.flatMap fun file =>
    Token.dump (.listing [] entries) file.lexer.tokens config.format

section
variable (config : Config) (entries : List (String × Bytes))

theorem Config.flatten_dumpPieces :
    ((config.dumpPieces entries).map List.flatten).flatten = config.dumps entries := by
  rw [dumpPieces, List.map_map]
  rfl

theorem Config.ne_nil_of_mem_dumpPieces :
    ∀ pieces ∈ config.dumpPieces entries, pieces ≠ [] := by
  refine List.forall_mem_map.mpr fun file _ => ?_
  cases config.format <;> exact List.cons_ne_nil _ _

theorem Config.length_dumpPieces_entries (contents : Input → Bytes) :
    (config.dumpPieces (config.entries contents)).length = config.inputs.length := by
  have hl := congrArg List.length (Sources.map_files_listing [] (config.entries contents))
  rw [List.length_map, Config.entries, List.length_map] at hl
  rw [dumpPieces, List.length_map, ← hl]
  rfl

end

namespace Session

theorem foldl_dumpFile (env : Environment) (format : OutputFormat)
    (entries : List (String × Bytes)) (ds : List Diagnostic) (output : Bytes)
    (files : List SourceFile) :
    files.foldl (dumpFile env format) (holding env entries ds output) =
      holding env entries
        (ds ++ (env.batches output (files.map fun file =>
          Token.dumpPieces (.listing [] entries) file.lexer.tokens format)).1.map
            (outputError "could not dump the tokens to stdout"))
        (env.batches output (files.map fun file =>
          Token.dumpPieces (.listing [] entries) file.lexer.tokens format)).2 := by
  induction files generalizing ds output with
  | nil => exact congrArg (holding env _ · _) (List.append_nil ds).symm
  | cons file files ih =>
    rw [List.foldl_cons, dumpFile, writeAll_holding, ih, List.append_assoc, ← List.map_append]
    rfl

section
variable {env : Environment} {config : Config} {contents : Input → Bytes}

/-- In the lexer stage a run writes the dumps of its inputs as far as the output takes them. Of each
that is cut off there is a diagnostic, and no other ones. -/
theorem run_of_lexer (hs : config.stage = .lexer)
    (h : ∀ i ∈ config.inputs, i.contents env = .ok (contents i)) :
    run env config =
      holding env (config.entries contents)
        ((env.batches [] (config.dumpPieces (config.entries contents))).1.map
          (outputError "could not dump the tokens to stdout"))
        (env.batches [] (config.dumpPieces (config.entries contents))).2 := by
  rw [run, runWith, loadInputs_of_readable h, hs]
  exact foldl_dumpFile ..

/-- If the output takes everything, all dumps are written and nothing is reported. -/
theorem run_dumped (hs : config.stage = .lexer)
    (h : ∀ i ∈ config.inputs, i.contents env = .ok (contents i))
    (hw : ∀ bytes, env.stdoutFailure bytes = none) :
    run env config =
      holding env (config.entries contents) [] (config.dumps (config.entries contents)) := by
  rw [run_of_lexer hs h, Environment.batches_of_writable _ _ hw, Config.flatten_dumpPieces]
  rfl

/-- If the output takes nothing, this is reported for each dump. -/
theorem run_undumped {f : Failure} (hs : config.stage = .lexer)
    (h : ∀ i ∈ config.inputs, i.contents env = .ok (contents i))
    (hf : ∀ bytes, env.stdoutFailure bytes = some f) :
    run env config =
      holding env (config.entries contents)
        (config.inputs.map fun _ => outputError "could not dump the tokens to stdout" f) [] := by
  rw [run_of_lexer hs h,
    Environment.batches_of_failing _ _ hf (config.ne_nil_of_mem_dumpPieces _), List.map_replicate,
    config.length_dumpPieces_entries, List.map_const']

end

/-! ### All runs -/

/-- Warnings leave a run a success. -/
theorem exitCode_eq_zero_iff (s : Session) :
    s.exitCode = 0 ↔ ∀ d ∈ s.diagnostics.recorded, d.severity.isError = false := by
  have he : s.diagnostics.hasErrors = false ↔
      ∀ d ∈ s.diagnostics.recorded, d.severity.isError = false := by
    simp [Diagnostics.hasErrors]
  rw [← he, exitCode]
  split <;> simp [*]

theorem exitCode_eq_one_iff (s : Session) :
    s.exitCode = 1 ↔ ∃ d ∈ s.diagnostics.recorded, d.severity.isError = true := by
  rw [← List.any_eq_true, exitCode]
  split <;> simp_all [Diagnostics.hasErrors]

theorem readable_iff {env : Environment} {config : Config} :
    (∀ i ∈ config.inputs, ∃ bytes, i.contents env = .ok bytes) ↔
      ¬ ∃ i ∈ config.inputs, ∃ f, i.contents env = .error f := by
  constructor
  · rintro h ⟨i, hi, f, hf⟩
    obtain ⟨bytes, hb⟩ := h i hi
    cases hb.symm.trans hf
  · intro h i hi
    cases hc : i.contents env with
    | ok bytes => exact ⟨bytes, rfl⟩
    | error f => exact absurd ⟨i, hi, f, hc⟩ h

theorem exists_contents {env : Environment} {config : Config}
    (h : ∀ i ∈ config.inputs, ∃ bytes, i.contents env = .ok bytes) :
    ∃ contents : Input → Bytes, ∀ i ∈ config.inputs, i.contents env = .ok (contents i) := by
  refine ⟨fun i => (i.contents env).toOption.getD [], fun i hi => ?_⟩
  obtain ⟨bytes, hb⟩ := h i hi
  simp only [hb, Except.toOption, Option.getD_some]

/-- However a run ends, the emitter was told all that was reported. -/
theorem exists_run_eq (env : Environment) (config : Config) :
    ∃ entries ds output, run env config = holding env entries ds output := by
  by_cases h : ∃ i ∈ config.inputs, ∃ f, i.contents env = .error f
  · obtain ⟨i, hi, f, hf⟩ := h
    exact ⟨_, _, _, run_of_unreadable hi hf⟩
  · obtain ⟨contents, hc⟩ := exists_contents (readable_iff.mpr h)
    cases hs : config.stage with
    | lexer => exact ⟨_, _, _, run_of_lexer hs hc⟩
    | eval => exact ⟨_, _, _, run_of_eval hs hc⟩

end Session
end CommandLine
end Calculator
