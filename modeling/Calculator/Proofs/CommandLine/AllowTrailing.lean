import Mathlib.Data.List.Flatten
import Calculator.Proofs.CommandLine.Runs
import Calculator.Proofs.TrailingInput

/-!
# Runs that ignore the rest of an input

If what follows an expression is ignored, a run prints the same values and more, and warns where it
had reported an error about the rest. Nothing else changes (`Session.relaxes_run`).
-/

namespace Calculator

/-- What becomes of a diagnostic if the rest of an input is ignored: an error about the rest becomes
a warning. -/
def Diagnostic.relaxed (d : Diagnostic) : Diagnostic :=
  match d.cause with
  | some (.evaluation (.unexpectedToken [.eof] t)) => {
      severity := .warning
      message := { text := "ignoring the input starting with " ++ t.text, span := some t.span } }
  | _ => d

theorem Diagnostic.relaxed_of_ne {d : Diagnostic}
    (h : ∀ t, d.cause ≠ some (.evaluation (.trailing t))) : d.relaxed = d := by
  unfold relaxed
  split
  · next t hc => exact absurd hc (h t)
  · rfl

/-- No diagnostic becomes an error. -/
theorem Diagnostic.isError_of_relaxed {d : Diagnostic} (h : d.relaxed.severity.isError = true) :
    d.severity.isError = true := by
  unfold relaxed at h
  split at h
  · cases h
  · exact h

namespace CommandLine.Evaluation

/-- A result beside another one for which the rest of the input was ignored. -/
structure Relaxes (strict permissive : Evaluation) : Prop where
  diagnostic?_eq : permissive.diagnostic? = strict.diagnostic?.map Diagnostic.relaxed
  output_eq (format : OutputFormat) (name : String) : strict.output format name = [] ∨
    strict.output format name = permissive.output format name

/-- The rest of an input makes no difference to its value, or to an error that is not about it. -/
theorem Relaxes.of_agreement {a : Except EvalError Int32} {b : Except EvalError (Int32 × Token)}
    (h : Agreement a b) : Relaxes (a.map (·, none))
      (b.map fun (v, rest) => (v, if rest.isEof then none else some rest)) := by
  cases h with
  | complete ht =>
    simp only [Except.map, ht, if_true]
    exact ⟨rfl, fun _ _ => .inr rfl⟩
  | trailing ht =>
    simp only [Except.map, ht, Bool.false_eq_true, if_false]
    exact ⟨rfl, fun _ _ => .inl rfl⟩
  | failed he =>
    refine ⟨congrArg some (Diagnostic.relaxed_of_ne fun t hc => he t ?_).symm, fun _ _ => .inl rfl⟩
    injection hc with hc
    injection hc

end CommandLine.Evaluation

namespace CommandLine

section
variable {α : Type} {f g : α → Bytes}

theorem flatMap_sublist (xs : List α) (h : ∀ x, f x = [] ∨ f x = g x) :
    (xs.flatMap f).Sublist (xs.flatMap g) :=
  .flatMap_right xs fun x _ => (h x).elim (fun hf => hf ▸ List.nil_sublist _) (· ▸ .refl _)

/-- Where whole lines are left out, the lines that remain are still in order. -/
theorem lines_flatMap_sublist (xs : List α) (h : ∀ x, f x = [] ∨ f x = g x)
    (hg : ∀ x, g x = [] ∨ ∃ line, g x = line ++ [0x0a]) :
    ((xs.flatMap f).splitOn 0x0a).Sublist ((xs.flatMap g).splitOn 0x0a) := by
  induction xs with
  | nil => exact .refl _
  | cons x xs ih =>
    rw [List.flatMap_cons, List.flatMap_cons]
    rcases hg x with hx | ⟨line, hx⟩
    · have hf : f x = [] := (h x).elim id (·.trans hx)
      rw [hf, hx]
      exact ih
    · have hs (ys : Bytes) : (g x ++ ys).splitOn 0x0a = line.splitOn 0x0a ++ ys.splitOn 0x0a := by
        rw [hx, List.append_assoc]
        exact List.splitOn_append_cons_self line ys
      rw [hs]
      rcases h x with hf | hf
      · rw [hf, List.nil_append]
        exact ih.trans (List.sublist_append_right ..)
      · rw [hf, hs]
        exact ih.append_left _

end

namespace Config

/-- The same job, with or without the rest of each input ignored. -/
def withTrailing (config : Config) (allowTrailing : Bool) : Config := { config with allowTrailing }

section
variable (config : Config) (entries : List (String × Bytes))

theorem relaxes_evaluate (l : Lexer) :
    Evaluation.Relaxes ((config.withTrailing false).evaluate l)
      ((config.withTrailing true).evaluate l) :=
  .of_agreement (l.agreement recursionLimit)

theorem diagnostics_withTrailing :
    (config.withTrailing true).diagnostics entries =
      ((config.withTrailing false).diagnostics entries).map Diagnostic.relaxed := by
  rw [diagnostics, diagnostics, List.map_filterMap]
  exact congrArg (List.filterMap · _)
    (funext fun file => (config.relaxes_evaluate file.lexer).diagnostic?_eq)

theorem output_withTrailing_sublist :
    ((config.withTrailing false).output entries).Sublist
      ((config.withTrailing true).output entries) :=
  flatMap_sublist entries fun entry =>
    (config.relaxes_evaluate (.ofBytes entry.2)).output_eq config.format entry.1

theorem lines_output_withTrailing_sublist :
    (((config.withTrailing false).output entries).splitOn 0x0a).Sublist
      (((config.withTrailing true).output entries).splitOn 0x0a) :=
  lines_flatMap_sublist entries
    (fun entry => (config.relaxes_evaluate (.ofBytes entry.2)).output_eq config.format entry.1)
    fun entry => Evaluation.output_terminated _ config.format entry.1

end

end Config

namespace Session

/-- A run beside one in which the rest of each input is ignored. -/
structure Relaxes (strict permissive : Session) : Prop where
  stdout_sublist : strict.stdout.Sublist permissive.stdout
  /-- What is missing is missing in whole lines. -/
  lines_sublist : (strict.stdout.splitOn 0x0a).Sublist (permissive.stdout.splitOn 0x0a)
  recorded_eq : permissive.diagnostics.recorded =
    strict.diagnostics.recorded.map Diagnostic.relaxed
  exitCode_eq_zero : strict.exitCode = 0 → permissive.exitCode = 0

theorem exitCode_eq_zero_of_relaxed {s t : Session}
    (h : t.diagnostics.recorded = s.diagnostics.recorded.map Diagnostic.relaxed)
    (hs : s.exitCode = 0) : t.exitCode = 0 := by
  rw [exitCode_eq_zero_iff] at hs ⊢
  rw [h]
  intro d' hd'
  obtain ⟨d, hd, rfl⟩ := List.mem_map.mp hd'
  exact Bool.eq_false_iff.mpr fun he =>
    Bool.eq_false_iff.mp (hs d hd) (Diagnostic.isError_of_relaxed he)

variable {env : Environment} {config : Config} {contents : Input → Bytes}

theorem relaxes_run (hw : ∀ bytes, env.stdoutFailure bytes = none)
    (h : ∀ i ∈ config.inputs, i.contents env = .ok (contents i)) :
    Relaxes (run env (config.withTrailing false)) (run env (config.withTrailing true)) := by
  cases hs : config.stage with
  | lexer =>
    have hr (allowTrailing : Bool) : run env (config.withTrailing allowTrailing) =
        holding env (config.entries contents) [] (config.dumps (config.entries contents)) :=
      run_dumped hs h hw
    rw [hr false, hr true]
    exact ⟨.refl _, .refl _, rfl, id⟩
  | eval =>
    have hr (allowTrailing : Bool) : run env (config.withTrailing allowTrailing) =
        holding env (config.entries contents)
          ((config.withTrailing allowTrailing).diagnostics (config.entries contents))
          ((config.withTrailing allowTrailing).output (config.entries contents)) :=
      run_printed hs h hw
    rw [hr false, hr true]
    have hd := config.diagnostics_withTrailing (config.entries contents)
    exact ⟨config.output_withTrailing_sublist _, config.lines_output_withTrailing_sublist _, hd,
      exitCode_eq_zero_of_relaxed hd⟩

end Session

/-- Evaluating a whole input and what it begins with agree but for the tokens that follow the
expression. So of two runs that can read the same inputs and write their output, the one that ignores
such tokens prints all lines of the other one and has the same diagnostics, with a warning in the
place of each error about such a token. -/
theorem trailingLaw :
    (∀ (bytes : Bytes) (source : Option SourceId) (limit : Nat),
      Agreement ((Lexer.ofBytes bytes source).evaluate limit)
        ((Lexer.ofBytes bytes source).evaluateLeading limit)) ∧
      ∀ (env : Environment) (config : Config), (∀ bytes, env.stdoutFailure bytes = none) →
        (∀ i ∈ config.inputs, ∃ bytes, i.contents env = .ok bytes) →
        (Session.run env (config.withTrailing false)).Relaxes
          (Session.run env (config.withTrailing true)) := by
  refine ⟨fun bytes source limit => (Lexer.ofBytes bytes source).agreement limit,
    fun env config hw h => ?_⟩
  obtain ⟨contents, hc⟩ := Session.exists_contents h
  exact Session.relaxes_run hw hc

/-- Of three inputs the second has a rest, which costs it its value unless it is ignored. -/
theorem trailingLaw_three_inputs :
    (Session.run { fileContents := fun _ => .ok [], stdin := .ok [] }
        (({ expressions := ["1", "2 3", "4/0"] } : Config).withTrailing false)).stdout =
          .ofString "1\n" ∧
      (Session.run { fileContents := fun _ => .ok [], stdin := .ok [] }
        (({ expressions := ["1", "2 3", "4/0"] } : Config).withTrailing true)).stdout =
          .ofString "1\n2\n" ∧
      (Session.run { fileContents := fun _ => .ok [], stdin := .ok [] }
        (({ expressions := ["1", "2 3", "4/0"] } : Config).withTrailing false)).Relaxes
          (Session.run { fileContents := fun _ => .ok [], stdin := .ok [] }
            (({ expressions := ["1", "2 3", "4/0"] } : Config).withTrailing true)) := by
  refine ⟨by decide +kernel, by decide +kernel, trailingLaw.2 _ _ (fun _ => rfl) fun i _ => ?_⟩
  cases i <;> exact ⟨_, rfl⟩

end CommandLine
end Calculator
