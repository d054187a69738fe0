import Mathlib.Data.List.Basic
import Calculator.Proofs.CommandLine.Loading

/-!
# Output that is written piece by piece

Pieces are written one after the other. The first one that the output refuses, if there is one
(`Environment.refusal?`), keeps the later ones from being tried, but what was written before it stays
(`Session.run_forM_write`). It is reported once (`Session.writeAll_holding`). Of several batches of
pieces each is tried, whatever came of the ones before it (`Environment.batches`).
-/

namespace Calculator.CommandLine

namespace Environment

/-- The first of some pieces that the output refuses behind what it holds, by the number of those
before it, and why. -/
def refusal? (env : Environment) (output : Bytes) (pieces : List Bytes) : Option (Nat × Failure) :=
  (List.range pieces.length).findSome? fun n =>
    (env.stdoutFailure (output ++ (pieces.take (n + 1)).flatten)).map (n, ·)

/-- Why not all of some pieces are written. -/
def failure? (env : Environment) (output : Bytes) (pieces : List Bytes) : Option Failure :=
  (env.refusal? output pieces).map (·.2)

/-- What the output holds in the end, if pieces are written up to the first that it refuses. -/
def written (env : Environment) (output : Bytes) (pieces : List Bytes) : Bytes :=
  match env.refusal? output pieces with
  | none => output ++ pieces.flatten
  | some (n, _) => output ++ (pieces.take n).flatten

section
variable {env : Environment} {output piece : Bytes} {pieces : List Bytes} {f : Failure}

theorem written_nil : env.written output [] = output := List.append_nil output

theorem refusal?_cons_of_some (h : env.stdoutFailure (output ++ piece) = some f) :
    env.refusal? output (piece :: pieces) = some (0, f) := by
  rw [refusal?, List.length_cons, List.range_succ_eq_map, List.findSome?_cons]
  simp [h]

/-- The pieces behind one that was written are refused as they would be without it. -/
theorem refusal?_cons_of_none (h : env.stdoutFailure (output ++ piece) = none) :
    env.refusal? output (piece :: pieces) =
      (env.refusal? (output ++ piece) pieces).map fun (n, f) => (n + 1, f) := by
  rw [refusal?, List.length_cons, List.range_succ_eq_map, List.findSome?_cons, refusal?,
    List.map_findSome?, List.findSome?_map]
  simp [h, Function.comp_def]

theorem written_cons_of_some (h : env.stdoutFailure (output ++ piece) = some f) :
    env.written output (piece :: pieces) = output := by
  rw [written, refusal?_cons_of_some h]
  exact List.append_nil output

theorem written_cons_of_none (h : env.stdoutFailure (output ++ piece) = none) :
    env.written output (piece :: pieces) = env.written (output ++ piece) pieces := by
  rw [written, written, refusal?_cons_of_none h]
  cases env.refusal? (output ++ piece) pieces with
  | none => simp
  | some refusal => simp

end

/-- What comes of batches of pieces, each of them written up to the first piece that is refused: why
there are pieces missing, and what the output holds in the end. -/
def batches (env : Environment) (output : Bytes) : List (List Bytes) → List Failure × Bytes
  | [] => ([], output)
  | pieces :: later =>
    let rest := env.batches (env.written output pieces) later
    ((env.failure? output pieces).toList ++ rest.1, rest.2)

/-- At most one failure comes of a batch. -/
theorem length_batches_le (env : Environment) (output : Bytes) (list : List (List Bytes)) :
    (env.batches output list).1.length ≤ list.length := by
  induction list generalizing output with
  | nil => exact Nat.le_refl 0
  | cons pieces later ih =>
    have hl := ih (env.written output pieces)
    have ho : (env.failure? output pieces).toList.length ≤ 1 := Option.length_toList_le
    rw [batches, List.length_append, List.length_cons]
    omega

/-! ### Outputs that take everything or nothing -/

section
variable {env : Environment} (output : Bytes) (pieces : List Bytes) (list : List (List Bytes))

theorem refusal?_of_writable (hw : ∀ bytes, env.stdoutFailure bytes = none) :
    env.refusal? output pieces = none :=
  List.findSome?_eq_none_iff.mpr fun n _ => by rw [hw, Option.map_none]

theorem failure?_of_writable (hw : ∀ bytes, env.stdoutFailure bytes = none) :
    env.failure? output pieces = none := by
  rw [failure?, refusal?_of_writable _ _ hw, Option.map_none]

theorem written_of_writable (hw : ∀ bytes, env.stdoutFailure bytes = none) :
    env.written output pieces = output ++ pieces.flatten := by
  rw [written, refusal?_of_writable _ _ hw]

theorem batches_of_writable (hw : ∀ bytes, env.stdoutFailure bytes = none) :
    env.batches output list = ([], output ++ (list.map List.flatten).flatten) := by
  induction list generalizing output with
  | nil => rw [batches, List.map_nil, List.flatten_nil, List.append_nil]
  | cons pieces later ih =>
    rw [batches, failure?_of_writable _ _ hw, written_of_writable _ _ hw, ih, List.map_cons,
      List.flatten_cons, List.append_assoc]
    rfl

variable {f : Failure}

theorem failure?_of_failing (hf : ∀ bytes, env.stdoutFailure bytes = some f) :
    env.failure? output pieces = pieces.head?.map fun _ => f := by
  cases pieces with
  | nil => rfl
  | cons piece pieces =>
    rw [failure?, refusal?_cons_of_some (hf _)]
    rfl

theorem written_of_failing (hf : ∀ bytes, env.stdoutFailure bytes = some f) :
    env.written output pieces = output := by
  cases pieces with
  | nil => exact written_nil
  | cons piece pieces => exact written_cons_of_some (hf _)

theorem batches_of_failing (hf : ∀ bytes, env.stdoutFailure bytes = some f)
    (hne : ∀ pieces ∈ list, pieces ≠ []) :
    env.batches output list = (List.replicate list.length f, output) := by
  induction list with
  | nil => rfl
  | cons pieces later ih =>
    obtain ⟨hp, hl⟩ := List.forall_mem_cons.mp hne
    obtain ⟨piece, pieces, rfl⟩ := List.exists_cons_of_ne_nil hp
    rw [batches, failure?_of_failing _ _ hf, written_of_failing _ _ hf, ih hl]
    rfl

end

end Environment

/-- The diagnostic that the output could not be written. -/
def outputError (complaint : String) (f : Failure) : Diagnostic where
  severity := .error
  message := { text := complaint }
  cause := some (.failure f)

namespace Session

/-- Writing stops at the first piece that is refused, with the ones before it written. -/
theorem run_forM_write (env : Environment) (pieces : List Bytes) (s : Session) :
    (forM pieces (write env)).run.run s =
      ((env.failure? s.stdout pieces).elim (.ok ()) .error,
        { s with stdout := env.written s.stdout pieces }) := by
  induction pieces generalizing s with
  | nil =>
    rw [Environment.written_nil]
    rfl
  | cons piece pieces ih =>
    rw [List.forM_cons, ExceptT.run_bind, StateT.run_bind, run_write]
    cases h : env.stdoutFailure (s.stdout ++ piece) with
    | some f =>
      rw [Environment.failure?, Environment.refusal?_cons_of_some h,
        Environment.written_cons_of_some h]
      rfl
    | none =>
      rw [Environment.failure?, Environment.refusal?_cons_of_none h,
        Environment.written_cons_of_none h, Option.map_map]
      exact ih { s with stdout := s.stdout ++ piece }

/-- Of pieces that are written there is a diagnostic if one of them is refused. -/
theorem writeAll_holding (env : Environment) (entries : List (String × Bytes))
    (ds : List Diagnostic) (output : Bytes) (pieces : List Bytes) (complaint : String) :
    writeAll env (holding env entries ds output) pieces complaint =
      holding env entries (ds ++ (env.failure? output pieces).toList.map (outputError complaint))
        (env.written output pieces) := by
  rw [writeAll, run_forM_write, show (holding env entries ds output).stdout = output from rfl]
  cases env.failure? output pieces with
  | none => exact (congrArg (holding env entries · _) (List.append_nil ds)).symm
  | some f => exact report_holding env entries ds _ rfl

end Session

end Calculator.CommandLine
