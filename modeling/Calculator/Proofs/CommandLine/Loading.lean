import Mathlib.Control.Monad.Basic
import Calculator.CommandLine.Run
import Calculator.Proofs.Sources.Loads

/-!
# The inputs of a command line

A run first loads its inputs, one after the other (`Input.loadInto_holding`). Those that can be read
are its sources, in order, and of each other one there is a diagnostic, in order too
(`Session.loadInputs_start`). If there is any of these, nothing else happens
(`Request.complete_unreadable`). Diagnostics are printed while sources are still being added, which
makes no difference to these because they have no place.
-/

namespace Calculator

namespace Diagnostics
variable {Emitter : Type}

/-- Diagnostics that were all handed to the same emitter. -/
def toldTo (e : Emitter) (ds : List Diagnostic) : Diagnostics Emitter where
  recorded := ds
  emitter := some e
  delivered := ds.map (e, ·)

theorem record_toldTo (e : Emitter) (ds : List Diagnostic) (d : Diagnostic) :
    (toldTo e ds).record d = toldTo e (ds ++ [d]) := by
  simp [record, notify, push, toldTo]

end Diagnostics

namespace CommandLine

/-- A line on the terminal. -/
def Palette.line (p : Palette) (severity : Severity) (text : String) : String :=
  p.label severity ++ " " ++ text ++ "\n"

/-- What has no place is printed alike whatever the sources are. -/
theorem diagnosticLine_eq_of_span {d : Diagnostic} (h : d.message.span = none) (p : Palette)
    (sources sources' : Sources) : diagnosticLine p sources d = diagnosticLine p sources' d := by
  simp only [diagnosticLine, diagnosticText, h]
  cases d.cause <;> rfl

/-- The session that has loaded inputs, reported of them and written output. -/
def Session.holding (env : Environment) (entries : List (String × Bytes)) (ds : List Diagnostic)
    (output : Bytes) : Session where
  sources := .listing [] entries
  diagnostics := .toldTo env.palette ds
  stdout := output
  stderr := ds.map (diagnosticLine env.palette (.listing [] entries))

/-- A draft with a message becomes the last of the diagnostics. -/
theorem Session.report_holding (env : Environment) (entries : List (String × Bytes))
    (ds : List Diagnostic) (output : Bytes) {draft : Diagnostic.Draft} {message : Message}
    (h : draft.message = some message) :
    (holding env entries ds output).report draft =
      holding env entries (ds ++ [⟨draft.severity, message, draft.cause⟩]) output := by
  simp only [report_of_message h, holding, Diagnostics.record_toldTo, List.map_append]
  rfl

/-- An input that a command line names. -/
inductive Input where
  | expression (index : Nat) (text : String)
  | file (path : String)
  | stdin

namespace Input

def name : Input → String
  | .expression index _ => Session.argumentName index
  | .file path => path
  | .stdin => "<stdin>"

/-- What reading the input comes to. -/
def contents (env : Environment) : Input → Except Failure Bytes
  | .expression _ text => .ok (.ofString text)
  | .file path => env.fileContents path
  | .stdin => env.stdin

def load (env : Environment) (i : Input) : Load := .file i.name (i.contents env)

/-- The diagnostic that an input cannot be read. -/
def unreadable (f : Failure) (i : Input) : Diagnostic :=
  match i with
  | .stdin =>
    { severity := .fatal
      message := { text := "could not read the standard input" }
      cause := some (.failure f) }
  | _ =>
    { severity := .error
      message := { text := "could not load file " ++ i.name }
      cause := some (.failure f) }

/-- What is reported of an input when it is loaded. -/
def report? (env : Environment) (i : Input) : Option Diagnostic :=
  match i.contents env with
  | .ok _ => none
  | .error f => some (i.unreadable f)

def loadInto (env : Environment) (s : Session) : Input → Session
  | .expression index text =>
    { s with sources := (s.sources.load (Session.argumentName index) (.ofString text)).2 }
  | .file path => s.load path (env.fileContents path) .error ("could not load file " ++ path)
  | .stdin => s.loadStdin env

theorem isError_unreadable (f : Failure) (i : Input) : (i.unreadable f).severity.isError = true := by
  cases i <;> rfl

theorem span_unreadable (f : Failure) (i : Input) : (i.unreadable f).message.span = none := by
  cases i <;> rfl

section
variable {env : Environment} {i : Input}

theorem report?_of_ok {contents : Bytes} (h : i.contents env = .ok contents) :
    i.report? env = none := by
  rw [report?, h]

theorem report?_of_error {f : Failure} (h : i.contents env = .error f) :
    i.report? env = some (i.unreadable f) := by
  rw [report?, h]

theorem span_of_report? {d : Diagnostic} (h : i.report? env = some d) : d.message.span = none := by
  rw [report?] at h
  split at h
  · cases h
  · cases h
    exact i.span_unreadable _

theorem any_isError_report? {f : Failure} {inputs : List Input} (hi : i ∈ inputs)
    (hf : i.contents env = .error f) :
    (inputs.filterMap (report? env)).any (·.severity.isError) = true :=
  List.any_eq_true.mpr ⟨_, List.mem_filterMap.mpr ⟨i, hi, report?_of_error hf⟩,
    i.isError_unreadable f⟩

end

end Input

/-- The inputs in the order in which they are processed. -/
def Config.inputs (config : Config) : List Input :=
  config.expressions.zipIdx.map (fun (text, index) => .expression index text) ++
    config.files.map .file ++ if config.usesStdin then [.stdin] else []

section
variable {env : Environment} {entries : List (String × Bytes)} {ds : List Diagnostic}

/-- More sources make no difference to what was printed of diagnostics without a place. -/
theorem Session.load_holding (hds : ∀ d ∈ ds, d.message.span = none) (name : String)
    (contents : Except Failure Bytes) (severity : Severity) (complaint : String) :
    (holding env entries ds []).load name contents severity complaint =
      match contents with
      | .ok bytes => holding env (entries ++ [(name, bytes)]) ds []
      | .error f => holding env entries
          (ds ++ [{ severity, message := { text := complaint }, cause := some (.failure f) }]) [] := by
  cases contents with
  | ok bytes =>
    have hl : ds.map (diagnosticLine env.palette (.listing [] (entries ++ [(name, bytes)]))) =
        ds.map (diagnosticLine env.palette (.listing [] entries)) :=
      List.map_congr_left fun d hd => diagnosticLine_eq_of_span (hds d hd) ..
    simp only [load, holding, Sources.loadResult, Sources.load_listing, hl]
  | error f => exact report_holding env entries ds [] rfl

/-- An input that can be read is added to the sources, and of any other one there is a
diagnostic. -/
theorem Input.loadInto_holding (hds : ∀ d ∈ ds, d.message.span = none) (i : Input) :
    i.loadInto env (.holding env entries ds []) =
      .holding env (entries ++ (i.load env).read?.toList) (ds ++ (i.report? env).toList) [] := by
  have main (severity : Severity) (complaint : String)
      (hu : ∀ f, i.unreadable f =
        { severity, message := { text := complaint }, cause := some (.failure f) }) :
      (Session.holding env entries ds []).load i.name (i.contents env) severity complaint =
        .holding env (entries ++ (i.load env).read?.toList) (ds ++ (i.report? env).toList) [] := by
    rw [Session.load_holding hds]
    cases h : i.contents env with
    | ok bytes =>
      rw [report?_of_ok h, Load.read?_of_ok (l := i.load env) h]
      simp [load, Load.name]
    | error f =>
      rw [report?_of_error h, Load.read?_of_error (l := i.load env) h, hu]
      simp
  cases i <;> exact main _ _ fun _ => rfl

theorem Input.foldl_loadInto (hds : ∀ d ∈ ds, d.message.span = none) (inputs : List Input) :
    inputs.foldl (loadInto env) (.holding env entries ds []) =
      .holding env (entries ++ inputs.filterMap fun i => (i.load env).read?)
        (ds ++ inputs.filterMap (report? env)) [] := by
  induction inputs generalizing entries ds with
  | nil => simp
  | cons i inputs ih =>
    have hi : ∀ d ∈ ds ++ (i.report? env).toList, d.message.span = none := by
      intro d hd
      rcases List.mem_append.mp hd with hd | hd
      · exact hds d hd
      · exact span_of_report? (Option.mem_toList.mp hd)
    rw [List.foldl_cons, loadInto_holding hds, ih hi, List.append_assoc, List.append_assoc,
      List.filterMap_cons, List.filterMap_cons]
    cases (i.load env).read? <;> cases i.report? env <;> rfl

end

namespace Session

theorem loadInputs_eq_foldl (env : Environment) (config : Config) (s : Session) :
    s.loadInputs env config = config.inputs.foldl (Input.loadInto env) s := by
  rw [Config.inputs, List.foldl_append, List.foldl_append, List.foldl_map, List.foldl_map]
  unfold loadInputs
  split <;> rfl

/-- What loading comes to: the sources are the inputs that can be read, and the diagnostics are
those of the others. -/
theorem loadInputs_start (env : Environment) (config : Config) :
    (start env).loadInputs env config =
      holding env (config.inputs.filterMap fun i => (i.load env).read?)
        (config.inputs.filterMap (Input.report? env)) [] := by
  rw [loadInputs_eq_foldl, show start env = holding env [] [] [] from rfl,
    Input.foldl_loadInto fun _ h => absurd h List.not_mem_nil, List.nil_append, List.nil_append]

/-- Where an input cannot be read, loading is all that happens. -/
theorem run_of_unreadable {env : Environment} {config : Config} {i : Input} {f : Failure}
    (hi : i ∈ config.inputs) (hf : i.contents env = .error f) :
    run env config =
      holding env (config.inputs.filterMap fun i => (i.load env).read?)
        (config.inputs.filterMap (Input.report? env)) [] := by
  rw [run, runWith, loadInputs_start]
  exact if_pos (Input.any_isError_report? hi hf)

end Session

/-! ### Files that cannot be read -/

/-- The line that is printed of a file if it cannot be read. -/
def unreadableLine? (env : Environment) (path : String) : Option String :=
  match env.fileContents path with
  | .ok _ => none
  | .error f => some (env.palette.line .error ("could not load file " ++ path ++ ": " ++ f.message))

theorem Config.inputs_of_mem_files {config : Config} {path : String} (h : path ∈ config.files) :
    config.inputs =
      config.expressions.zipIdx.map (fun (text, index) => .expression index text) ++
        config.files.map .file := by
  have hs : config.usesStdin = false := by
    rw [usesStdin, List.isEmpty_eq_false_iff.mpr (List.ne_nil_of_mem h), Bool.and_false]
  rw [inputs, hs]
  exact List.append_nil _

/-- What is reported of a file is printed as a line. -/
theorem Input.line_report?_file (env : Environment) (sources : Sources) (path : String) :
    ((Input.file path).report? env).map (diagnosticLine env.palette sources) =
      unreadableLine? env path := by
  cases h : env.fileContents path with
  | ok => rw [unreadableLine?, h, report?_of_ok (i := .file path) h]; rfl
  | error f =>
    rw [unreadableLine?, h, report?_of_error (i := .file path) h]
    rfl

theorem Session.lines_of_mem_files {config : Config} {path : String} (h : path ∈ config.files)
    (env : Environment) (sources : Sources) :
    (config.inputs.filterMap (Input.report? env)).map (diagnosticLine env.palette sources) =
      config.files.filterMap (unreadableLine? env) := by
  have hx : (config.expressions.zipIdx.map fun (text, index) => Input.expression index text
      ).filterMap (Input.report? env) = [] := by
    rw [List.filterMap_map]
    exact List.filterMap_eq_nil_iff.mpr fun _ _ => rfl
  rw [Config.inputs_of_mem_files h, List.filterMap_append, hx, List.nil_append,
    List.filterMap_map, List.map_filterMap]
  exact congrArg (config.files.filterMap ·) (funext (Input.line_report?_file env sources))

/-- If a file cannot be read, the run fails and evaluates none of its inputs: it prints nothing but
a line for each of the files that cannot be read, in order. -/
theorem Request.complete_unreadable (env : Environment) (config : Config)
    (h : ∃ path ∈ config.files, ∃ f, env.fileContents path = .error f) :
    (Request.calculate config).complete env =
      { exitCode := 1
        stdout := []
        stderr := String.join (config.files.filterMap (unreadableLine? env)) } := by
  obtain ⟨path, hp, f, hf⟩ := h
  have hi : Input.file path ∈ config.inputs := by
    rw [Config.inputs_of_mem_files hp]
    exact List.mem_append_right _ (List.mem_map_of_mem hp)
  have hr := Session.run_of_unreadable hi hf
  have he : (Session.run env config).diagnostics.hasErrors = true := by
    rw [hr]
    exact Input.any_isError_report? hi hf
  have hd : (Session.run env config).stderr = config.files.filterMap (unreadableLine? env) := by
    rw [hr]
    exact Session.lines_of_mem_files hp env _
  simp only [complete, Session.exitCode, he, hd, if_true]
  rw [hr]
  rfl

/-- Of the two files that cannot be read there is a line each, and none of the third. -/
theorem Request.complete_missing_and_directory :
    (Request.calculate { expressions := ["1"], files := ["missing", "a", "directory"] }).complete
        { fileContents := fun path =>
            if path = "a" then .ok [0x32]
            else if path = "directory" then .error .isADirectory
            else .error .notFound
          stdin := .ok [] } =
      { exitCode := 1
        stdout := []
        stderr :=
          "ERROR could not load file missing: No such file or directory (os error 2)\n" ++
          "ERROR could not load file directory: Is a directory (os error 21)\n" } := by
  rw [complete_unreadable _ _ ⟨"missing", List.mem_cons_self, .notFound, rfl⟩]
  rfl

/-- The sum `1 + 2` has a value, but next to a file that cannot be read it is not printed. -/
theorem Request.complete_sum_and_missing :
    (Lexer.ofBytes (.ofString "1 + 2")).evaluate = .ok 3 ∧
      ((Request.calculate { expressions := ["1 + 2"], files := ["missing"] }).complete
        { fileContents := fun _ => .error .notFound, stdin := .ok [] }).stdout = [] := by
  constructor <;> decide +kernel

end CommandLine
end Calculator
