import Calculator.CommandLine.Arguments
import Calculator.CommandLine.Report
import Calculator.Evaluate

/-! What a job puts out, given what the system answers to reads and writes. -/

namespace Calculator.CommandLine

structure Environment where
  fileContents : String → Except Failure Bytes
  stdin : Except Failure Bytes
  /-- Why a write that would leave the standard output with some bytes fails, if it does. -/
  stdoutFailure : Bytes → Option Failure := fun _ => none
  palette : Palette := .plain

/-- What comes of printing a text that is just lost if it cannot be written. -/
def Environment.printed (env : Environment) (text : String) : Bytes :=
  if (env.stdoutFailure (.ofString text)).isNone then .ofString text else []

structure Session where
  sources : Sources := {}
  diagnostics : Diagnostics Palette := {}
  stdout : Bytes := []
  /-- The lines on the terminal. -/
  stderr : List String := []

namespace Session

def start (env : Environment) : Session :=
  { diagnostics := ({} : Diagnostics Palette).setEmitter env.palette }

/-- Emits a draft. The emitter prints what it is handed, with the sources as they are then. -/
def report (s : Session) (draft : Diagnostic.Draft) : Session :=
  let diagnostics := (s.diagnostics.emit draft).2
  let printed := (s.diagnostics.deliveredSince diagnostics).map fun (palette, d) =>
    diagnosticLine palette s.sources d
  { s with diagnostics, stderr := s.stderr ++ printed }

theorem report_of_message {s : Session} {draft : Diagnostic.Draft} {message : Message}
    (h : draft.message = some message) :
    s.report draft =
      { s with
        diagnostics := s.diagnostics.record ⟨draft.severity, message, draft.cause⟩
        stderr := s.stderr ++ (s.diagnostics.emitter.map fun palette =>
          diagnosticLine palette s.sources ⟨draft.severity, message, draft.cause⟩).toList } := by
  rw [report, Diagnostics.emit_of_message h, Diagnostics.deliveredSince_record]
  cases s.diagnostics.emitter <;> rfl

def reportFailure (s : Session) (severity : Severity) (text : String) (f : Failure) : Session :=
  s.report (({ severity : Diagnostic.Draft }.withMessage { text }).withCause (.failure f))

/-- Takes in what came of reading an input. -/
def load (s : Session) (name : String) (contents : Except Failure Bytes) (severity : Severity)
    (complaint : String) : Session :=
  match s.sources.loadResult name contents with
  | (.ok _, sources) => { s with sources }
  | (.error f, sources) => { s with sources }.reportFailure severity complaint f

/-- The name of an expression by its place among the arguments. -/
def argumentName (index : Nat) : String := "<arg " ++ toString (index + 1) ++ ">"

def loadExpressions (s : Session) (expressions : List String) : Session :=
  expressions.zipIdx.foldl (fun s (text, i) =>
    { s with sources := (s.sources.load (argumentName i) (.ofString text)).2 }) s

def loadFiles (env : Environment) (s : Session) (paths : List String) : Session :=
  paths.foldl (fun s path =>
    s.load path (env.fileContents path) .error ("could not load file " ++ path)) s

def loadStdin (env : Environment) (s : Session) : Session :=
  s.load "<stdin>" env.stdin .fatal "could not read the standard input"

/-- Loads the expressions, then the files, and the standard input where there are neither. -/
def loadInputs (env : Environment) (config : Config) (s : Session) : Session :=
  let s := loadFiles env (s.loadExpressions config.expressions) config.files
  if config.usesStdin then loadStdin env s else s

/-- Steps that write, up to one that fails. -/
abbrev Writing (α : Type) := ExceptT Failure (StateM Session) α

/-- Writes to the standard output, which takes all of it or nothing. -/
def write (env : Environment) (bytes : Bytes) : Writing Unit := do
  let s ← get
  match env.stdoutFailure (s.stdout ++ bytes) with
  | none => set { s with stdout := s.stdout ++ bytes }
  | some f => throw f

/-- What a write does. -/
theorem run_write (env : Environment) (bytes : Bytes) (s : Session) :
    (write env bytes).run.run s =
      match env.stdoutFailure (s.stdout ++ bytes) with
      | none => (.ok (), { s with stdout := s.stdout ++ bytes })
      | some f => (.error f, s) := by
  rw [write, ExceptT.run_bind, StateT.run_bind]
  change StateT.run (ExceptT.run (match env.stdoutFailure (s.stdout ++ bytes) with
    | none => set { s with stdout := s.stdout ++ bytes }
    | some f => throw f : Writing Unit)) s = _
  cases env.stdoutFailure (s.stdout ++ bytes) <;> rfl

/-- Writes pieces one after the other, up to the first one that cannot be written, and reports if
there is one. -/
def writeAll (env : Environment) (s : Session) (pieces : List Bytes) (complaint : String) :
    Session :=
  match (forM pieces (write env)).run.run s with
  | (.ok (), s) => s
  | (.error f, s) => s.reportFailure .error complaint f

def dumpFile (env : Environment) (format : OutputFormat) (s : Session) (file : SourceFile) :
    Session :=
  writeAll env s (Token.dumpPieces s.sources file.lexer.tokens format)
    "could not dump the tokens to stdout"

def dumpTokens (env : Environment) (format : OutputFormat) (s : Session) : Session :=
  s.sources.files.foldl (dumpFile env format) s

/-- Reports why an input has no value, at the place of the error. -/
def reportError (s : Session) (e : EvalError) : Session :=
  s.report ({ severity := .error : Diagnostic.Draft }.withError e.spanned)

/-- Warns of a token that follows a complete expression, unless it is the end. -/
def warnOfTrailing (s : Session) (rest : Token) : Session :=
  if rest.isEof then s
  else
    s.report ({ severity := .warning : Diagnostic.Draft }.withMessage {
      text := "ignoring the input starting with " ++ rest.text
      span := some rest.span })

/-- Computes the value of an input, or reports why it has none. -/
def evaluateFile (config : Config) (s : Session) (file : SourceFile) : Option Int32 × Session :=
  if config.allowTrailing then
    match file.lexer.evaluateLeading with
    | .ok (v, rest) => (some v, s.warnOfTrailing rest)
    | .error e => (none, s.reportError e)
  else
    match file.lexer.evaluate with
    | .ok v => (some v, s)
    | .error e => (none, s.reportError e)

/-- Computes the values of inputs, leaving out those that have none. -/
def evaluateFiles (config : Config) (s : Session) :
    List SourceFile → List (SourceId × Int32) × Session
  | [] => ([], s)
  | file :: files =>
    let (value, s) := s.evaluateFile config file
    let (results, s) := s.evaluateFiles config files
    ((value.map (file.id, ·)).toList ++ results, s)

def resultLine (sources : Sources) (format : OutputFormat) (result : SourceId × Int32) : Bytes :=
  let value := Decimal.ofInt result.2.toInt ++ .ofString "\n"
  match format with
  | .plain => value
  | .debug => .ofString (sources.nameOf (some result.1) ++ ": ") ++ value

/-- Prints the values of all inputs that have one. -/
def printValues (env : Environment) (config : Config) (s : Session) : Session :=
  let (results, s) := s.evaluateFiles config s.sources.files
  writeAll env s (results.map (resultLine s.sources config.format))
    "could not write the results to stdout"

/-- Runs a job, with `evaluation` in the place of the stage behind the tokens. Where an input could
not be loaded, none is processed. -/
def runWith (evaluation : Session → Session) (env : Environment) (config : Config) : Session :=
  let s := (start env).loadInputs env config
  if s.diagnostics.hasErrors then s
  else
    match config.stage with
    | .lexer => s.dumpTokens env config.format
    | .eval => evaluation s

def run (env : Environment) (config : Config) : Session :=
  runWith (printValues env config) env config

/-- A run has failed if an error was reported. -/
def exitCode (s : Session) : Nat := if s.diagnostics.hasErrors then 1 else 0

end Session

/-- How the program ends, and what it has put out by then. -/
structure Completion where
  exitCode : Nat
  stdout : Bytes := []
  stderr : String := ""

def versionText : String := "rdcalc 0.1.0\n"

def helpText : String :=
  "Usage: rdcalc [OPTIONS] [EXPR]...\n\n" ++
  "Arguments:\n" ++
  "  [EXPR]...  expressions to evaluate\n\n" ++
  "Options:\n" ++
  "  -f, --file <FILE>      evaluate the contents of a file\n" ++
  "  -s, --stage <STAGE>    the stage to stop after [possible values: lexer, eval]\n" ++
  "      --format <FORMAT>  the output format [possible values: plain, debug]\n" ++
  "      --allow-trailing   ignore input that follows a complete expression\n" ++
  "  -h, --help             Print help\n" ++
  "  -V, --version          Print version\n"

def Request.complete (env : Environment) : Request → Completion
  | .calculate config =>
    let s := Session.run env config
    { exitCode := s.exitCode, stdout := s.stdout, stderr := String.join s.stderr }
  | .version => { exitCode := 0, stdout := env.printed versionText }
  | .help => { exitCode := 0, stdout := env.printed helpText }

def complete (env : Environment) (arguments : List String) : Completion :=
  match parse arguments with
  | .ok request => request.complete env
  | .error e => { exitCode := 2, stderr := "error: " ++ e.message ++ "\n" }

end Calculator.CommandLine
