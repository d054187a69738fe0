import Calculator.Dump

/-! What the arguments of the command line ask for. -/

namespace Calculator.CommandLine

/-- How far the inputs are processed. -/
inductive Stage where
  /-- Up to their tokens, which are printed. -/
  | lexer
  /-- Up to their values. -/
  | eval
deriving DecidableEq

structure Config where
  expressions : List String := []
  /-- Paths of files that hold an expression each. -/
  files : List String := []
  stage : Stage := .eval
  format : OutputFormat := .plain
  /-- Whatever follows a complete expression is no error and only warned of. -/
  allowTrailing : Bool := false
deriving DecidableEq

/-- The standard input is read where nothing else is given. -/
def Config.usesStdin (c : Config) : Bool := c.expressions.isEmpty && c.files.isEmpty

inductive Request where
  | calculate (config : Config)
  | version
  | help
deriving DecidableEq

inductive Flag where
  | file
  | stage
  | format
  | allowTrailing
  | version
  | help
deriving DecidableEq

inductive UsageError where
  | unknownFlag (argument : String)
  | missingValue (flag : Flag)
  | unwantedValue (flag : Flag)
  | invalidValue (flag : Flag) (value : String)
  | repeated (flag : Flag)
deriving DecidableEq

namespace Flag

def name : Flag → String
  | .file => "file"
  | .stage => "stage"
  | .format => "format"
  | .allowTrailing => "allow-trailing"
  | .version => "version"
  | .help => "help"

def all : List Flag := [.file, .stage, .format, .allowTrailing, .version, .help]

/-- Names are not abbreviated. -/
def ofName? (name : String) : Option Flag := all.find? (·.name = name)

def ofLetter? : Char → Option Flag
  | 'f' => some .file
  | 's' => some .stage
  | 'V' => some .version
  | 'h' => some .help
  | _ => none

def takesValue : Flag → Bool
  | .file | .stage | .format => true
  | .allowTrailing | .version | .help => false

end Flag

def UsageError.message : UsageError → String
  | .unknownFlag argument => "unexpected argument '" ++ argument ++ "'"
  | .missingValue flag => "a value is required for '--" ++ flag.name ++ "'"
  | .unwantedValue flag => "no value is allowed for '--" ++ flag.name ++ "'"
  | .invalidValue flag value => "invalid value '" ++ value ++ "' for '--" ++ flag.name ++ "'"
  | .repeated flag => "'--" ++ flag.name ++ "' cannot be used more than once"

/-- An exponent with at least one digit, or nothing. -/
private def isExponent : List Char → Bool
  | [] => true
  | e :: digits => (e == 'e' || e == 'E') && !digits.isEmpty && digits.all Char.isDigit

/-- A decimal number: digits, then perhaps a point, which digits may follow, and an exponent. -/
def isNumber (text : List Char) : Bool :=
  text.head?.any Char.isDigit &&
    match text.dropWhile Char.isDigit with
    | '.' :: fraction => isExponent (fraction.dropWhile Char.isDigit)
    | rest => isExponent rest

inductive Word where
  /-- An expression, or the value of the flag before it. -/
  | plain (text : String)
  /-- Everything after two dashes is an expression. -/
  | endOfFlags
  | flag (flag : Flag) (value : Option String)
  | unknown
deriving DecidableEq

/-- A value may follow the letter of a flag directly or after an equals sign. -/
private def valueAfterLetter : List Char → Option String
  | [] => none
  | '=' :: value => some (String.ofList value)
  | value => some (String.ofList value)

/-- Flags begin with a dash, but so do negative numbers, and a dash alone is plain. -/
def Word.ofArgument (argument : String) : Word :=
  match argument.toList with
  | ['-', '-'] => .endOfFlags
  | '-' :: '-' :: body =>
    match Flag.ofName? (String.ofList (body.takeWhile (· ≠ '='))) with
    | none => .unknown
    | some f => .flag f ((body.dropWhile (· ≠ '=')).tail?.map String.ofList)
  | '-' :: letter :: rest =>
    if isNumber (letter :: rest) then .plain argument
    else
      match Flag.ofLetter? letter with
      | none => .unknown
      | some f => .flag f (if f.takesValue then valueAfterLetter rest else none)
  | _ => .plain argument

/-- What the arguments have set so far. -/
structure Settings where
  expressions : List String := []
  files : List String := []
  stage : Option Stage := none
  format : Option OutputFormat := none
  allowTrailing : Bool := false

namespace Settings

def config (s : Settings) : Config where
  expressions := s.expressions
  files := s.files
  stage := s.stage.getD .eval
  format := s.format.getD .plain
  allowTrailing := s.allowTrailing

private def once {α : Type} (flag : Flag) (old new : Option α) (value : String) :
    Except UsageError (Option α) :=
  if new.isNone then .error (.invalidValue flag value)
  else if old.isSome then .error (.repeated flag)
  else .ok new

/-- Sets the value of a flag. Only files may be given more than once. -/
def set (s : Settings) (flag : Flag) (value : String) : Except UsageError Settings :=
  match flag with
  | .file =>
    if value.isEmpty then .error (.invalidValue flag value)
    else .ok { s with files := s.files ++ [value] }
  | .stage => do
    let new := if value = "lexer" then some .lexer else if value = "eval" then some .eval else none
    let stage ← once flag s.stage new value
    return { s with stage }
  | .format => do
    let new := if value = "plain" then some .plain else if value = "debug" then some .debug else none
    let format ← once flag s.format new value
    return { s with format }
  | .allowTrailing | .version | .help => .error (.unwantedValue flag)

end Settings

/-- Reads arguments from left to right, up to the first that decides the outcome. -/
def parseFrom (s : Settings) : List String → Except UsageError Request
  | [] => .ok (.calculate s.config)
  | argument :: rest =>
    match Word.ofArgument argument with
    | .unknown => .error (.unknownFlag argument)
    | .endOfFlags => .ok (.calculate { s with expressions := s.expressions ++ rest }.config)
    | .plain text => parseFrom { s with expressions := s.expressions ++ [text] } rest
    | .flag flag (some value) =>
      match s.set flag value with
      | .ok s => parseFrom s rest
      | .error e => .error e
    | .flag .version none => .ok .version
    | .flag .help none => .ok .help
    | .flag .allowTrailing none =>
      if s.allowTrailing then .error (.repeated .allowTrailing)
      else parseFrom { s with allowTrailing := true } rest
    | .flag flag none =>
      match rest with
      | [] => .error (.missingValue flag)
      | next :: rest =>
        match Word.ofArgument next with
        | .plain value =>
          match s.set flag value with
          | .ok s => parseFrom s rest
          | .error e => .error e
        | _ => .error (.missingValue flag)

def parse (arguments : List String) : Except UsageError Request := parseFrom {} arguments

end Calculator.CommandLine
