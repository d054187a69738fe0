import Calculator.CommandLine.Run

/-! The program: its arguments, files, standard input and outputs. -/

namespace Calculator.CommandLine

private def failureOf : IO.Error → Failure
  | .noFileOrDirectory .. => .notFound
  | .inappropriateType _ 21 _ => .isADirectory
  | .inappropriateType .. => .notADirectory
  | .resourceExhausted _ 28 _ => .noSpace
  | e => .other (toString e)

private def attempt (action : IO ByteArray) : IO (Except Failure Bytes) := do
  try return .ok (← action).toList
  catch e => return .error (failureOf e)

/-- What was read from a path. -/
private def contentsOf (loaded : List (String × Except Failure Bytes)) (path : String) :
    Except Failure Bytes :=
  (loaded.lookup path).getD (.error .notFound)

/-- Reads what a request needs beforehand. -/
private def environmentFor (request : Except UsageError Request) : IO Environment := do
  let palette := if ← (← IO.getStderr).isTty then Palette.coloured else .plain
  match request with
  | .ok (.calculate config) =>
    let loaded ← config.files.mapM fun (path : String) =>
      return (path, ← attempt (IO.FS.readBinFile path))
    let stdin ← if config.usesStdin then
      attempt (do (← IO.getStdin).readBinToEnd) else pure (.ok [])
    return { fileContents := contentsOf loaded, stdin, palette }
  | _ => return { fileContents := contentsOf [], stdin := .ok [], palette }

/-- Writes the output. Where that fails, the run ends as it does on an output that fails. -/
def runProgram (arguments : List String) : IO UInt32 := do
  let env ← environmentFor (parse arguments)
  let completion := complete env arguments
  let completion ←
    try
      let stdout ← IO.getStdout
      stdout.write ⟨completion.stdout.toArray⟩
      stdout.flush
      pure completion
    catch e => pure (complete { env with stdoutFailure := fun _ => some (failureOf e) } arguments)
  IO.eprint completion.stderr
  return completion.exitCode.toUInt32

end Calculator.CommandLine

def main (arguments : List String) : IO UInt32 := Calculator.CommandLine.runProgram arguments
