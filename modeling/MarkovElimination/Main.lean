import MarkovElimination.Command.Outcome

/-! # The command

Reads the model files that the arguments name, and writes the outcome. -/

open MarkovElimination

/-- The content of a file, or why there is none. -/
def readModelFile (path : List Char) : IO (Except FileError (List Char)) := do
  try
    let bytes ← IO.FS.readBinFile (String.ofList path)
    match String.fromUTF8? bytes with
    | some text => pure (.ok text.toList)
    | none => pure (.error .notText)
  catch
    | .permissionDenied .. => pure (.error .permissionDenied)
    | .invalidArgument _ code _ => pure (.error (if code = 36 then .nameTooLong else .invalidName))
    | .inappropriateType _ code _ =>
      pure (.error (if code = 21 then .isADirectory else .notADirectory))
    | _ => pure (.error .notFound)

/-- Runs the command. -/
def main (arguments : List String) : IO UInt32 := do
  let arguments := arguments.map String.toList
  let contents ← (Command.neededFiles arguments).mapM fun path => do
    pure (path, ← readModelFile path)
  let files : FileSystem := fun path => (contents.lookup path).getD (.error .notFound)
  let outcome := Command.run files arguments
  (← IO.getStdout).putStr outcome.stdout
  (← IO.getStderr).putStr outcome.stderr
  pure outcome.code.toUInt32
