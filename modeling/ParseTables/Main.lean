import ParseTables.CommandLine.Program

namespace ParseTables.CommandLine

/-- Why the system did not read a file. It tells a file where a directory should be by the number 20 or
its negative. Whatever else goes wrong is due to the content. -/
def failureOf : IO.Error → ReadFailure
  | .noFileOrDirectory _ _ _ => .notFound
  | .permissionDenied _ _ _ => .refused "Permission denied" 13
  | .inappropriateType _ code _ =>
    if code = 20 ∨ code = 0 - 20 then .notDirectory else .isDirectory
  | .invalidArgument _ _ _ => .nameTooLong
  | _ => .notText

def readText (name : String) : IO (Except ReadFailure String) := do
  try
    return .ok (← IO.FS.readFile name)
  catch e =>
    return .error (failureOf e)

partial def readAll (stream : IO.FS.Stream) (text : String) : IO String := do
  let line ← stream.getLine
  if line.isEmpty then return text else readAll stream (text ++ line)

end ParseTables.CommandLine

open ParseTables.CommandLine in
/-- Runs the program on its arguments. Arguments that are not in order end with code 2. -/
def main (arguments : List String) : IO UInt32 := do
  match Options.ofArguments? arguments with
  | none =>
    IO.eprintln "error: invalid arguments"
    return 2
  | some options =>
    match ← run? readText (do readAll (← IO.getStdin) "") options with
    | none =>
      IO.eprintln "error: the output cannot be laid out"
      return 1
    | some outcome =>
      IO.print outcome.printed
      IO.eprint outcome.complaint
      return outcome.code.toUInt32
