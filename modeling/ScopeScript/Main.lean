import ScopeScript.CommandLine

/-!
# The program

Reads the file that the arguments name, if any, and does what `CommandLine.respond` says.
-/

open ScopeScript.CommandLine

/-- The text of a file on disk. -/
def readText (path : String) : IO (Except ReadError String) := do
  try
    return decodeText (← IO.FS.readBinFile path)
  catch
    | .noFileOrDirectory .. => return .error .notFound
    | .inappropriateType .. => return .error .isFolder
    | e => return .error (.other (toString e))

def main (args : List String) : IO UInt32 := do
  let contents ← match (Invocation.ofArguments args).path? with
    | some path => readText path
    | none => pure (.error .notFound)
  let report := respond (fun _ => contents) args
  (← IO.getStdout).putStr report.stdout
  (← IO.getStderr).putStr report.stderr
  return report.exitCode.toUInt32
