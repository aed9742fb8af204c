import ScopeScript.CommandLine.Arguments
import ScopeScript.CommandLine.Folder
import ScopeScript.Script
import ScopeScript.Syntax.Outline

/-!
# The command line

`respond read args` says what a call with the arguments `args` prints and how it exits, given what
reading each path would give.  It exits with 2 if the arguments make no sense, with 1 if the
script cannot be read or fails, and with 0 otherwise.  What a script prints before it fails stays.
-/

namespace ScopeScript.CommandLine

structure Report where
  exitCode : Nat
  stdout : String := ""
  stderr : String := ""
  deriving DecidableEq, Repr

def programName : String := "kestrel"

def versionText : String := programName ++ " 0.1.0"

def usageText : String :=
  String.intercalate "\n"
    ["Usage: " ++ programName ++ " [OPTIONS] <CONTENTS>",
     "",
     "Options:",
     "  -f, --file       Read the script from the file CONTENTS",
     "  -p, --pipe-mode  Print the value of the last statement",
     "      --ast        Print the program instead of running it",
     "      --lenient    Arithmetic on non-numbers yields null instead of failing",
     "  -h, --help       Print help",
     "  -V, --version    Print version"]

def failure (text : String) : Report := { exitCode := 1, stderr := text ++ "\n" }

/-- The path whose contents an invocation needs. -/
def Invocation.path? : Invocation → Option String
  | .script request => if request.has .file then some request.operand else none
  | _ => none

/-- Outlines a script. -/
def outlineScript (source : String) : Report :=
  match Program.ofText source with
  | .ok program => { exitCode := 0, stdout := program.outlineText ++ "\n" }
  | .error e => failure e.message

/-- Runs a script. -/
def runScript (showValue lenient : Bool) (source : String) : Report :=
  let (outcome, m) := Script.run { options := { lenient } } source
  let printed := String.join (m.output.toList.map (· ++ "\n"))
  match outcome with
  | .value v =>
    { exitCode := 0, stdout := if showValue then printed ++ v.display ++ "\n" else printed }
  | .failed e => { exitCode := 1, stdout := printed, stderr := e.message ++ "\n" }
  | .tooDeep => { exitCode := 1, stdout := printed, stderr := "Calls are nested too deeply.\n" }

/-- Does what a request asks for with the text of its script. -/
def Request.perform (request : Request) (source : String) : Report :=
  if request.has .ast then outlineScript source
  else runScript (request.has .pipe) (request.has .lenient) source

def respond (read : String → Except ReadError String) (args : List String) : Report :=
  match Invocation.ofArguments args with
  | .invalid => { exitCode := 2, stderr := usageText ++ "\n" }
  | .version => { exitCode := 0, stdout := versionText ++ "\n" }
  | .help => { exitCode := 0, stdout := usageText ++ "\n" }
  | .script request =>
    if request.has .file then
      match read request.operand with
      | .ok source => request.perform source
      | .error e =>
        failure ("Failed to read the input file '" ++ request.operand ++ "': " ++ e.describe)
    else request.perform request.operand

end ScopeScript.CommandLine
