/-!
# Command line arguments

Four flags and one operand, in any order.  Short flags may be joined, no flag may be repeated, and
after `--` every argument is an operand.  Arguments are read from the left: whichever comes first
of a mistake, the version flag and the help flag decides.
-/

namespace ScopeScript.CommandLine

inductive Flag where
  /-- The operand is the path of the script. -/
  | file
  /-- The value of the script is printed. -/
  | pipe
  /-- The script is outlined and not run. -/
  | ast
  /-- Arithmetic on anything but numbers gives null. -/
  | lenient
  deriving DecidableEq, Repr

/-- What a program is asked to do. -/
structure Request where
  flags : List Flag
  operand : String
  deriving DecidableEq, Repr

def Request.has (request : Request) (flag : Flag) : Bool := request.flags.contains flag

/-- What the arguments ask for. -/
inductive Invocation where
  | script (request : Request)
  | version
  | help
  | invalid
  deriving DecidableEq, Repr

/-- What a letter or a long name stands for. -/
inductive Switch where
  | flag (flag : Flag)
  | version
  | help
  deriving DecidableEq, Repr

def Switch.ofLetter? : Char → Option Switch
  | 'f' => some (.flag .file)
  | 'p' => some (.flag .pipe)
  | 'V' => some .version
  | 'h' => some .help
  | _ => none

def Switch.ofName? : String → Option Switch
  | "--file" => some (.flag .file)
  | "--pipe-mode" => some (.flag .pipe)
  | "--ast" => some (.flag .ast)
  | "--lenient" => some (.flag .lenient)
  | "--version" => some .version
  | "--help" => some .help
  | _ => none

/-! ## Algorithm -/

/-- Adds switches to flags already seen; an error says what is to be done instead. -/
def addSwitches (flags : List Flag) : List (Option Switch) → Except Invocation (List Flag)
  | [] => .ok flags
  | none :: _ => .error .invalid
  | some .version :: _ => .error .version
  | some .help :: _ => .error .help
  | some (.flag f) :: rest =>
    if flags.contains f then .error .invalid else addSwitches (flags ++ [f]) rest

/-- The operands that follow the flags; there must be one in all. -/
def readOperands (flags : List Flag) (operand? : Option String) (args : List String) :
    Invocation :=
  match operand?.toList ++ args with
  | [operand] => .script ⟨flags, operand⟩
  | _ => .invalid

/-- The switches of an argument; none if it is an operand. -/
def switchesOf? (arg : String) : Option (List (Option Switch)) :=
  match arg.toList with
  | '-' :: '-' :: _ => some [Switch.ofName? arg]
  | '-' :: c :: cs => some ((c :: cs).map Switch.ofLetter?)
  | _ => none

def readFrom (flags : List Flag) (operand? : Option String) : List String → Invocation
  | [] => readOperands flags operand? []
  | arg :: rest =>
    if arg = "--" then readOperands flags operand? rest
    else
      match switchesOf? arg with
      | some switches =>
        match addSwitches flags switches with
        | .ok flags => readFrom flags operand? rest
        | .error invocation => invocation
      | none => if operand?.isSome then .invalid else readFrom flags (some arg) rest

/-- What a list of arguments asks for. -/
def Invocation.ofArguments (args : List String) : Invocation := readFrom [] none args

end ScopeScript.CommandLine
