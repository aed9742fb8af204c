import ScopeScript.Value

/-!
# Faults

What stops a running program: a cause and the line it is blamed on.
-/

namespace ScopeScript

/-- What a program did that the language has no meaning for. -/
inductive Misuse where
  | memberAccess (receiver : ValueType)
  | propertyKey (key : ValueType)
  | propertyName
  deriving DecidableEq, Repr

def Misuse.describe : Misuse → String
  | memberAccess receiver => "member access on a " ++ receiver.name ++ " value"
  | propertyKey key => key.name ++ " as a property key"
  | propertyName => "non-identifier property name"

inductive FaultCause where
  | undeclared (name : String)
  | duplicateDeclaration (name : String)
  | constantAssignment (name : String)
  | invalidTarget
  /-- A call of something that is no function; `shown` is its text. -/
  | invalidCallee (type : ValueType) (shown : String)
  | divisionByZero
  | unsupported (misuse : Misuse)
  | typeMismatch (op : BinaryOp) (left right : ValueType)
  /-- The native function `name` failed with a message of its own. -/
  | native (name message : String)
  deriving DecidableEq, Repr

def FaultCause.describe : FaultCause → String
  | undeclared name => "'" ++ name ++ "' is not declared."
  | duplicateDeclaration name => "'" ++ name ++ "' is already declared in this scope."
  | constantAssignment name => "Cannot assign to constant '" ++ name ++ "'."
  | invalidTarget => "Invalid assignment target."
  | invalidCallee type shown => type.name ++ " (" ++ shown ++ ") is not callable."
  | divisionByZero => "Division by zero."
  | unsupported misuse => "Unsupported: " ++ misuse.describe ++ "."
  | typeMismatch op left right =>
    "Cannot apply '" ++ op.symbol ++ "' to " ++ left.name ++ " and " ++ right.name ++ "."
  | native name message => "Native function '" ++ name ++ "' failed: " ++ message ++ "."

structure Fault where
  cause : FaultCause
  line : Nat
  deriving DecidableEq, Repr

/-- A message about the given line. -/
def messageOn (line : Nat) (text : String) : String :=
  "Error on line " ++ toString line ++ ": " ++ text

def Fault.message (f : Fault) : String := messageOn f.line f.cause.describe

end ScopeScript
