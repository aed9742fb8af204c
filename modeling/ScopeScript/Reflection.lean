import ScopeScript.Native

/-!
# Native functions that look at scopes

A host whose functions see the scope that calls them: they read, change and describe it, hand it
to the embedding program, or call other functions from it.  `Reflection.host` finds them by key.
-/

namespace ScopeScript.Reflection

variable {σ : Type} [HasScopes σ]

/-- The name of a variable, as a first argument. -/
def withName (arguments : List Value) (f : String → EvalIn σ (Except String Value)) :
    EvalIn σ (Except String Value) :=
  match arguments.head? with
  | some (.string name) => f name
  | _ => return .error "expected a name"

/-- A message of the form `name: cause`. -/
def failure (name : String) : ScopeError → String
  | .undeclared => name ++ ": Undeclared"
  | .duplicateDeclaration => name ++ ": DuplicateDeclaration"
  | .constantAssignment => name ++ ": ConstantAssignment"

/-- Makes a change and gives null, or says why the change of `name` failed. -/
def update (name : String) (change : EvalIn σ (Except ScopeError Unit)) :
    EvalIn σ (Except String Value) := do
  match ← change with
  | .ok () => return .ok .null
  | .error e => return .error (failure name e)

/-- The value of a variable that the caller sees. -/
def peek : CallbackIn σ := fun _ arguments scope =>
  withName arguments fun name => do
    match ← HasScopes.lookup scope name with
    | .ok v => return .ok v
    | .error _ => return .error (name ++ " is not visible")

/-- Assigns a variable that the caller sees. -/
def poke : CallbackIn σ := fun _ arguments scope =>
  withName arguments fun name => update name (HasScopes.assign scope name (arguments.tail.headD .null))

/-- Declares a variable in the calling scope. -/
def define : CallbackIn σ := fun _ arguments scope =>
  withName arguments fun name =>
    update name (HasScopes.declare scope name (arguments.tail.headD .null) false)

/-- Whether the calling scope itself binds a name. -/
def own : CallbackIn σ := fun _ arguments scope =>
  withName arguments fun name => do
    return .ok (.boolean (← HasScopes.hasOwn scope name))

/-- Removes the bindings of the calling scope. -/
def clear : CallbackIn σ := fun _ _ scope => do
  HasScopes.clear scope
  return .ok .null

/-- The outline of the calling scope. -/
def describe : CallbackIn σ := fun _ _ scope => do
  return .ok (.string (← HasScopes.outline scope).inline)

/-- Hands the calling scope to the embedding program, and gives its number there. -/
def capture : CallbackIn σ := fun _ _ scope => do
  return .ok (.number (Float.ofNat (← HasScopes.hold scope).index))

/-- Fails with its arguments as the message. -/
def fail : CallbackIn σ := fun _ arguments _ => return .error (Value.displayAll arguments)

def count : CallbackIn σ := fun _ arguments _ =>
  return .ok (.number (Float.ofNat arguments.length))

/-- An object of the arguments, whose keys are their positions from zero on. -/
def collect : CallbackIn σ := fun _ arguments _ =>
  return .ok (.object (.ofList (arguments.zipIdx.map fun (v, i) => (toString i, v))))

/-- Whether two arguments are equal. -/
def equal : CallbackIn σ := fun _ arguments _ =>
  match arguments with
  | [v, w] => return .ok (.boolean (v == w))
  | _ => return .ok (.boolean false)

/-- Calls its first argument with the others, in a strict run.  Line 0 stands for the call. -/
def apply : CallbackIn σ := fun calls arguments scope =>
  match arguments with
  | .function f :: rest =>
    tryCatch (.ok <$> calls.function {} f rest 0) fun
      | .fault e => return .error e.message
      | .depth => throw .depth
  | .native n :: rest => calls.native n.op rest scope
  | _ => return .error "expected a function"

/-- The functions of this module by key. -/
def table : List (String × CallbackIn σ) :=
  [("peek", peek), ("poke", poke), ("define", define), ("own", own), ("clear", clear),
   ("scope", describe), ("capture", capture), ("fail", fail), ("count", count),
   ("list", collect), ("equal", equal), ("apply", apply)]

def host : HostIn σ := fun key =>
  match table.lookup key with
  | some callback => callback
  | none => HostIn.none key

end ScopeScript.Reflection
