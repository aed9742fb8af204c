import ScopeScript.Eval

/-!
# Native functions

`print` shows its arguments on one line and gives null; `type_of` names the type of its only
argument.  All others belong to the embedding program: a `Host` says what each key does.  A native
function gets no options, so that it cannot behave differently in a lenient run.

`callsWithin host n` makes calls nested at most `n` deep.
-/

namespace ScopeScript

/-- A native function of the embedding program, given the way to make further calls, its
arguments and the scope that calls it.  A failure is a message. -/
abbrev CallbackIn (σ : Type) :=
  CallsIn σ → List Value → ScopeId → EvalIn σ (Except String Value)

abbrev Callback := CallbackIn Machine

/-- What the native functions of the embedding program do, by key. -/
abbrev HostIn (σ : Type) := String → CallbackIn σ

abbrev Host := HostIn Machine

/-- A host without functions of its own. -/
def HostIn.none {σ : Type} : HostIn σ := fun _ _ _ _ => return .error "unknown native function"

abbrev Host.none : Host := HostIn.none

variable {σ : Type} [HasScopes σ]

namespace NativeOp

def typeName : List Value → Except String Value
  | [v] => .ok (.string v.type.name)
  | vs => .error ("expected 1 argument, got " ++ toString vs.length)

def run (host : HostIn σ) (calls : CallsIn σ) (op : NativeOp) (arguments : List Value)
    (scope : ScopeId) : EvalIn σ (Except String Value) := do
  match op with
  | print =>
    Eval.print (Value.displayAll arguments)
    return .ok .null
  | typeOf => return typeName arguments
  | hosted key => host key calls arguments scope

end NativeOp

/-- Calls nested at most `n` deep. -/
def callsWithin (host : HostIn σ) : Nat → CallsIn σ
  | 0 => ⟨fun _ _ _ _ => throw .depth, fun _ _ _ => throw .depth⟩
  | n + 1 =>
    { function := fun opts f arguments line =>
        Eval.function (callsWithin host n) opts f arguments line
      native := fun op arguments scope => op.run host (callsWithin host n) arguments scope }

/-- Binds a new native function as a constant. -/
def Eval.defineNative (scope : ScopeId) (name : String) (op : NativeOp) :
    EvalIn σ (Except ScopeError Unit) := do
  let identity ← freshIdentity
  HasScopes.declare scope name (.native ⟨identity, name, op⟩) true

end ScopeScript
