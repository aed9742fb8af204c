import ScopeScript.Script
import ScopeScript.Reflection

/-!
# Sessions

An embedding program works on a machine step by step and holds scopes by handles, numbered from
zero.  Several handles may hold one scope.  A handle is never given back.
-/

namespace ScopeScript.Session

variable {σ : Type} [HasScopes σ]

/-- The scope that a handle holds. -/
def scopeOf (index : Nat) : EvalIn σ ScopeId := HasScopes.scopeOf index

/-- Makes a handle for a scope. -/
def hold (scope : ScopeId) : EvalIn σ Handle := HasScopes.hold scope

/-! ## Scopes -/

def newRoot : EvalIn σ Handle := do hold (← HasScopes.root)

def newBareGlobal : EvalIn σ Handle := do hold (← HasScopes.bareGlobal)

def newGlobal : EvalIn σ Handle := do hold (← HasScopes.global)

def newChild (index : Nat) : EvalIn σ Handle := do
  hold (← Eval.child (← scopeOf index))

def parent (index : Nat) : EvalIn σ (Option Handle) := do
  match ← HasScopes.parent? (← scopeOf index) with
  | none => return none
  | some scope => return some (← hold scope)

/-- The scope that a function was declared in. -/
def declarationScope (v : Value) : EvalIn σ (Option Handle) := do
  match v with
  | .function f => return some (← hold f.scope)
  | _ => return none

def same (index other : Nat) : EvalIn σ Bool := do
  return (← scopeOf index) == (← scopeOf other)

/-! ## Bindings -/

def declare (index : Nat) (name : String) (value : Value) (constant : Bool) :
    EvalIn σ (Except ScopeError Unit) := do
  let scope ← scopeOf index
  HasScopes.declare scope name value constant

def assign (index : Nat) (name : String) (value : Value) : EvalIn σ (Except ScopeError Unit) := do
  let scope ← scopeOf index
  HasScopes.assign scope name value

def lookup (index : Nat) (name : String) : EvalIn σ (Except ScopeError Value) := do
  HasScopes.lookup (← scopeOf index) name

/-- The value of a name, null if it has none. -/
def binding (index : Nat) (name : String) : EvalIn σ Value := do
  match ← lookup index name with
  | .ok v => return v
  | .error _ => return .null

def hasOwn (index : Nat) (name : String) : EvalIn σ Bool := do
  HasScopes.hasOwn (← scopeOf index) name

def clear (index : Nat) : EvalIn σ Unit := do
  HasScopes.clear (← scopeOf index)

def outline (index : Nat) : EvalIn σ Outline := do
  HasScopes.outline (← scopeOf index)

def defineNative (index : Nat) (name key : String) : EvalIn σ (Except ScopeError Unit) := do
  Eval.defineNative (← scopeOf index) name (.hosted key)

/-! ## Running -/

/-- The setting of a session: its native functions are those of `Reflection`. -/
def setting (options : Options) : SettingIn σ := { host := Reflection.host, options }

/-- What was printed since the last time, which is taken off. -/
def takeOutput : EvalIn σ String := do
  return String.join ((← HasScopes.takeOutput).toList.map (· ++ "\n"))

/-- Runs a script in the scope that a handle holds. -/
def run (options : Options) (index : Nat) (source : String) : EvalIn σ Outcome := do
  let scope ← scopeOf index
  modifyGet (Script.runIn (setting options) source scope)

/-- How a call from outside ended.  Only native functions fail with a message of their own. -/
inductive CallOutcome where
  | done (outcome : Outcome)
  | message (text : String)
  | notCallable

/-- Calls a value from the scope that a handle holds. -/
def call (options : Options) (index : Nat) (callee : Value) (arguments : List Value)
    (line : Nat) : EvalIn σ CallOutcome := do
  let calls := (setting (σ := σ) options).calls
  match callee with
  | .function f =>
    return .done (← modifyGet (calls.function options f arguments line).finish)
  | .native n =>
    let scope ← scopeOf index
    modifyGet fun m =>
      match (calls.native n.op arguments scope).run m with
      | .ok (.ok v) m => (.done (.value v), m)
      | .ok (.error text) m => (.message text, m)
      | .error (.fault f) m => (.done (.failed (.fault f)), m)
      | .error .depth m => (.done .tooDeep, m)
  | _ => return .notCallable

end ScopeScript.Session
