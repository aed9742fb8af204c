import ScopeScript.Store

/-!
# Machines that programs run on

A computation runs on a machine of type `σ`: it computes a value and changes the machine.  It stops
early with a fault, or because calls were nested more deeply than allowed; in both cases the changes
made so far stay.

`HasScopes σ` is what programs and embedding programs do to a machine, and all that they can do.  A
`Machine` keeps one store of bindings for ever; every name has one binding there, together with its
mark.  `ScopeScript.Heap` has values and marks apart and gives frames up.  Programs end alike on both
(`Program.finish_remembered`), and sessions are answered alike (`Session.perform_merged`).
-/

namespace ScopeScript

/-- Why a computation stopped before its end. -/
inductive Halt where
  | fault (f : Fault)
  /-- Calls were nested too deeply. -/
  | depth
  deriving DecidableEq, Repr

abbrev EvalIn (σ : Type) := EStateM Halt σ

/-- A new handle, and the first handle that holds the same scope. -/
structure Session.Handle where
  index : Nat
  first : Nat
  deriving DecidableEq, Repr

/-! ## What can be done to a machine -/

class HasScopes (σ : Type) where
  /-- A new scope inside no other. -/
  root : EvalIn σ ScopeId
  /-- A new root with the constants `true`, `false` and `null`. -/
  bareGlobal : EvalIn σ ScopeId
  /-- A new root with the constants and the standard native functions. -/
  global : EvalIn σ ScopeId
  /-- A new scope inside `parent`. -/
  child (parent : ScopeId) : EvalIn σ ScopeId
  parent? (scope : ScopeId) : EvalIn σ (Option ScopeId)
  declare (scope : ScopeId) (name : String) (value : Value) (constant : Bool) :
    EvalIn σ (Except ScopeError Unit)
  assign (scope : ScopeId) (name : String) (value : Value) : EvalIn σ (Except ScopeError Unit)
  lookup (scope : ScopeId) (name : String) : EvalIn σ (Except ScopeError Value)
  hasOwn (scope : ScopeId) (name : String) : EvalIn σ Bool
  clear (scope : ScopeId) : EvalIn σ Unit
  outline (scope : ScopeId) : EvalIn σ Outline
  /-- Binds the parameters of a call, runs its body and gives up the frame of the call. -/
  inFrame (frame : ScopeId) (bindParams : EvalIn σ Unit) (body : EvalIn σ Value) : EvalIn σ Value
  /-- An identity that nothing else has. -/
  freshIdentity : EvalIn σ Identity
  print (text : String) : EvalIn σ Unit
  /-- What was printed since the last time, which is taken off. -/
  takeOutput : EvalIn σ (Array String)
  /-- Makes a handle for a scope. -/
  hold (scope : ScopeId) : EvalIn σ Session.Handle
  /-- The scope that a handle holds. -/
  scopeOf (index : Nat) : EvalIn σ ScopeId

/-! ## Machines with a store -/

structure Machine where
  store : Store := {}
  /-- One text for each time that something was printed. -/
  output : Array String := #[]
  /-- Scopes that the embedding program holds on to, by number. -/
  held : Array ScopeId := #[]

abbrev Eval := EvalIn Machine

namespace Machine

/-- Adds scopes to the store; the first of them is the result. -/
@[inline]
def extend (f : Store → Store) : Eval ScopeId :=
  modifyGet fun m => (m.store.scopes.size, { m with store := f m.store })

end Machine

/-- Replaces the store by what `f` makes of it, or leaves it as it is if `f` fails. -/
@[inline]
def Eval.tryStore (f : Store → Except ScopeError Store) : Eval (Except ScopeError Unit) :=
  modifyGet fun m =>
    match f m.store with
    | .ok store => (.ok (), { m with store })
    | .error e => (.error e, m)

instance : HasScopes Machine where
  root := Machine.extend (·.pushRoot)
  bareGlobal := Machine.extend (·.pushBareGlobal)
  global := Machine.extend (·.pushGlobal)
  child parent := Machine.extend (·.pushChild parent)
  parent? scope := return (← get).store.parent? scope
  declare scope name value constant := Eval.tryStore (·.declare scope name value constant)
  assign scope name value := Eval.tryStore (·.assign scope name value)
  lookup scope name := return (← get).store.lookup scope name
  hasOwn scope name := return (← get).store.hasOwn scope name
  clear scope := modify fun m => { m with store := m.store.clear scope }
  outline scope := return (← get).store.outline scope
  -- no scope is ever given up
  inFrame _ bindParams body := do
    bindParams
    body
  freshIdentity := modifyGet fun m =>
    (m.store.issued, { m with store := { m.store with issued := m.store.issued + 1 } })
  print text := modify fun m => { m with output := m.output.push text }
  takeOutput := modifyGet fun m => (m.output, { m with output := #[] })
  hold scope := modifyGet fun m =>
    let first := (m.held.findIdx? (· == scope)).getD m.held.size
    (⟨m.held.size, first⟩, { m with held := m.held.push scope })
  scopeOf index := return (← get).held.getD index 0

/-! ## Steps of programs -/

structure Options where
  /-- Arithmetic on anything but numbers gives null instead of a fault. -/
  lenient : Bool := false
  deriving DecidableEq, Repr

namespace Eval

variable {σ : Type}

def fault {α : Type} (cause : FaultCause) (line : Nat) : EvalIn σ α :=
  throw (.fault ⟨cause, line⟩)

/-- The fault of whoever used `name` on `line`, if an operation on scopes failed. -/
def ofScope {α : Type} (name : String) (line : Nat) : Except ScopeError α → EvalIn σ α
  | .ok a => return a
  | .error e => fault (e.cause name) line

variable [HasScopes σ]

def lookup (scope : ScopeId) (name : String) (line : Nat) : EvalIn σ Value := do
  ofScope name line (← HasScopes.lookup scope name)

def declare (scope : ScopeId) (name : String) (value : Value) (constant : Bool) (line : Nat) :
    EvalIn σ Unit := do
  ofScope name line (← HasScopes.declare scope name value constant)

def assign (scope : ScopeId) (name : String) (value : Value) (line : Nat) : EvalIn σ Unit := do
  ofScope name line (← HasScopes.assign scope name value)

def child (parent : ScopeId) : EvalIn σ ScopeId := HasScopes.child parent

def freshIdentity : EvalIn σ Identity := HasScopes.freshIdentity

def print (text : String) : EvalIn σ Unit := HasScopes.print text

end Eval

end ScopeScript
