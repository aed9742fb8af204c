import ScopeScript.Machine
import ScopeScript.Number.Binary64

/-!
# Evaluation

Expressions are evaluated by recursion on their structure.  A call leads into the body of a
function, which is no part of the expression, so evaluation is written for any way `calls` of
making calls; `callsWithin` ties the knot for calls nested to a given depth.

Order: operands, arguments and properties from left to right, the arguments of a call before the
callee, the value of an assignment before its target.  The first fault stops everything after it.
-/

namespace ScopeScript

/-- How functions are called.  A function gets its arguments and the line of the call; a native
function its arguments and the scope that calls it. -/
structure CallsIn (σ : Type) where
  function : Options → Closure → List Value → Nat → EvalIn σ Value
  native : NativeOp → List Value → ScopeId → EvalIn σ (Except String Value)

abbrev Calls := CallsIn Machine

/-! ## Operations on values -/

/-- Arithmetic on doubles; only a division by zero is refused. -/
def BinaryOp.onNumbers (op : BinaryOp) (x y : Float) : Except FaultCause Float :=
  match op with
  | .add => .ok (x + y)
  | .sub => .ok (x - y)
  | .mul => .ok (x * y)
  | .div => if y == 0.0 then .error .divisionByZero else .ok (x / y)
  | .rem => .ok (Binary64.remainder x y)

def BinaryOp.onValues (opts : Options) (op : BinaryOp) (left right : Value) :
    Except FaultCause Value :=
  match left, right with
  | .number x, .number y => .number <$> op.onNumbers x y
  | _, _ => if opts.lenient then .ok .null else .error (.typeMismatch op left.type right.type)

/-- The key that a value in square brackets stands for. -/
def Value.propertyKey : Value → Except FaultCause String
  | string s => .ok s
  | number x => .ok (formatNumber x)
  | v => .error (.unsupported (.propertyKey v.type))

namespace Eval

variable {σ : Type}

def ofCause {α : Type} (line : Nat) : Except FaultCause α → EvalIn σ α
  | .ok a => return a
  | .error cause => fault cause line

/-- The properties of a value that must be an object. -/
def receiver (v : Value) (line : Nat) : EvalIn σ (Record Value) :=
  match v with
  | .object o => return o
  | _ => fault (.unsupported (.memberAccess v.type)) line

/-- Calls a value.  A native function is called from the scope `scope`. -/
def callValue (calls : CallsIn σ) (opts : Options) (scope : ScopeId) (callee : Value)
    (arguments : List Value) (line : Nat) : EvalIn σ Value := do
  match callee with
  | .function f => calls.function opts f arguments line
  | .native n =>
    match ← calls.native n.op arguments scope with
    | .ok v => return v
    | .error message => fault (.native n.name message) line
  | v => fault (.invalidCallee v.type v.display) line

variable [HasScopes σ]

/-! ## Expressions -/

mutual

def expr (calls : CallsIn σ) (opts : Options) (scope : ScopeId) : Expr → EvalIn σ Value
  | .number value _ => return .number value
  | .string value _ => return .string value
  | .name name line => lookup scope name line
  | .binary left op right line => do
    let l ← expr calls opts scope left
    let r ← expr calls opts scope right
    ofCause line (op.onValues opts l r)
  | .assign target value line => do
    let v ← expr calls opts scope value
    match target with
    | .name name _ =>
      assign scope name v line
      return v
    | _ => fault .invalidTarget line
  | .call callee arguments line => do
    let vs ← exprs calls opts scope arguments
    let f ← expr calls opts scope callee
    callValue calls opts scope f vs line
  | .dot object property line => do
    let o ← receiver (← expr calls opts scope object) line
    match property with
    | .name name _ => return (o.get? name).getD .null
    | other => fault (.unsupported .propertyName) other.line
  | .index object key line => do
    let o ← receiver (← expr calls opts scope object) line
    let k ← ofCause line (← expr calls opts scope key).propertyKey
    return (o.get? k).getD .null
  | .object properties _ => do
    return .object (.ofList (← fields calls opts scope properties))

/-- Values from left to right. -/
def exprs (calls : CallsIn σ) (opts : Options) (scope : ScopeId) : List Expr → EvalIn σ (List Value)
  | [] => return []
  | e :: es => do
    let v ← expr calls opts scope e
    return v :: (← exprs calls opts scope es)

/-- A shorthand reads the variable of its name. -/
def field (calls : CallsIn σ) (opts : Options) (scope : ScopeId) : Property → EvalIn σ Value
  | .shorthand key line => lookup scope key line
  | .field _ value _ => expr calls opts scope value

def fields (calls : CallsIn σ) (opts : Options) (scope : ScopeId) :
    List Property → EvalIn σ (List (String × Value))
  | [] => return []
  | p :: ps => do
    let v ← field calls opts scope p
    return (p.key, v) :: (← fields calls opts scope ps)

end

/-! ## Statements -/

/-- Every time that a function declaration is evaluated makes a new function. -/
def stmt (calls : CallsIn σ) (opts : Options) (scope : ScopeId) : Stmt → EvalIn σ Value
  | .declare name constant value line => do
    let v ← match value with
      | some e => expr calls opts scope e
      | none => pure .null
    declare scope name v constant line
    return v
  | .function name params body line => do
    let identity ← freshIdentity
    declare scope name (.function ⟨identity, name, params, body, scope⟩) true line
    return .null
  | .expr e _ => expr calls opts scope e

/-- Statements give the value of the last one; `last` is the value before them. -/
def stmts (calls : CallsIn σ) (opts : Options) (scope : ScopeId) (last : Value) :
    List Stmt → EvalIn σ Value
  | [] => return last
  | s :: ss => do
    let v ← stmt calls opts scope s
    stmts calls opts scope v ss

/-! ## Calls -/

/-- Binds parameters to arguments.  A missing argument is null, further ones are ignored. -/
def bindParams (frame : ScopeId) (line : Nat) : List String → List Value → EvalIn σ Unit
  | [], _ => return
  | p :: ps, arguments => do
    declare frame p (arguments.headD .null) false line
    bindParams frame line ps arguments.tail

/-- Runs the body of a function in a new scope inside the one that it was declared in. -/
def function (calls : CallsIn σ) (opts : Options) (f : Closure) (arguments : List Value)
    (line : Nat) : EvalIn σ Value := do
  let frame ← child f.scope
  HasScopes.inFrame frame (bindParams frame line f.params arguments)
    (stmts calls opts frame .null f.body)

end Eval

end ScopeScript
