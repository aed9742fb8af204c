import ScopeScript.Fault

/-!
# Scopes

A store holds every scope that was ever made.  A scope binds names to values, marks some of them
constant, and knows the scopes around it, innermost first.  The *chain* of a scope is the scope
itself and those around it; the *owner* of a name is the first scope of the chain that binds it.

    lookup s i name     reads the binding of the owner
    assign s i name v   changes it, if it is not constant
    declare s i name v  makes a binding in the scope `i` itself

`declare` and `assign` leave the chains of all scopes as they are.
-/

namespace ScopeScript

structure Binding where
  name : String
  value : Value
  constant : Bool

/-- Bindings, latest first, and the scopes around, innermost first. -/
structure Scope where
  ancestors : List ScopeId := []
  bindings : List Binding := []

instance : Inhabited Scope := ⟨{}⟩

namespace Scope

def find? (scope : Scope) (name : String) : Option Binding :=
  scope.bindings.find? (·.name == name)

def binds (scope : Scope) (name : String) : Bool := scope.bindings.any (·.name == name)

def bind (scope : Scope) (b : Binding) : Scope :=
  { scope with bindings := b :: scope.bindings }

/-- Changes the value of a name and keeps its mark. -/
def replace (scope : Scope) (name : String) (value : Value) : Scope :=
  { scope with
    bindings := scope.bindings.map fun b => if b.name = name then { b with value } else b }

def clear (scope : Scope) : Scope := { scope with bindings := [] }

end Scope

/-- Why an operation on a scope failed. -/
inductive ScopeError where
  | undeclared
  | duplicateDeclaration
  | constantAssignment
  deriving DecidableEq, Repr

/-- The fault of a program that made the operation on `name`. -/
def ScopeError.cause (name : String) : ScopeError → FaultCause
  | undeclared => .undeclared name
  | duplicateDeclaration => .duplicateDeclaration name
  | constantAssignment => .constantAssignment name

/-- All scopes, by number, and how many identities were handed out. -/
structure Store where
  scopes : Array Scope := #[]
  issued : Identity := 0

namespace Store

/-! ## Reading -/

/-- A scope that was never made is empty. -/
def scope (s : Store) (i : ScopeId) : Scope := s.scopes.getD i {}

def chain (s : Store) (i : ScopeId) : List ScopeId := i :: (s.scope i).ancestors

def parent? (s : Store) (i : ScopeId) : Option ScopeId := (s.scope i).ancestors.head?

def hasOwn (s : Store) (i : ScopeId) (name : String) : Bool := (s.scope i).binds name

def owner? (s : Store) (i : ScopeId) (name : String) : Option ScopeId :=
  (s.chain i).find? (s.hasOwn · name)

/-- The binding that `name` refers to in the scope `i`. -/
def resolve? (s : Store) (i : ScopeId) (name : String) : Option Binding :=
  (s.owner? i name).bind fun j => (s.scope j).find? name

def lookup (s : Store) (i : ScopeId) (name : String) : Except ScopeError Value :=
  match s.resolve? i name with
  | some b => .ok b.value
  | none => .error .undeclared

/-- The names bound in the scope `i` itself, in order of their characters. -/
def names (s : Store) (i : ScopeId) : List String :=
  ((s.scope i).bindings.map (·.name)).mergeSort fun a b => !decide (b < a)

/-! ## Writing -/

/-- Not inlined, so that the array is changed in place. -/
@[noinline]
def modifyScope (s : Store) (i : ScopeId) (f : Scope → Scope) : Store :=
  { s with scopes := s.scopes.modify i f }

/-- Makes a scope; its number is the number of scopes made before. -/
@[noinline]
def push (s : Store) (scope : Scope) : Store :=
  { s with scopes := s.scopes.push scope }

def pushRoot (s : Store) : Store := s.push {}

def pushChild (s : Store) (parent : ScopeId) : Store :=
  let ancestors := s.chain parent
  s.push { ancestors }

@[inline]
def declare (s : Store) (i : ScopeId) (name : String) (value : Value) (constant : Bool) :
    Except ScopeError Store :=
  if s.hasOwn i name then .error .duplicateDeclaration
  else .ok (s.modifyScope i (·.bind ⟨name, value, constant⟩))

@[inline]
def assign (s : Store) (i : ScopeId) (name : String) (value : Value) : Except ScopeError Store :=
  match s.owner? i name with
  | none => .error .undeclared
  | some j =>
    if ((s.scope j).find? name).any (·.constant) then .error .constantAssignment
    else .ok (s.modifyScope j (·.replace name value))

/-- Removes all bindings of the scope `i`, marks included. -/
def clear (s : Store) (i : ScopeId) : Store := s.modifyScope i Scope.clear

/-! ## Outline -/

/-- The names bound in a scope, and whether it has a parent. -/
def outline (s : Store) (i : ScopeId) : Outline :=
  .record "Environment"
    [("names", .list ((s.names i).map .text)), ("has_parent", .boolean (s.parent? i).isSome)] false

end Store

/-! ## Global scopes -/

/-- The native functions of every global scope. -/
def NativeOp.standard : List (String × NativeOp) := [("print", .print), ("type_of", .typeOf)]

/-- The constants of every global scope, latest first. -/
def constantBindings : List Binding :=
  [⟨"null", .null, true⟩, ⟨"false", .boolean false, true⟩, ⟨"true", .boolean true, true⟩]

/-- Native functions as constants, with identities from `first` on, latest first. -/
def nativeBindings (first : Identity) : List (String × NativeOp) → List Binding
  | [] => []
  | (name, op) :: rest =>
    nativeBindings (first + 1) rest ++ [⟨name, .native ⟨first, name, op⟩, true⟩]

namespace Store

/-- A root scope with the constants `true`, `false` and `null`. -/
def pushBareGlobal (s : Store) : Store := s.push { bindings := constantBindings }

/-- A root scope with the constants and the standard native functions. -/
def pushGlobal (s : Store) : Store :=
  let first := s.issued
  { s.push { bindings := nativeBindings first NativeOp.standard ++ constantBindings } with
    issued := first + NativeOp.standard.length }

end Store

end ScopeScript
