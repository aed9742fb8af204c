/-!
# Programs

A program is a list of statements.  Each node carries the line that an error about it names.
-/

namespace ScopeScript

inductive BinaryOp where
  | add
  | sub
  | mul
  | div
  | rem
  deriving DecidableEq, Repr

def BinaryOp.symbol : BinaryOp → String
  | add => "+"
  | sub => "-"
  | mul => "*"
  | div => "/"
  | rem => "%"

/-- The operator that `symbol` spells. -/
def BinaryOp.ofSymbol? : String → Option BinaryOp
  | "+" => some add
  | "-" => some sub
  | "*" => some mul
  | "/" => some div
  | "%" => some rem
  | _ => none

mutual

inductive Expr where
  | number (value : Float) (line : Nat)
  | string (value : String) (line : Nat)
  | name (name : String) (line : Nat)
  | binary (left : Expr) (op : BinaryOp) (right : Expr) (line : Nat)
  | assign (target value : Expr) (line : Nat)
  | call (callee : Expr) (arguments : List Expr) (line : Nat)
  /-- `object.property`, where only a name makes sense as the property. -/
  | dot (object property : Expr) (line : Nat)
  /-- `object[key]` -/
  | index (object key : Expr) (line : Nat)
  | object (properties : List Property) (line : Nat)

/-- A property of an object literal.  The shorthand `{ key }` takes the value of the variable of
that name. -/
inductive Property where
  | shorthand (key : String) (line : Nat)
  | field (key : String) (value : Expr) (line : Nat)

end

inductive Stmt where
  | declare (name : String) (constant : Bool) (value : Option Expr) (line : Nat)
  | function (name : String) (params : List String) (body : List Stmt) (line : Nat)
  | expr (expr : Expr) (line : Nat)

/-- The statements of a whole text. -/
abbrev Program := List Stmt

namespace Expr

/-- The line that an expression starts at or that its operator stands on. -/
def line : Expr → Nat
  | number _ line => line
  | string _ line => line
  | name _ line => line
  | binary _ _ _ line => line
  | assign _ _ line => line
  | call _ _ line => line
  | dot _ _ line => line
  | index _ _ line => line
  | object _ line => line

end Expr

namespace Property

def key : Property → String
  | shorthand key _ => key
  | field key _ _ => key

def line : Property → Nat
  | shorthand _ line => line
  | field _ _ line => line

/-- The expression after the colon, if the property has one. -/
def value? : Property → Option Expr
  | shorthand _ _ => none
  | field _ value _ => some value

end Property

/-- The name that a statement declares, if any, and whether it declares a constant. -/
def Stmt.declared : Stmt → List (String × Bool)
  | declare name constant _ _ => [(name, constant)]
  | function name _ _ _ => [(name, true)]
  | expr _ _ => []

end ScopeScript
