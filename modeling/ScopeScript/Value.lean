import ScopeScript.Syntax
import ScopeScript.Record
import ScopeScript.Number.Written
import ScopeScript.Text.Outline

/-!
# Values

What an expression evaluates to.  A function remembers the scope that it was declared in; it and a
native function have an identity, so that two of them are equal only if they are the same one.
Numbers are equal as doubles: a value that holds a NaN anywhere differs from itself.

`Value.display` is the text that `print` shows.
-/

namespace ScopeScript

/-- Scopes are numbered in the order in which they are made. -/
abbrev ScopeId := Nat

/-- What makes one function another than all others. -/
abbrev Identity := Nat

/-- A function and the scope it was declared in. -/
structure Closure where
  identity : Identity
  name : String
  params : List String
  body : List Stmt
  scope : ScopeId

/-- What a native function does. -/
inductive NativeOp where
  | print
  | typeOf
  /-- A function of the program that embeds the language, found by its key. -/
  | hosted (key : String)
  deriving DecidableEq, Repr

structure Native where
  identity : Identity
  name : String
  op : NativeOp
  deriving DecidableEq, Repr

inductive Value where
  | null
  | number (x : Float)
  | boolean (b : Bool)
  | string (s : String)
  | object (o : Record Value)
  | function (f : Closure)
  | native (n : Native)

instance : Inhabited Value := ⟨.null⟩

/-- The types that scripts can tell apart. -/
inductive ValueType where
  | null
  | number
  | boolean
  | string
  | object
  | function
  | native
  deriving DecidableEq, Repr

def ValueType.name : ValueType → String
  | null => "null"
  | number => "number"
  | boolean => "boolean"
  | string => "string"
  | object => "object"
  | function => "function"
  | native => "native function"

namespace Value

def type : Value → ValueType
  | null => .null
  | number _ => .number
  | boolean _ => .boolean
  | string _ => .string
  | object _ => .object
  | function _ => .function
  | native _ => .native

def number? : Value → Option Float
  | number x => some x
  | _ => none

/-! ## Functions in values -/

mutual

/-- The scopes that a value leads to. -/
def scopes : Value → List ScopeId
  | null => []
  | number _ => []
  | boolean _ => []
  | string _ => []
  | object ⟨es⟩ => entriesScopes es
  | function f => [f.scope]
  | native _ => []

def entriesScopes : List (String × Value) → List ScopeId
  | [] => []
  | (_, v) :: es => v.scopes ++ entriesScopes es

end

/-! ## Equality -/

mutual

def beq : Value → Value → Bool
  | null, null => true
  | number x, number y => x == y
  | boolean a, boolean b => a == b
  | string s, string t => s == t
  | object ⟨es⟩, object ⟨fs⟩ => beqEntries es fs
  | function f, function g => f.identity == g.identity
  | native m, native n => m.identity == n.identity
  | _, _ => false

/-- Entries are equal one by one, in order. -/
def beqEntries : List (String × Value) → List (String × Value) → Bool
  | [], [] => true
  | (k, v) :: es, (l, w) :: fs => k == l && beq v w && beqEntries es fs
  | _, _ => false

end

instance : BEq Value := ⟨beq⟩

/-! ## Text -/

mutual

/-- Adds the text of a value to the end of `out`: a string stands as it is. -/
def displayOnto (out : String) : Value → String
  | null => out ++ "null"
  | number x => out ++ formatNumber x
  | boolean b => out ++ if b then "true" else "false"
  | string s => out ++ s
  | object ⟨es⟩ =>
    if es.isEmpty then out ++ "\x7b\x7d" else entriesOnto (out ++ "\x7b ") "" es ++ " \x7d"
  | function f => out ++ "<fn " ++ f.name ++ ">"
  | native n => out ++ "<native fn " ++ n.name ++ ">"

/-- Adds the entries of an object, the first after `separator`.  A string stands in quotes there,
with nothing escaped. -/
def entriesOnto (out separator : String) : List (String × Value) → String
  | [] => out
  | (k, string s) :: es =>
    entriesOnto (out ++ separator ++ k ++ ": \"" ++ s ++ "\"") ", " es
  | (k, v) :: es => entriesOnto (displayOnto (out ++ separator ++ k ++ ": ") v) ", " es

end

/-- The text of a value by itself. -/
def display (v : Value) : String := displayOnto "" v

/-- Several values on one line. -/
def displayAll (values : List Value) : String := " ".intercalate (values.map display)

end Value

/-! ## Outlines -/

def Closure.outline (f : Closure) : Outline :=
  .record "FunctionValue"
    [("name", .text f.name), ("params", .list (f.params.map .text))] true

def Native.outline (n : Native) : Outline :=
  .record "NativeFunction" [("name", .text n.name)] true

namespace Value

mutual

def outline : Value → Outline
  | null => .leaf "Null"
  | number x => .tuple "Number" [.leaf (exactForm x)]
  | boolean b => .tuple "Boolean" [.boolean b]
  | string s => .tuple "String" [.text s]
  | object ⟨es⟩ =>
    .tuple "Object" [.record "ObjectValue" [("entries", .list (outlineEntries es))] false]
  | function f => .tuple "Function" [f.outline]
  | native n => .tuple "NativeFunction" [n.outline]

def outlineEntries : List (String × Value) → List Outline
  | [] => []
  | (k, v) :: es => .tuple "" [.text k, v.outline] :: outlineEntries es

end

/-- The outline of an object without the word that it is a value. -/
def outlineRecord (r : Record Value) : Outline :=
  .record "ObjectValue" [("entries", .list (outlineEntries r.entries))] false

end Value

end ScopeScript
