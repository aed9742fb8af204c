import ScopeScript.Syntax
import ScopeScript.Text.Outline
import ScopeScript.Number.Written

/-!
# The outline of a program

Every node by its name, with its parts in the order in which they are listed here and its line
last.  Numbers stand in their exact form, texts in quotes.
-/

namespace ScopeScript

open Outline

def BinaryOp.outline : BinaryOp → Outline
  | add => leaf "Add"
  | sub => leaf "Sub"
  | mul => leaf "Mul"
  | div => leaf "Div"
  | rem => leaf "Mod"

mutual

def Expr.outline : Expr → Outline
  | .number value line =>
    record "NumericLiteral" [("value", leaf (exactForm value)), ("line", natural line)] false
  | .string value line =>
    record "StringLiteral" [("value", text value), ("line", natural line)] false
  | .name x line => record "Identifier" [("name", text x), ("line", natural line)] false
  | .binary left op right line =>
    record "Binary"
      [("left", left.outline), ("right", right.outline), ("op", op.outline),
        ("line", natural line)] false
  | .assign target value line =>
    record "Assignment"
      [("assignee", target.outline), ("value", value.outline), ("line", natural line)] false
  | .call callee arguments line =>
    record "Call"
      [("callee", callee.outline), ("arguments", list (Expr.outlines arguments)),
        ("line", natural line)] false
  | .dot object property line =>
    record "Member"
      [("object", object.outline), ("property", property.outline), ("computed", boolean false),
        ("line", natural line)] false
  | .index object key line =>
    record "Member"
      [("object", object.outline), ("property", key.outline), ("computed", boolean true),
        ("line", natural line)] false
  | .object properties line =>
    record "ObjectLiteral"
      [("properties", list (Property.outlines properties)), ("line", natural line)] false

def Expr.outlines : List Expr → List Outline
  | [] => []
  | e :: es => e.outline :: Expr.outlines es

def Property.outline : Property → Outline
  | .shorthand key line =>
    record "Property" [("key", text key), ("value", optional none), ("line", natural line)] false
  | .field key value line =>
    record "Property"
      [("key", text key), ("value", optional (some value.outline)), ("line", natural line)] false

def Property.outlines : List Property → List Outline
  | [] => []
  | p :: ps => p.outline :: Property.outlines ps

end

mutual

def Stmt.outline : Stmt → Outline
  | .declare name constant value line =>
    record "VariableDeclaration"
      [("name", text name), ("value", optional (value.map Expr.outline)),
        ("is_constant", boolean constant), ("line", natural line)] false
  | .function name params body line =>
    tuple "FunctionDeclaration"
      [record "FunctionDef"
        [("name", text name), ("params", list (params.map text)),
          ("body", list (Stmt.outlines body)), ("line", natural line)] false]
  | .expr e line => record "Expression" [("expr", e.outline), ("line", natural line)] false

def Stmt.outlines : List Stmt → List Outline
  | [] => []
  | s :: ss => s.outline :: Stmt.outlines ss

end

namespace Program

def outline (program : Program) : Outline :=
  record "Program" [("body", list (Stmt.outlines program))] false

/-- The outline of a program on many lines, without a line feed at its end. -/
def outlineText (program : Program) : String := program.outline.indented

end Program

end ScopeScript
