import ScopeScript.Syntax

/-!
# Lexically closed programs

A program is lexically closed if every name that it uses is declared where a reader would look for
it: before its use in the same list of statements, before the function around it in a list further
out, as a parameter of a function around it, or among the built-in names.  This is decided on the
text alone: `closedIn names` goes through a program from top to bottom with the names that can be
used at each place.

What a name after a dot or before a colon stands for is no variable, so it is no use of one.  The
target of an assignment is a use if it is a name; any other target is never evaluated.
-/

namespace ScopeScript

mutual

/-- Every name that the expression uses is one of `names`. -/
def Expr.closedIn (names : List String) : Expr → Bool
  | .number _ _ => true
  | .string _ _ => true
  | .name name _ => names.contains name
  | .binary left _ right _ => left.closedIn names && right.closedIn names
  | .assign (.name name _) value _ => names.contains name && value.closedIn names
  | .assign _ value _ => value.closedIn names
  | .call callee arguments _ => callee.closedIn names && Expr.allClosedIn names arguments
  | .dot object _ _ => object.closedIn names
  | .index object key _ => object.closedIn names && key.closedIn names
  | .object properties _ => Property.allClosedIn names properties

def Expr.allClosedIn (names : List String) : List Expr → Bool
  | [] => true
  | e :: es => e.closedIn names && Expr.allClosedIn names es

/-- A shorthand uses the variable of its name. -/
def Property.closedIn (names : List String) : Property → Bool
  | .shorthand key _ => names.contains key
  | .field _ value _ => value.closedIn names

def Property.allClosedIn (names : List String) : List Property → Bool
  | [] => true
  | p :: ps => p.closedIn names && Property.allClosedIn names ps

end

mutual

/-- The initial value of a variable cannot use the variable; the body of a function can use the
function and its parameters. -/
def Stmt.closedIn (names : List String) : Stmt → Bool
  | .declare _ _ none _ => true
  | .declare _ _ (some e) _ => e.closedIn names
  | .function name params body _ => Stmt.allClosedIn (params ++ name :: names) body
  | .expr e _ => e.closedIn names

/-- What a statement declares can be used by those after it. -/
def Stmt.allClosedIn (names : List String) : List Stmt → Bool
  | [] => true
  | s :: ss => s.closedIn names && Stmt.allClosedIn (s.declared.map (·.1) ++ names) ss

end

theorem Expr.allClosedIn_iff {names : List String} {es : List Expr} :
    Expr.allClosedIn names es = true ↔ ∀ e ∈ es, e.closedIn names = true := by
  induction es with
  | nil => simp [Expr.allClosedIn]
  | cons e es ih => rw [Expr.allClosedIn, Bool.and_eq_true, ih, List.forall_mem_cons]

theorem Property.allClosedIn_iff {names : List String} {ps : List Property} :
    Property.allClosedIn names ps = true ↔ ∀ p ∈ ps, p.closedIn names = true := by
  induction ps with
  | nil => simp [Property.allClosedIn]
  | cons p ps ih => rw [Property.allClosedIn, Bool.and_eq_true, ih, List.forall_mem_cons]

/-- The names of every global scope. -/
def builtinNames : List String := ["true", "false", "null", "print", "type_of"]

/-- Every name that the program uses is declared before, around its use, or built in. -/
def Program.LexicallyClosed (program : Program) : Prop :=
  Stmt.allClosedIn builtinNames program = true

end ScopeScript
