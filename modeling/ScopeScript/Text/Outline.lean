import ScopeScript.Text.Quoted

/-!
# Outlines

An outline is a tree that names what it shows.  `inline` writes it on one line, `indented` on
many, every part one level deeper than its whole and followed by a comma.  Both show the same
parts in the same order.
-/

namespace ScopeScript

inductive Outline where
  | leaf (text : String)
  /-- Parts in round brackets after a name, which may be empty. -/
  | tuple (name : String) (parts : List Outline)
  /-- Named parts; `elided` marks that some are left out. -/
  | record (name : String) (parts : List (String × Outline)) (elided : Bool)
  | list (parts : List Outline)

namespace Outline

/-! ## Algorithm -/

mutual

/-- An outline on one line. -/
def inline : Outline → String
  | leaf text => text
  | tuple name parts => name ++ "(" ++ ", ".intercalate (inlineParts parts) ++ ")"
  | record name parts elided =>
    let shown := inlineFields parts ++ if elided then [".."] else []
    if shown.isEmpty then name else name ++ " \x7b " ++ ", ".intercalate shown ++ " \x7d"
  | list parts => "[" ++ ", ".intercalate (inlineParts parts) ++ "]"

def inlineParts : List Outline → List String
  | [] => []
  | part :: parts => part.inline :: inlineParts parts

def inlineFields : List (String × Outline) → List String
  | [] => []
  | (name, part) :: parts => (name ++ ": " ++ part.inline) :: inlineFields parts

end

/-- The start of a line at the given depth. -/
def margin (depth : Nat) : String := String.ofList (List.replicate (4 * depth) ' ')

/-- Lines between a line that opens them and one that closes them; just `whole` if there are
none. -/
def bracketed (depth : Nat) (whole left right : String) (inner : List String) : List String :=
  if inner.isEmpty then [margin depth ++ whole]
  else (margin depth ++ left) :: inner ++ [margin depth ++ right]

mutual

/-- The lines of an outline at the given depth.  The first starts with `lead`, the last ends with
`trail`. -/
def lines (depth : Nat) (lead trail : String) : Outline → List String
  | leaf text => [margin depth ++ lead ++ text ++ trail]
  | tuple name parts =>
    bracketed depth (lead ++ name ++ trail) (lead ++ name ++ "(") (")" ++ trail)
      (linesOfParts (depth + 1) parts)
  | record name parts _ =>
    bracketed depth (lead ++ name ++ trail) (lead ++ name ++ " \x7b") ("\x7d" ++ trail)
      (linesOfFields (depth + 1) parts)
  | list parts =>
    bracketed depth (lead ++ "[]" ++ trail) (lead ++ "[") ("]" ++ trail)
      (linesOfParts (depth + 1) parts)

/-- Every part is followed by a comma. -/
def linesOfParts (depth : Nat) : List Outline → List String
  | [] => []
  | part :: parts => part.lines depth "" "," ++ linesOfParts depth parts

def linesOfFields (depth : Nat) : List (String × Outline) → List String
  | [] => []
  | (name, part) :: parts => part.lines depth (name ++ ": ") "," ++ linesOfFields depth parts

end

/-- An outline on many lines. -/
def indented (o : Outline) : String := "\n".intercalate (o.lines 0 "" "")

/-- A text as an outline shows it. -/
def text (s : String) : Outline := leaf (quoted s)

def boolean (b : Bool) : Outline := leaf (if b then "true" else "false")

def natural (n : Nat) : Outline := leaf (toString n)

/-- `Some(part)` or `None`. -/
def optional : Option Outline → Outline
  | none => leaf "None"
  | some part => tuple "Some" [part]

end Outline

end ScopeScript
