import Mathlib.Data.List.Forall2
import ScopeScript.Value

/-!
# The names of a program

`Stmt.allNames program` are the names that a program mentions: those that it declares, reads and
assigns, and the parameters of its functions.  A name outside this list is *fresh* for the program.

    v.Avoids fresh     no function in the value v mentions one of the names `fresh`

What stands after a dot or before a colon is no name of a variable, so it does not count.
-/

namespace ScopeScript

/-! ## Programs -/

mutual

def Expr.names : Expr → List String
  | .number _ _ => []
  | .string _ _ => []
  | .name name _ => [name]
  | .binary left _ right _ => left.names ++ right.names
  | .assign target value _ => target.names ++ value.names
  | .call callee arguments _ => callee.names ++ Expr.allNames arguments
  | .dot object _ _ => object.names
  | .index object key _ => object.names ++ key.names
  | .object properties _ => Property.allNames properties

def Expr.allNames : List Expr → List String
  | [] => []
  | e :: es => e.names ++ Expr.allNames es

/-- A shorthand reads the variable of its name. -/
def Property.names : Property → List String
  | .shorthand key _ => [key]
  | .field _ value _ => value.names

def Property.allNames : List Property → List String
  | [] => []
  | p :: ps => p.names ++ Property.allNames ps

end

mutual

def Stmt.names : Stmt → List String
  | .declare name _ none _ => [name]
  | .declare name _ (some e) _ => name :: e.names
  | .function name params body _ => name :: params ++ Stmt.allNames body
  | .expr e _ => e.names

def Stmt.allNames : List Stmt → List String
  | [] => []
  | s :: ss => s.names ++ Stmt.allNames ss

end

section Disjoint

variable {fresh : List String}

theorem Expr.disjoint_allNames_iff {es : List Expr} :
    (Expr.allNames es).Disjoint fresh ↔ ∀ e ∈ es, e.names.Disjoint fresh := by
  induction es with
  | nil => simp [Expr.allNames]
  | cons e es ih => rw [Expr.allNames, List.disjoint_append_left, ih, List.forall_mem_cons]

theorem Property.disjoint_allNames_iff {ps : List Property} :
    (Property.allNames ps).Disjoint fresh ↔ ∀ p ∈ ps, p.names.Disjoint fresh := by
  induction ps with
  | nil => simp [Property.allNames]
  | cons p ps ih => rw [Property.allNames, List.disjoint_append_left, ih, List.forall_mem_cons]

theorem Stmt.disjoint_allNames_iff {ss : List Stmt} :
    (Stmt.allNames ss).Disjoint fresh ↔ ∀ s ∈ ss, s.names.Disjoint fresh := by
  induction ss with
  | nil => simp [Stmt.allNames]
  | cons s ss ih => rw [Stmt.allNames, List.disjoint_append_left, ih, List.forall_mem_cons]

end Disjoint

/-! ## Values -/

/-- The parameters and the body mention none of the names. -/
def Closure.Avoids (fresh : List String) (f : Closure) : Prop :=
  f.params.Disjoint fresh ∧ (Stmt.allNames f.body).Disjoint fresh

mutual

def Value.Avoids (fresh : List String) : Value → Prop
  | .null => True
  | .number _ => True
  | .boolean _ => True
  | .string _ => True
  | .object ⟨entries⟩ => Value.EntriesAvoid fresh entries
  | .function f => f.Avoids fresh
  | .native _ => True

def Value.EntriesAvoid (fresh : List String) : List (String × Value) → Prop
  | [] => True
  | (_, v) :: entries => v.Avoids fresh ∧ Value.EntriesAvoid fresh entries

end

namespace Value

variable {fresh : List String}

theorem entriesAvoid_iff (entries : List (String × Value)) :
    EntriesAvoid fresh entries ↔ ∀ e ∈ entries, e.2.Avoids fresh := by
  induction entries with
  | nil => simp [EntriesAvoid]
  | cons e entries ih =>
    obtain ⟨k, v⟩ := e
    simp [EntriesAvoid, ih]

/-- A property that is missing reads as null. -/
theorem EntriesAvoid.get {entries : List (String × Value)} (h : EntriesAvoid fresh entries)
    (key : String) : (((⟨entries⟩ : Record Value).get? key).getD .null).Avoids fresh := by
  cases hv : (⟨entries⟩ : Record Value).get? key with
  | none => trivial
  | some v =>
    obtain ⟨e, he, rfl⟩ := Record.exists_mem_of_get? hv
    exact (entriesAvoid_iff entries).1 h e he

theorem EntriesAvoid.ofList {pairs : List (String × Value)} (h : EntriesAvoid fresh pairs) :
    (object (.ofList pairs)).Avoids fresh := by
  refine (entriesAvoid_iff (Record.ofList pairs).entries).2 fun e he => ?_
  obtain ⟨p, hp, heq⟩ := Record.exists_mem_of_mem_ofList he
  exact heq ▸ (entriesAvoid_iff pairs).1 h p hp

end Value

end ScopeScript
