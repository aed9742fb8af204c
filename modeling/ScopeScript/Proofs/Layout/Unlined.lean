import ScopeScript.Proofs.Store.Writes
import ScopeScript.Proofs.Eval.Operations
import ScopeScript.Proofs.Grammar.Lines
import ScopeScript.Value.Display
import ScopeScript.Script

/-!
# Values and stores without lines

Lines get into values with the bodies of functions, and from there into stores.  `unlined` takes
them out.  Everything that evaluation does with values and stores can be done before or after:

    v.unlined.display = v.display
    s.unlined.lookup i name = (s.lookup i name).map Value.unlined
    s.unlined.assign i name v.unlined = (s.assign i name v).map Store.unlined
-/

namespace ScopeScript

/-! ## Values -/

def Closure.unlined (f : Closure) : Closure := { f with body := Stmt.allUnlined f.body }

namespace Value

mutual

/-- The value with all lines in the bodies of its functions set to zero. -/
def unlined : Value → Value
  | null => null
  | number x => number x
  | boolean b => boolean b
  | string s => string s
  | object ⟨es⟩ => object ⟨entriesUnlined es⟩
  | function f => function f.unlined
  | native n => native n

def entriesUnlined : List (String × Value) → List (String × Value)
  | [] => []
  | (k, v) :: es => (k, v.unlined) :: entriesUnlined es

end

def recordUnlined (o : Record Value) : Record Value := ⟨entriesUnlined o.entries⟩

theorem entriesUnlined_eq_map (es : List (String × Value)) :
    entriesUnlined es = es.map fun e => (e.1, e.2.unlined) := by
  induction es with
  | nil => rfl
  | cons e es ih => simp [entriesUnlined, ih]

@[simp]
theorem type_unlined (v : Value) : v.unlined.type = v.type := by
  cases v <;> rfl

@[simp]
theorem number?_unlined (v : Value) : v.unlined.number? = v.number? := by
  cases v <;> rfl

mutual

theorem displayOnto_unlined (out : String) (v : Value) :
    displayOnto out v.unlined = displayOnto out v := by
  match v with
  | null | number _ | boolean _ | string _ | native _ => rfl
  | function f => rfl
  | object ⟨[]⟩ => rfl
  | object ⟨e :: es⟩ =>
    show entriesOnto (out ++ "\x7b ") "" (entriesUnlined (e :: es)) ++ " \x7d" =
      entriesOnto (out ++ "\x7b ") "" (e :: es) ++ " \x7d"
    rw [entriesOnto_unlined]

theorem entriesOnto_unlined (out separator : String) (es : List (String × Value)) :
    entriesOnto out separator (entriesUnlined es) = entriesOnto out separator es := by
  match es with
  | [] => rfl
  | (k, string s) :: es => exact entriesOnto_unlined _ _ es
  | (k, null) :: es | (k, number _) :: es | (k, boolean _) :: es | (k, object _) :: es
  | (k, function _) :: es | (k, native _) :: es =>
    simp only [entriesUnlined, entriesOnto]
    rw [← entriesOnto_unlined _ _ es, ← displayOnto_unlined]
    rfl

end

@[simp]
theorem display_unlined (v : Value) : v.unlined.display = v.display := displayOnto_unlined "" v

theorem displayAll_unlined (vs : List Value) : displayAll (vs.map unlined) = displayAll vs := by
  simp [displayAll, Function.comp_def]

theorem propertyKey_unlined (v : Value) : v.unlined.propertyKey = v.propertyKey := by
  cases v <;> rfl

theorem get?_unlined (o : Record Value) (key : String) :
    (recordUnlined o).get? key = (o.get? key).map unlined := by
  rw [recordUnlined, entriesUnlined_eq_map]
  simp [Record.get?, List.find?_map, Function.comp_def]

/-- Reading a property; one that is missing reads as null. -/
theorem getD_get?_unlined (o : Record Value) (key : String) :
    ((recordUnlined o).get? key).getD null = ((o.get? key).getD null).unlined := by
  rw [get?_unlined]
  cases o.get? key <;> rfl

theorem insertEntry_unlined (key : String) (v : Value) (es : List (String × Value)) :
    Record.insertEntry key v.unlined (entriesUnlined es) =
      entriesUnlined (Record.insertEntry key v es) := by
  induction es with
  | nil => rfl
  | cons e es ih =>
    obtain ⟨k, w⟩ := e
    by_cases h : k = key
    · simp [entriesUnlined, Record.insertEntry, h]
    · simp [entriesUnlined, Record.insertEntry, h, ih]

/-- An object literal, whose values are inserted one by one. -/
theorem ofList_unlined (es : List (String × Value)) :
    Record.ofList (entriesUnlined es) = recordUnlined (.ofList es) := by
  have key (r : Record Value) :
      (entriesUnlined es).foldl (fun (r : Record Value) e => r.insert e.1 e.2) (recordUnlined r) =
        recordUnlined (es.foldl (fun (r : Record Value) e => r.insert e.1 e.2) r) := by
    induction es generalizing r with
    | nil => rfl
    | cons e es ih =>
      rw [List.foldl_cons, ← ih (r.insert e.1 e.2)]
      simp only [entriesUnlined, List.foldl_cons, recordUnlined, Record.insert, insertEntry_unlined]
  exact key {}

end Value

/-! ## Operations -/

theorem NativeOp.typeName_unlined (vs : List Value) :
    typeName (vs.map Value.unlined) = (typeName vs).map Value.unlined := by
  match vs with
  | [] => rfl
  | [v] =>
    show Except.ok (Value.string v.unlined.type.name) = .ok (.string v.type.name)
    rw [Value.type_unlined]
  | _ :: _ :: vs => simp [typeName, Except.map]

/-! ## Stores -/

def Binding.unlined (b : Binding) : Binding := { b with value := b.value.unlined }

def Scope.unlined (a : Scope) : Scope := { a with bindings := a.bindings.map Binding.unlined }

namespace Scope

theorem find?_unlined (a : Scope) (name : String) :
    a.unlined.find? name = (a.find? name).map Binding.unlined := by
  simp [find?, unlined, List.find?_map, Function.comp_def, Binding.unlined]

theorem binds_unlined (a : Scope) (name : String) : a.unlined.binds name = a.binds name := by
  simp [binds, unlined, Function.comp_def, Binding.unlined]

theorem replace_unlined (a : Scope) (name : String) (v : Value) :
    a.unlined.replace name v.unlined = (a.replace name v).unlined := by
  simp only [replace, unlined, List.map_map, Scope.mk.injEq, true_and]
  refine List.map_congr_left fun b _ => ?_
  show (if b.name = name then _ else _) = Binding.unlined (if b.name = name then _ else _)
  split <;> rfl

end Scope

def Store.unlined (s : Store) : Store := { s with scopes := s.scopes.map Scope.unlined }

namespace Store

theorem scope_unlined (s : Store) (i : ScopeId) : s.unlined.scope i = (s.scope i).unlined := by
  by_cases h : i < s.scopes.size <;> simp [scope, unlined, h, Scope.unlined]

theorem chain_unlined (s : Store) (i : ScopeId) : s.unlined.chain i = s.chain i := by
  rw [chain, scope_unlined]
  rfl

theorem hasOwn_unlined (s : Store) (i : ScopeId) (name : String) :
    s.unlined.hasOwn i name = s.hasOwn i name := by
  rw [hasOwn, scope_unlined, Scope.binds_unlined]
  rfl

theorem owner?_unlined (s : Store) (i : ScopeId) (name : String) :
    s.unlined.owner? i name = s.owner? i name := by
  rw [owner?, owner?, chain_unlined]
  simp only [hasOwn_unlined]

theorem lookup_unlined (s : Store) (i : ScopeId) (name : String) :
    s.unlined.lookup i name = (s.lookup i name).map Value.unlined := by
  have hresolve : s.unlined.resolve? i name = (s.resolve? i name).map Binding.unlined := by
    rw [resolve?, resolve?, owner?_unlined, Option.map_bind]
    congr 1
    funext j
    rw [scope_unlined, Scope.find?_unlined]
    rfl
  rw [lookup, lookup, hresolve]
  cases s.resolve? i name <;> rfl

theorem modifyScope_unlined (s : Store) (i : ScopeId) {f g : Scope → Scope}
    (h : ∀ a, g a.unlined = (f a).unlined) :
    s.unlined.modifyScope i g = (s.modifyScope i f).unlined := by
  simp only [modifyScope, unlined, Store.mk.injEq, and_true]
  ext1
  · simp
  · next j _ _ => by_cases hj : i = j <;> simp [Array.getElem_modify, hj, h]

theorem declare_unlined (s : Store) (i : ScopeId) (name : String) (v : Value) (constant : Bool) :
    s.unlined.declare i name v.unlined constant = (s.declare i name v constant).map unlined := by
  rw [declare, declare, hasOwn_unlined]
  split
  · rfl
  · exact congrArg Except.ok (modifyScope_unlined s i fun _ => rfl)

theorem assign_unlined (s : Store) (i : ScopeId) (name : String) (v : Value) :
    s.unlined.assign i name v.unlined = (s.assign i name v).map unlined := by
  rw [assign, assign, owner?_unlined]
  cases s.owner? i name with
  | none => rfl
  | some j =>
    have hconst : ((s.unlined.scope j).find? name).any (·.constant) =
        ((s.scope j).find? name).any (·.constant) := by
      rw [scope_unlined, Scope.find?_unlined]
      cases (s.scope j).find? name <;> rfl
    dsimp only
    rw [hconst]
    split
    · rfl
    · exact congrArg Except.ok (modifyScope_unlined s j fun a => a.replace_unlined name v)

theorem pushChild_unlined (s : Store) (parent : ScopeId) :
    s.unlined.pushChild parent = (s.pushChild parent).unlined := by
  simp only [pushChild, push, chain_unlined]
  simp [unlined, Scope.unlined]

theorem size_unlined (s : Store) : s.unlined.scopes.size = s.scopes.size := by
  simp [unlined]

end Store

/-! ## Machines and outcomes -/

def Machine.unlined (m : Machine) : Machine := { m with store := m.store.unlined }

def Fault.unlined (f : Fault) : Fault := { f with line := 0 }

def Halt.unlined : Halt → Halt
  | .fault f => .fault f.unlined
  | .depth => .depth

end ScopeScript
