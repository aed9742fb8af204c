import Mathlib.Logic.Relator
import Mathlib.Data.List.Forall2
import ScopeScript.Proofs.Eval.Coupled
import ScopeScript.Value.Display
import ScopeScript.Native

/-!
# Values up to a renaming of scopes

Two machines may number the same scopes and functions in different ways.  A `Renaming` pairs the
numbers of the one with those of the other, and grows while both go on: new scopes and functions are
paired as they are made (`w ≤ w'`).

    v.Renamed w v'     the values are the same but for numbers, which w pairs

Only the functions `print` and `type_of` are native in such values.  What a program does with a value
does not depend on numbers: related values have the same type and text, and are keys and operands
in the same way.
-/

namespace ScopeScript

/-- Which numbers of the one machine stand for which numbers of the other. -/
structure Renaming where
  scope : ScopeId → ScopeId → Prop
  identity : Identity → Identity → Prop
  /-- A pair of scopes that nothing leads to. -/
  hidden : Option (ScopeId × ScopeId) := none

namespace Renaming

instance : LE Renaming :=
  ⟨fun w w' => (∀ i j, w.scope i j → w'.scope i j) ∧ ∀ i j, w.identity i j → w'.identity i j⟩

variable {w w' w'' : Renaming}

protected theorem le_refl (w : Renaming) : w ≤ w := ⟨fun _ _ h => h, fun _ _ h => h⟩

protected theorem le_trans (h : w ≤ w') (h' : w' ≤ w'') : w ≤ w'' :=
  ⟨fun i j hij => h'.1 i j (h.1 i j hij), fun i j hij => h'.2 i j (h.2 i j hij)⟩

end Renaming

/-! ## Values -/

structure Closure.Renamed (w : Renaming) (f g : Closure) : Prop where
  identity : w.identity f.identity g.identity
  name : f.name = g.name
  params : f.params = g.params
  body : f.body = g.body
  scope : w.scope f.scope g.scope

structure Native.Renamed (w : Renaming) (n n' : Native) : Prop where
  identity : w.identity n.identity n'.identity
  name : n.name = n'.name
  op : n.op = n'.op
  /-- The function is `print` or `type_of`. -/
  standard : ∀ key, n.op ≠ .hosted key

mutual

inductive Value.Renamed (w : Renaming) : Value → Value → Prop
  | null : Renamed w .null .null
  | number (x : Float) : Renamed w (.number x) (.number x)
  | boolean (b : Bool) : Renamed w (.boolean b) (.boolean b)
  | string (s : String) : Renamed w (.string s) (.string s)
  | object {es es' : List (String × Value)} (h : EntriesRenamed w es es') :
      Renamed w (.object ⟨es⟩) (.object ⟨es'⟩)
  | function {f g : Closure} (h : f.Renamed w g) : Renamed w (.function f) (.function g)
  | native {n n' : Native} (h : n.Renamed w n') : Renamed w (.native n) (.native n')

/-- The same keys in the same order, with related values. -/
inductive Value.EntriesRenamed (w : Renaming) :
    List (String × Value) → List (String × Value) → Prop
  | nil : EntriesRenamed w [] []
  | cons {k : String} {v v' : Value} {es es' : List (String × Value)} (hv : Renamed w v v')
      (hes : EntriesRenamed w es es') : EntriesRenamed w ((k, v) :: es) ((k, v') :: es')

end

theorem Closure.Renamed.mono {w w' : Renaming} (hw : w ≤ w') {f g : Closure} (h : f.Renamed w g) :
    f.Renamed w' g :=
  ⟨hw.2 _ _ h.identity, h.name, h.params, h.body, hw.1 _ _ h.scope⟩

theorem Native.Renamed.mono {w w' : Renaming} (hw : w ≤ w') {n n' : Native} (h : n.Renamed w n') :
    n.Renamed w' n' :=
  ⟨hw.2 _ _ h.identity, h.name, h.op, h.standard⟩

namespace Value

variable {w w' : Renaming}

mutual

theorem Renamed.mono (hw : w ≤ w') {v v' : Value} (h : v.Renamed w v') : v.Renamed w' v' := by
  match h with
  | .null => exact .null
  | .number x => exact .number x
  | .boolean b => exact .boolean b
  | .string s => exact .string s
  | .object h => exact .object (h.mono hw)
  | .function h => exact .function (h.mono hw)
  | .native h => exact .native (h.mono hw)

theorem EntriesRenamed.mono (hw : w ≤ w') {es es' : List (String × Value)}
    (h : EntriesRenamed w es es') : EntriesRenamed w' es es' := by
  match h with
  | .nil => exact .nil
  | .cons hv hes => exact .cons (hv.mono hw) (hes.mono hw)

end

theorem forall₂_mono (hw : w ≤ w') {vs vs' : List Value} (h : List.Forall₂ (Renamed w) vs vs') :
    List.Forall₂ (Renamed w') vs vs' :=
  h.imp fun _ _ hv => hv.mono hw

/-! ## What a program sees of a value -/

section Seen

variable {v v' : Value}

theorem Renamed.type_eq (h : v.Renamed w v') : v.type = v'.type := by
  cases h <;> rfl

theorem Renamed.number?_eq (h : v.Renamed w v') : v.number? = v'.number? := by
  cases h <;> rfl

theorem Renamed.propertyKey_eq (h : v.Renamed w v') : v.propertyKey = v'.propertyKey := by
  cases h <;> rfl

mutual

theorem Renamed.displayOnto_eq {v v' : Value} (h : v.Renamed w v') (out : String) :
    displayOnto out v = displayOnto out v' := by
  match h with
  | .null | .number _ | .boolean _ | .string _ => rfl
  | .function h =>
    simp only [displayOnto]
    rw [h.name]
  | .native h =>
    simp only [displayOnto]
    rw [h.name]
  | .object .nil => rfl
  | .object (.cons hv hes) =>
    show entriesOnto (out ++ "\x7b ") "" _ ++ " \x7d" = entriesOnto (out ++ "\x7b ") "" _ ++ " \x7d"
    rw [(EntriesRenamed.cons hv hes).entriesOnto_eq]

theorem EntriesRenamed.entriesOnto_eq {es es' : List (String × Value)}
    (h : EntriesRenamed w es es') (out separator : String) :
    entriesOnto out separator es = entriesOnto out separator es' := by
  match h with
  | .nil => rfl
  | .cons (.string s) hes => exact hes.entriesOnto_eq _ _
  | .cons .null hes => exact hes.entriesOnto_eq _ _
  | .cons (.number x) hes => exact hes.entriesOnto_eq _ _
  | .cons (.boolean b) hes => exact hes.entriesOnto_eq _ _
  | .cons (.object h) hes =>
    simp only [entriesOnto]
    rw [(Renamed.object h).displayOnto_eq, hes.entriesOnto_eq]
  | .cons (.function h) hes =>
    simp only [entriesOnto]
    rw [(Renamed.function h).displayOnto_eq, hes.entriesOnto_eq]
  | .cons (.native h) hes =>
    simp only [entriesOnto]
    rw [(Renamed.native h).displayOnto_eq, hes.entriesOnto_eq]

end

theorem Renamed.display_eq (h : v.Renamed w v') : v.display = v'.display := h.displayOnto_eq ""

theorem Renamed.looksLike (h : v.Renamed w v') : v'.LooksLike v :=
  ⟨h.type_eq.symm, h.number?_eq.symm, h.propertyKey_eq.symm, h.display_eq.symm⟩

theorem displayAll_eq {vs vs' : List Value} (h : List.Forall₂ (Renamed w) vs vs') :
    displayAll vs = displayAll vs' := by
  have hmap : vs.map display = vs'.map display := by
    induction h with
    | nil => rfl
    | cons hv _ ih => rw [List.map_cons, List.map_cons, hv.display_eq, ih]
  unfold displayAll
  rw [hmap]

end Seen

/-! ## Objects -/

theorem entriesRenamed_of_forall₂ {es es' : List (String × Value)}
    (h : List.Forall₂ (fun e e' => e.1 = e'.1 ∧ e.2.Renamed w e'.2) es es') :
    EntriesRenamed w es es' := by
  induction h with
  | nil => exact .nil
  | @cons e e' es es' he _ ih =>
    obtain ⟨k, v⟩ := e
    obtain ⟨k', v'⟩ := e'
    obtain ⟨rfl, hv⟩ := he
    exact .cons hv ih

theorem EntriesRenamed.get {es es' : List (String × Value)} (h : EntriesRenamed w es es')
    (key : String) :
    (((⟨es⟩ : Record Value).get? key).getD .null).Renamed w
      (((⟨es'⟩ : Record Value).get? key).getD .null) := by
  induction es generalizing es' with
  | nil =>
    cases h
    exact .null
  | cons e es ih =>
    cases h with
    | @cons k v v' _ es' hv hes =>
      by_cases hk : k = key
      · simpa [Record.get?, hk] using hv
      · simpa [Record.get?, hk] using ih hes

theorem EntriesRenamed.insertEntry (key : String) {v v' : Value} (hv : v.Renamed w v')
    {es es' : List (String × Value)} (h : EntriesRenamed w es es') :
    EntriesRenamed w (Record.insertEntry key v es) (Record.insertEntry key v' es') := by
  induction es generalizing es' with
  | nil =>
    cases h
    exact .cons hv .nil
  | cons e es ih =>
    cases h with
    | @cons k u u' _ es' hu hes =>
      by_cases hk : k = key
      · simpa [Record.insertEntry, hk] using EntriesRenamed.cons (k := key) hv hes
      · simpa [Record.insertEntry, hk] using EntriesRenamed.cons (k := k) hu (ih hes)

theorem EntriesRenamed.ofList {es es' : List (String × Value)} (h : EntriesRenamed w es es') :
    (object (.ofList es)).Renamed w (object (.ofList es')) := by
  have key : ∀ r r' : Record Value, EntriesRenamed w r.entries r'.entries →
      EntriesRenamed w (es.foldl (fun (r : Record Value) e => r.insert e.1 e.2) r).entries
        (es'.foldl (fun (r : Record Value) e => r.insert e.1 e.2) r').entries := by
    induction es generalizing es' with
    | nil =>
      cases h
      exact fun _ _ hr => hr
    | cons e es ih =>
      cases h with
      | cons hv hes => exact fun r r' hr => ih hes _ _ (hr.insertEntry _ hv)
  exact .object (key {} {} .nil)

/-! ## Operations -/

theorem typeName_renamed {vs vs' : List Value} (h : List.Forall₂ (Renamed w) vs vs') :
    SameExcept (Renamed w) (NativeOp.typeName vs) (NativeOp.typeName vs') := by
  have heq : NativeOp.typeName vs = NativeOp.typeName vs' := by
    cases h with
    | nil => rfl
    | cons hv hvs =>
      cases hvs with
      | nil => rw [NativeOp.typeName, NativeOp.typeName, hv.type_eq]
      | cons _ hvs => simp [NativeOp.typeName, hvs.length_eq]
  rw [← heq]
  unfold NativeOp.typeName
  split
  · exact .ok (.string _)
  · exact .error _

end Value

end ScopeScript
