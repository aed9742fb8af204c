import Mathlib
import ScopeScript.Value

/-!
# When values are equal

A path leads from a value into the objects inside it, by the position of an entry at each step.  Two
values are equal exactly if at every path they have the same head (`beq_iff_sameHead`): at a number
the same number, at an object the same keys in the same order, at a function the same function.  So
equality is symmetric and transitive as heads are, and a value differs from itself exactly where a
path leads to a NaN.

Main result: `equality_partial`.

Mathlib is imported whole, for no part of it has what is known about equality of doubles.
-/

namespace ScopeScript

/-! ## Related options -/

section Related

variable {α : Type} {r : α → α → Prop} {a b c : Option α}

theorem rel_symm (hr : ∀ x y, r x y → r y x) (h : Option.Rel r a b) : Option.Rel r b a := by
  cases h with
  | some h => exact .some (hr _ _ h)
  | none => exact .none

theorem rel_trans (hr : ∀ x y z, r x y → r y z → r x z) (h : Option.Rel r a b)
    (h' : Option.Rel r b c) : Option.Rel r a c := by
  cases h with
  | some h =>
    cases h' with
    | some h' => exact .some (hr _ _ _ h h')
  | none =>
    cases h'
    exact .none

theorem rel_map {β : Type} {f g : β → α} {x y : Option β} :
    Option.Rel r (x.map f) (y.map g) ↔ Option.Rel (fun p q => r (f p) (g q)) x y := by
  cases x with
  | none =>
    cases y with
    | none => exact ⟨fun _ => .none, fun _ => .none⟩
    | some q => exact ⟨nofun, nofun⟩
  | some p =>
    cases y with
    | none => exact ⟨nofun, nofun⟩
    | some q => exact ⟨fun | .some h => .some h, fun | .some h => .some h⟩

theorem rel_bind {β : Type} {s : β → β → Prop} {x y : Option β} {f : β → Option α}
    (h : Option.Rel s x y) (hf : ∀ p q, s p q → Option.Rel r (f p) (f q)) :
    Option.Rel r (x.bind f) (y.bind f) := by
  cases h with
  | some h => exact hf _ _ h
  | none => exact .none

theorem rel_self : Option.Rel r a a ↔ ∀ x, a = some x → r x x := by
  constructor
  · rintro (h | _) x hx
    · cases hx
      exact h
    · cases hx
  · intro h
    cases a with
    | none => exact .none
    | some x => exact .some (h x rfl)

end Related

namespace Value

/-! ## Paths -/

/-- The value of an object's entry at a position; other values have no entries. -/
def item? : Value → Nat → Option Value
  | object o, i => o.entries[i]?.map (·.2)
  | _, _ => none

/-- The value at the end of a path, each step of which is the position of an entry. -/
def at? : List Nat → Value → Option Value
  | [], v => some v
  | i :: path, v => (v.item? i).bind (at? path)

theorem sizeOf_lt_of_item? {v w : Value} {i : Nat} (h : v.item? i = some w) :
    sizeOf w < sizeOf v := by
  cases v with
  | object o =>
    obtain ⟨es⟩ := o
    obtain ⟨⟨k, w⟩, he, rfl⟩ := Option.map_eq_some_iff.1 h
    have hlt := List.sizeOf_lt_of_mem (List.mem_of_getElem? he)
    simp only [Prod.mk.sizeOf_spec, object.sizeOf_spec, Record.mk.sizeOf_spec] at hlt ⊢
    omega
  | _ => cases h

/-! ## Heads -/

/-- Two values agree, where an object is only seen by its keys. -/
def SameHead : Value → Value → Prop
  | null, null => True
  | number x, number y => x == y
  | boolean a, boolean b => a = b
  | string s, string t => s = t
  | object o, object p => o.keys = p.keys
  | function f, function g => f.identity = g.identity
  | native m, native n => m.identity = n.identity
  | _, _ => False

theorem SameHead.symm {u v : Value} (h : SameHead u v) : SameHead v u := by
  unfold SameHead at h
  split at h
  · trivial
  · exact BEq.symm h
  · exact Eq.symm h
  · exact Eq.symm h
  · exact Eq.symm h
  · exact Eq.symm h
  · exact Eq.symm h
  · exact h.elim

theorem SameHead.trans {u v w : Value} (h : SameHead u v) (h' : SameHead v w) : SameHead u w := by
  unfold SameHead at h
  split at h
  · exact h'
  · cases w with
    | number z => exact BEq.trans h h'
    | _ => exact h'.elim
  · exact h ▸ h'
  · exact h ▸ h'
  · cases w with
    | object q => exact Eq.trans h h'
    | _ => exact h'.elim
  · cases w with
    | function f => exact Eq.trans h h'
    | _ => exact h'.elim
  · cases w with
    | native n => exact Eq.trans h h'
    | _ => exact h'.elim
  · exact h.elim

/-- Only a NaN has not the same head as itself. -/
theorem sameHead_self {v : Value} : SameHead v v ↔ ∀ x, v = number x → x.isNaN = false := by
  cases v with
  | number x => simp [SameHead]
  | _ => simp [SameHead]

/-! ## One level deep -/

theorem forall₂_iff_getElem? {α β : Type} {r : α → β → Prop} {as : List α} {bs : List β} :
    List.Forall₂ r as bs ↔ ∀ i : Nat, Option.Rel r as[i]? bs[i]? := by
  induction as generalizing bs with
  | nil =>
    cases bs with
    | nil => exact ⟨fun _ _ => .none, fun _ => .nil⟩
    | cons b bs => exact ⟨nofun, fun h => nomatch h 0⟩
  | cons a as ih =>
    cases bs with
    | nil => exact ⟨nofun, fun h => nomatch h 0⟩
    | cons b bs =>
      rw [List.forall₂_cons, ih]
      constructor
      · rintro ⟨hhead, htail⟩ (_ | i)
        · exact .some hhead
        · exact htail i
      · intro h
        cases h 0 with
        | some hhead => exact ⟨hhead, fun i => h (i + 1)⟩

theorem beqEntries_iff {es fs : List (String × Value)} :
    beqEntries es fs = true ↔
      es.map (·.1) = fs.map (·.1) ∧ List.Forall₂ (fun e f => (e.2 == f.2) = true) es fs := by
  induction es generalizing fs with
  | nil => cases fs <;> simp [beqEntries]
  | cons e es ih =>
    cases fs with
    | nil => simp [beqEntries]
    | cons f fs =>
      have hvalues : beq e.2 f.2 = (e.2 == f.2) := rfl
      simp only [beqEntries, hvalues, Bool.and_eq_true, beq_iff_eq, ih, List.map_cons,
        List.cons.injEq, List.forall₂_cons]
      tauto

theorem beq_object_iff {o p : Record Value} :
    (object o == object p) = true ↔
      o.keys = p.keys ∧ List.Forall₂ (fun e f => (e.2 == f.2) = true) o.entries p.entries := by
  show beq (object o) (object p) = true ↔ _
  unfold beq
  exact beqEntries_iff

/-- Equal values have the same head and equal entries. -/
theorem beq_iff {u v : Value} :
    (u == v) = true ↔ SameHead u v ∧
      ∀ i, Option.Rel (fun a b : Value => (a == b) = true) (u.item? i) (v.item? i) := by
  have hbeq : (u == v) = beq u v := rfl
  cases u with
  | object o =>
    cases v with
    | object p =>
      have hentries (i : Nat) :
          Option.Rel (fun a b : Value => (a == b) = true) ((object o).item? i)
              ((object p).item? i) ↔
            Option.Rel (fun e f => (e.2 == f.2) = true) o.entries[i]? p.entries[i]? := rel_map
      simp only [beq_object_iff, forall₂_iff_getElem?, hentries]
      rfl
    | _ => exact ⟨nofun, fun h => h.1.elim⟩
  | _ =>
    -- without entries only the heads count
    cases v <;> simp [hbeq, beq, SameHead, item?]

/-! ## At every path -/

variable {u v w : Value}

theorem sameHead_of_beq (h : (u == v) = true) (path : List Nat) :
    Option.Rel SameHead (u.at? path) (v.at? path) := by
  induction path generalizing u v with
  | nil => exact .some (beq_iff.1 h).1
  | cons i path ih =>
    exact rel_bind ((beq_iff.1 h).2 i) fun _ _ => ih

theorem beq_of_sameHead {u v : Value}
    (h : ∀ path, Option.Rel SameHead (u.at? path) (v.at? path)) : (u == v) = true := by
  refine beq_iff.2 ⟨Option.rel_some_some.1 (h []), fun i => ?_⟩
  have hinside (path : List Nat) := h (i :: path)
  unfold at? at hinside
  cases hu : u.item? i with
  | none =>
    cases hv : v.item? i with
    | none => exact .none
    | some b =>
      have hpath := hinside []
      rw [hu, hv] at hpath
      cases hpath
  | some a =>
    have hlt := sizeOf_lt_of_item? hu
    cases hv : v.item? i with
    | none =>
      have hpath := hinside []
      rw [hu, hv] at hpath
      cases hpath
    | some b =>
      rw [hu, hv] at hinside
      exact .some (beq_of_sameHead hinside)
termination_by sizeOf u

theorem beq_iff_sameHead :
    (u == v) = true ↔ ∀ path, Option.Rel SameHead (u.at? path) (v.at? path) :=
  ⟨sameHead_of_beq, beq_of_sameHead⟩

theorem beq_symm (h : (u == v) = true) : (v == u) = true :=
  beq_iff_sameHead.2 fun path => rel_symm (fun _ _ => SameHead.symm) (sameHead_of_beq h path)

theorem beq_trans (h : (u == v) = true) (h' : (v == w) = true) : (u == w) = true :=
  beq_iff_sameHead.2 fun path =>
    rel_trans (fun _ _ _ => SameHead.trans) (sameHead_of_beq h path) (sameHead_of_beq h' path)

theorem beq_self_iff :
    (v == v) = true ↔ ∀ path x, v.at? path = some (number x) → x.isNaN = false := by
  rw [beq_iff_sameHead]
  refine forall_congr' fun path => ?_
  rw [rel_self]
  constructor
  · intro h x hx
    exact sameHead_self.1 (h _ hx) x rfl
  · intro h a ha
    refine sameHead_self.2 fun x hx => h x ?_
    rw [ha, hx]

instance : PartialEquivBEq Value where
  symm := beq_symm
  trans := beq_trans

/-- Equality is symmetric and transitive, and a value is equal to itself unless a NaN is anywhere
inside.  Objects are equal if they have equal entries in the same order.  However deep they are,
functions and native functions are equal if they are the same one. -/
theorem equality_partial :
    (∀ u v : Value, (u == v) = true → (v == u) = true) ∧
    (∀ u v w : Value, (u == v) = true → (v == w) = true → (u == w) = true) ∧
    (∀ v : Value, (v == v) = true ↔
      ∀ path x, v.at? path = some (number x) → x.isNaN = false) ∧
    (∀ o p : Record Value, (object o == object p) = true ↔
      o.entries.length = p.entries.length ∧ o.keys = p.keys ∧
        List.Forall₂ (fun e f => (e.2 == f.2) = true) o.entries p.entries) ∧
    ∀ u v : Value, (u == v) = true ↔ ∀ path, Option.Rel SameHead (u.at? path) (v.at? path) := by
  refine ⟨fun _ _ => beq_symm, fun _ _ _ => beq_trans, fun _ => beq_self_iff, fun o p => ?_,
    fun _ _ => beq_iff_sameHead⟩
  rw [beq_object_iff]
  exact ⟨fun h => ⟨h.2.length_eq, h⟩, And.right⟩

/-- An object with a function and a zero inside another one. -/
def nested (zero : Float) (body : List Stmt) : Value :=
  object ⟨[("inner", object ⟨[("f", function ⟨3, "f", [], body, 0⟩), ("zero", number zero)]⟩)]⟩

/-- The zeros are equal with either sign, the functions by their identity alone. -/
theorem equality_partial_nested :
    let u := nested 0.0 []
    let v := nested (-0.0) []
    let w := nested 0.0 [.declare "x" false none 1]
    (u == v) = true ∧ (v == w) = true ∧ (v == u) = true ∧ (u == w) = true ∧
      (nested (0.0 / 0.0) [] == nested (0.0 / 0.0) []) = false := by
  intro u v w
  obtain ⟨hsymm, htrans, hself, -⟩ := equality_partial
  have huv : (u == v) = true := by decide +kernel
  have hvw : (v == w) = true := by decide +kernel
  refine ⟨huv, hvw, hsymm u v huv, htrans u v w huv hvw, Bool.eq_false_iff.2 fun h => ?_⟩
  have hnumber : (0.0 / 0.0 : Float).isNaN = false := (hself _).1 h [0, 1] _ rfl
  exact absurd hnumber (by decide +kernel)

end Value

end ScopeScript
