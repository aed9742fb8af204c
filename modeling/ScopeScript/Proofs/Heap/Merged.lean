import ScopeScript.Proofs.Heap.Cells
import ScopeScript.Proofs.Eval.Coupled
import ScopeScript.Proofs.Store.Writes

/-!
# Values and marks in one

A store keeps the value of a name and its mark together, a heap in two collections.  A cell merges
to a scope if the scope has the same values, each with its mark, and the cell has no mark besides:
a mark without a value would make a constant of the name when it is declared again.

`h.Merges P s` says that the heap `h` merges to the store `s` in the scopes `P`, which contain the
parents of their members.  All operations in these scopes give the same on both, and merge again.
-/

namespace ScopeScript

/-! ## Cells -/

/-- The cell has the bindings of the scope, and no further marks. -/
structure Cell.Merges (c : Cell) (a : Scope) : Prop where
  find? : ∀ name, a.find? name =
    (c.bindings.get? name).map fun v => ⟨name, v, c.constants.contains name⟩
  marked : c.Marked

namespace Cell.Merges

variable {c : Cell} {a : Scope} {name : String}

theorem empty (ancestors : List ScopeId) (parent : Option ScopeId) :
    Cell.Merges { parent } { ancestors } :=
  ⟨fun _ => rfl, .empty parent⟩

theorem binds (h : c.Merges a) (name : String) : a.binds name = c.binds name := by
  have hfind : (a.find? name).isSome = (c.bindings.get? name).isSome := by
    rw [h.find?, Option.isSome_map]
  rw [Bool.eq_iff_iff, a.binds_iff_find?, hfind]
  rfl

theorem of_not_binds (h : c.Merges a) (hn : c.binds name = false) :
    c.constants.contains name = false := by
  rw [← Bool.not_eq_true, List.contains_iff_mem]
  intro hmem
  cases hn.symm.trans (h.marked name hmem)

/-- A new binding: a name that is not bound has no mark yet. -/
theorem bind (h : c.Merges a) (hn : c.binds name = false) (value : Value) (constant : Bool) :
    (c.bind name value constant).Merges (a.bind ⟨name, value, constant⟩) where
  find? other := by
    have hold := h.of_not_binds hn
    have hmarks : (if constant then c.constants.insert name else c.constants).contains other =
        if other = name then constant else c.constants.contains other := by
      rw [Bool.eq_iff_iff]
      cases constant with
      | true => by_cases ho : other = name <;> simp [ho]
      | false =>
        by_cases ho : other = name
        · simpa [ho] using hold
        · simp [ho]
    show (a.bind ⟨name, value, constant⟩).find? other =
      ((c.bindings.insert name value).get? other).map _
    rw [Record.get?_insert]
    simp only [Cell.bind, hmarks]
    by_cases ho : other = name
    · subst ho
      rw [if_pos rfl, if_pos rfl]
      exact a.find?_bind_self ⟨other, value, constant⟩
    · rw [if_neg ho, if_neg ho, a.find?_bind_of_ne _ (Ne.symm ho)]
      exact h.find? other
  marked := h.marked.bind name value constant

theorem replace (h : c.Merges a) (hn : c.binds name = true) (value : Value) :
    (c.replace name value).Merges (a.replace name value) where
  find? other := by
    show (a.replace name value).find? other = ((c.bindings.insert name value).get? other).map _
    rw [Record.get?_insert]
    by_cases ho : other = name
    · subst ho
      rw [a.find?_replace_self, h.find?, if_pos rfl]
      obtain ⟨v, hv⟩ := Option.isSome_iff_exists.1 hn
      rw [hv]
      rfl
    · rw [a.find?_replace_of_ne value ho, h.find?, if_neg ho]
      rfl
  marked := h.marked.replace name value

/-- Both collections are emptied. -/
theorem clear (c : Cell) (a : Scope) : c.clear.Merges a.clear := ⟨fun _ => rfl, .clear c⟩

end Cell.Merges

/-! ## Heaps -/

namespace Heap

/-! ### Global scopes -/

theorem bareCell_merges : bareCell.Merges { bindings := constantBindings } :=
  (((Cell.Merges.empty [] none).bind rfl (.boolean true) true).bind rfl (.boolean false) true).bind
    rfl .null true

/-- The cell of a global scope whose native functions have the identities from `first` on. -/
def globalCell (first : Identity) : Cell :=
  (bareCell.bind "print" (.native ⟨first, "print", .print⟩) true).bind "type_of"
    (.native ⟨first + 1, "type_of", .typeOf⟩) true

theorem globalCell_merges (first : Identity) :
    (globalCell first).Merges
      { bindings := nativeBindings first NativeOp.standard ++ constantBindings } :=
  (bareCell_merges.bind rfl _ true).bind rfl _ true

theorem values_bareCell : bareCell.values = [.boolean true, .boolean false, .null] := rfl

theorem values_globalCell (first : Identity) :
    (globalCell first).values = [.boolean true, .boolean false, .null,
      .native ⟨first, "print", .print⟩, .native ⟨first + 1, "type_of", .typeOf⟩] := rfl

theorem defineNative_of_declare {h h' : Heap} {i : ScopeId} {name : String} {op : NativeOp}
    (hd : declare { h with issued := h.issued + 1 } i name (.native ⟨h.issued, name, op⟩) true =
      .ok h') : h.defineNative i name op = h' := by
  simp only [defineNative, hd]

/-- A native function for the scope that was made last. -/
theorem defineNative_push (h : Heap) {c : Cell} {name : String} (hc : c.binds name = false)
    (op : NativeOp) : (h.push c).defineNative h.cells.size name op =
      { h.push (c.bind name (.native ⟨h.issued, name, op⟩) true) with issued := h.issued + 1 } := by
  let next : Heap := { h with issued := h.issued + 1 }
  have hown : (next.push c).hasOwn h.cells.size name = false := by
    unfold hasOwn
    rw [cell_push, if_pos rfl]
    exact hc
  have hdeclare (value : Value) : (next.push c).declare h.cells.size name value true =
      .ok (next.push (c.bind name value true)) := by
    unfold declare
    rw [hown]
    exact congrArg Except.ok (next.modifyCell_push c _)
  exact defineNative_of_declare (hdeclare _)

theorem pushGlobal_eq (h : Heap) :
    h.pushGlobal = { h.push (globalCell h.issued) with issued := h.issued + 2 } := by
  let next : Heap := { h with issued := h.issued + 1 }
  show ((h.push bareCell).defineNative h.cells.size "print" .print).defineNative h.cells.size
    "type_of" .typeOf = _
  rw [h.defineNative_push rfl]
  exact next.defineNative_push rfl .typeOf

/-- The heap, in the scopes `P`, and the store are the same but for the two collections. -/
structure Merges (P : ScopeId → Prop) (h : Heap) (s : Store) : Prop where
  size : s.scopes.size = h.cells.size
  issued : s.issued = h.issued
  cells : ∀ i, P i → (h.cell i).Merges (s.scope i)
  ancestors : ∀ i, P i → (s.scope i).ancestors = (h.parent? i).elim [] s.chain
  parent : ∀ i, P i → ∀ p, h.parent? i = some p → P p ∧ p < i

namespace Merges

variable {P : ScopeId → Prop} {h : Heap} {s : Store} {i : ScopeId} {name : String}

theorem empty (P : ScopeId → Prop) : Merges P {} {} where
  size := rfl
  issued := rfl
  cells _ _ := .empty [] none
  ancestors _ _ := rfl
  parent _ _ := nofun

/-! ### Reading -/

theorem hasOwn (hm : Merges P h s) (hi : P i) (name : String) :
    s.hasOwn i name = h.hasOwn i name :=
  (hm.cells i hi).binds name

theorem parent?_eq (hm : Merges P h s) (hi : P i) : s.parent? i = h.parent? i := by
  unfold Store.parent?
  rw [hm.ancestors i hi]
  cases h.parent? i <;> rfl

theorem chain_eq (hm : Merges P h s) (hi : P i) :
    s.chain i = i :: (h.parent? i).elim [] s.chain :=
  congrArg (i :: ·) (hm.ancestors i hi)

/-- The way from parent to parent ends where the list of the scopes around does. -/
theorem resolveWithin_eq (hm : Merges P h s) (name : String) {n : Nat} (hi : P i) (hn : i < n) :
    h.resolveWithin name n i = s.owner? i name := by
  induction n generalizing i with
  | zero => cases hn
  | succ n ih =>
    unfold resolveWithin Store.owner?
    rw [hm.chain_eq hi, List.find?_cons, hm.hasOwn hi]
    cases h.hasOwn i name with
    | true => rfl
    | false =>
      cases hp : h.parent? i with
      | none => rfl
      | some p =>
        obtain ⟨hPp, hlt⟩ := hm.parent i hi p hp
        exact ih hPp (Nat.lt_of_lt_of_le hlt (Nat.le_of_lt_succ hn))

theorem resolve_eq (hm : Merges P h s) (hi : P i) (name : String) :
    h.resolve i name = s.owner? i name :=
  hm.resolveWithin_eq name hi (Nat.lt_succ_self i)

/-- The owner of a name is one of the scopes, and binds it. -/
theorem of_resolveWithin (hm : Merges P h s) {n : Nat} {j : ScopeId} (hi : P i)
    (hj : h.resolveWithin name n i = some j) : P j ∧ h.hasOwn j name = true := by
  induction n generalizing i with
  | zero => cases hj
  | succ n ih =>
    unfold resolveWithin at hj
    split at hj
    · next hown =>
      cases hj
      exact ⟨hi, hown⟩
    · obtain ⟨p, hp, hpj⟩ := Option.bind_eq_some_iff.1 hj
      exact ih (hm.parent i hi p hp).1 hpj

theorem of_resolve (hm : Merges P h s) {j : ScopeId} (hi : P i) (hj : h.resolve i name = some j) :
    P j ∧ h.hasOwn j name = true :=
  hm.of_resolveWithin hi hj

theorem lookup_eq (hm : Merges P h s) (hi : P i) (name : String) :
    h.lookup i name = s.lookup i name := by
  unfold lookup Store.lookup Store.resolve?
  rw [← hm.resolve_eq hi]
  cases hj : h.resolve i name with
  | none => rfl
  | some j =>
    obtain ⟨hPj, -⟩ := hm.of_resolve hi hj
    simp only [Option.bind_some]
    rw [(hm.cells j hPj).find?]
    cases (h.cell j).bindings.get? name <;> rfl

/-! ### Writing -/

theorem modify (hm : Merges P h s) {f : Cell → Cell} {g : Scope → Scope}
    (hf : ∀ c, (f c).parent = c.parent) (hg : ∀ a, (g a).ancestors = a.ancestors)
    (hfg : P i → (f (h.cell i)).Merges (g (s.scope i))) :
    Merges P (h.modifyCell i f) (s.modifyScope i g) := by
  have hancestors (j : ScopeId) : ((s.modifyScope i g).scope j).ancestors = (s.scope j).ancestors := by
    rw [Store.scope_modifyScope]
    split
    · exact hg _
    · rfl
  have hchain : (s.modifyScope i g).chain = s.chain :=
    funext fun j => congrArg (j :: ·) (hancestors j)
  refine ⟨?_, hm.issued, fun j hj => ?_, fun j hj => ?_, fun j hj p hp => ?_⟩
  · rw [Store.size_modifyScope, size_modifyCell, hm.size]
  · rw [Store.scope_modifyScope, cell_modifyCell, hm.size]
    split
    · next hij =>
      obtain ⟨rfl, -⟩ := hij
      exact hfg hj
    · exact hm.cells j hj
  · rw [hancestors, h.parent?_modifyCell i j hf, hchain]
    exact hm.ancestors j hj
  · rw [h.parent?_modifyCell i j hf] at hp
    exact hm.parent j hj p hp

theorem declare (hm : Merges P h s) (hi : P i) (name : String) (value : Value) (constant : Bool) :
    SameExcept (Merges P) (h.declare i name value constant) (s.declare i name value constant) := by
  unfold Heap.declare Store.declare
  rw [hm.hasOwn hi]
  cases hown : h.hasOwn i name with
  | true => exact .error _
  | false =>
    exact .ok (hm.modify (fun _ => rfl) (fun _ => rfl) fun hi => (hm.cells i hi).bind hown value
      constant)

theorem assign (hm : Merges P h s) (hi : P i) (name : String) (value : Value) :
    SameExcept (Merges P) (h.assign i name value) (s.assign i name value) := by
  unfold Heap.assign Store.assign
  rw [← hm.resolve_eq hi]
  cases hj : h.resolve i name with
  | none => exact .error _
  | some j =>
    obtain ⟨hPj, hown⟩ := hm.of_resolve hi hj
    have hmark : ((s.scope j).find? name).any (·.constant) = (h.cell j).constants.contains name := by
      obtain ⟨v, hv⟩ := Option.isSome_iff_exists.1 hown
      rw [(hm.cells j hPj).find?, hv]
      rfl
    dsimp only
    rw [hmark]
    split
    · exact .error _
    · exact .ok (hm.modify (fun _ => rfl) (fun _ => rfl) fun hPj =>
        (hm.cells j hPj).replace hown value)

theorem clear (hm : Merges P h s) (i : ScopeId) : Merges P (h.clear i) (s.clear i) :=
  hm.modify (fun _ => rfl) (fun _ => rfl) fun _ => .clear _ _

theorem withIssued (hm : Merges P h s) {n n' : Identity} (hn : n' = n) :
    Merges P { h with issued := n } { s with issued := n' } :=
  ⟨hm.size, hn, hm.cells, hm.ancestors, hm.parent⟩

theorem issue (hm : Merges P h s) :
    Merges P { h with issued := h.issued + 1 } { s with issued := s.issued + 1 } :=
  hm.withIssued (congrArg (· + 1) hm.issued)

/-- A scope that was not made yet is no parent. -/
theorem parent_ne_size (hm : Merges P h s) (hi : P i) {p : ScopeId} (hp : h.parent? i = some p) :
    p ≠ h.cells.size := by
  exact Nat.ne_of_lt (Nat.lt_trans (hm.parent i hi p hp).2 (lt_size_of_parent? hp))

/-- A new scope, inside one of the scopes or inside none. -/
theorem push (hm : Merges P h s) {c : Cell} {a : Scope} (hc : c.Merges a)
    (hparent : ∀ p, c.parent = some p → P p ∧ p < h.cells.size)
    (hancestors : a.ancestors = c.parent.elim [] s.chain) : Merges P (h.push c) (s.push a) := by
  have hscope (j : ScopeId) :
      (s.push a).scope j = if j = h.cells.size then a else s.scope j := by
    rw [← hm.size]
    split
    · next hj => rw [hj, Store.scope_push_self]
    · next hj =>
      rcases Nat.lt_or_gt_of_ne hj with hlt | hgt
      · exact s.scope_push_of_lt hlt
      · rw [s.scope_of_size_le (Nat.le_of_lt hgt), Store.scope_of_size_le]
        rwa [Store.size_push]
  have hchain {p : Option ScopeId} (hp : ∀ q, p = some q → q ≠ h.cells.size) :
      p.elim [] (s.push a).chain = p.elim [] s.chain := by
    cases p with
    | none => rfl
    | some q =>
      have hq := hscope q
      rw [if_neg (hp q rfl)] at hq
      exact congrArg (fun b : Scope => q :: b.ancestors) hq
  refine ⟨?_, hm.issued, fun j hj => ?_, fun j hj => ?_, fun j hj p hp => ?_⟩
  · rw [Store.size_push, Heap.size_push, hm.size]
  · rw [hscope, cell_push]
    split
    · exact hc
    · exact hm.cells j hj
  · unfold parent?
    rw [hscope, cell_push]
    split
    · rw [hancestors, hchain fun q hq => Nat.ne_of_lt (hparent q hq).2]
    · exact (hm.ancestors j hj).trans (hchain fun q hq => hm.parent_ne_size hj hq).symm
  · unfold parent? at hp
    rw [cell_push] at hp
    split at hp
    · next hj =>
      rw [hj]
      exact hparent p hp
    · exact hm.parent j hj p hp

/-! ### Global scopes -/

theorem pushBareGlobal (hm : Merges P h s) : Merges P h.pushBareGlobal s.pushBareGlobal :=
  hm.push bareCell_merges nofun rfl

theorem pushGlobal (hm : Merges P h s) : Merges P h.pushGlobal s.pushGlobal := by
  have hpush := hm.push (globalCell_merges h.issued) nofun rfl
  rw [pushGlobal_eq]
  unfold Store.pushGlobal
  rw [hm.issued]
  exact hpush.withIssued rfl

end Merges

end Heap

end ScopeScript
