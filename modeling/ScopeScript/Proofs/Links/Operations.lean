import Mathlib.Logic.Relation
import ScopeScript.Proofs.Heap.Merged

/-!
# Heaps whose links lead somewhere

A heap is *whole* if everything that it refers to is live: the parent of a live scope, the scope
that a function was declared in, a scope that the embedding program holds.  Moreover a parent is
older than its child, and a name that is marked as a constant has a value.

`Operation h h'` is one operation on live scopes, with values that lead to live scopes.  It keeps
a heap whole, and leaves the parents of all scopes as they are (`Operation.whole`); so do operations
one after the other.  `Leads h h'` says moreover that no scope was freed that was live before.
-/

namespace ScopeScript

/-! ## Values of a heap -/

/-- The functions in a value were declared in live scopes of the heap. -/
def Value.In (v : Value) (h : Heap) : Prop := ∀ i ∈ v.scopes, h.Live i

namespace Value

theorem mem_entriesScopes_iff {es : List (String × Value)} {i : ScopeId} :
    i ∈ entriesScopes es ↔ ∃ e ∈ es, i ∈ e.2.scopes := by
  induction es with
  | nil => simp [entriesScopes]
  | cons e es ih => simp [entriesScopes, ih]

variable {h h' : Heap}

theorem In.mono {v : Value} (hv : v.In h) (hlive : ∀ i, h.Live i → h'.Live i) : v.In h' :=
  fun i hi => hlive i (hv i hi)

/-- What is elsewhere in memory keeps its scopes. -/
theorem In.leaves {v : Value} {frame : ScopeId} {vs : List Value} (hv : v.In h)
    (hl : h.Leaves frame vs h') (hmem : v ∈ vs) : v.In h' := by
  have hlive {i : ScopeId} : h.Live i → i ≠ frame → h'.Live i := hl.live
  cases hl with
  | kept => exact hv
  | freed hf =>
    intro i hi
    exact hlive (hv i hi) fun e => hf.elsewhere v hmem (e ▸ hi)

theorem in_object_iff {r : Record Value} : (object r).In h ↔ ∀ e ∈ r.entries, e.2.In h := by
  unfold In
  simp only [scopes, mem_entriesScopes_iff]
  constructor
  · intro hr e he i hi
    exact hr i ⟨e, he, hi⟩
  · intro hr i hi
    obtain ⟨e, he, hi⟩ := hi
    exact hr e he i hi

theorem in_ofList {pairs : List (String × Value)} (hpairs : ∀ e ∈ pairs, e.2.In h) :
    (object (.ofList pairs)).In h := by
  rw [in_object_iff]
  intro e he
  obtain ⟨p, hp, heq⟩ := Record.exists_mem_of_mem_ofList he
  exact heq ▸ hpairs p hp

theorem in_property {o : Record Value} (ho : (Value.object o).In h) (key : String) :
    ((o.get? key).getD .null).In h := by
  cases hv : o.get? key with
  | none => exact nofun
  | some v =>
    obtain ⟨e, he, rfl⟩ := Record.exists_mem_of_get? hv
    exact in_object_iff.1 ho e he

end Value

/-! ## Whole heaps -/

/-- Everything that a heap refers to is there. -/
structure Heap.Whole (h : Heap) : Prop where
  marked : ∀ i, (h.cell i).Marked
  values : ∀ i, ∀ v ∈ (h.cell i).values, v.In h
  parent : ∀ i, h.Live i → ∀ p, h.parent? i = some p → h.Live p
  parent_lt : ∀ i p, h.parent? i = some p → p < i
  held : ∀ i ∈ h.held, h.Live i

/-! ## Operations -/

/-- One operation on live scopes.  One that fails leaves the heap as it is. -/
inductive Operation : Heap → Heap → Prop
  | root (h : Heap) : Operation h (h.push {})
  | bareGlobal (h : Heap) : Operation h h.pushBareGlobal
  | global (h : Heap) : Operation h h.pushGlobal
  | child {h : Heap} {i : ScopeId} (hi : h.Live i) : Operation h (h.push { parent := some i })
  | declare {h h' : Heap} {i : ScopeId} {name : String} {value : Value} {constant : Bool}
      (hi : h.Live i) (hv : value.In h) (hd : h.declare i name value constant = .ok h') :
      Operation h h'
  | assign {h h' : Heap} {i : ScopeId} {name : String} {value : Value}
      (hi : h.Live i) (hv : value.In h) (ha : h.assign i name value = .ok h') : Operation h h'
  | clear {h : Heap} {i : ScopeId} (hi : h.Live i) : Operation h (h.clear i)
  /-- Clears a scope that only its own functions lead to, as far as can be told from the values that
  are `elsewhere` in memory and the number of handles. -/
  | release {h : Heap} {i : ScopeId} (hi : h.Live i) (elsewhere : List Value) (handles : Nat) :
      Operation h (h.release i elsewhere handles).2
  /-- A handle to a scope is given back, and the scope is freed if nothing refers to it. -/
  | drop (h : Heap) (i : ScopeId) (elsewhere : List Value) : Operation h (h.drop i elsewhere)
  /-- An identity for a new function. -/
  | issue (h : Heap) : Operation h { h with issued := h.issued + 1 }
  /-- The embedding program keeps a handle. -/
  | hold {h : Heap} {i : ScopeId} (hi : h.Live i) : Operation h { h with held := h.held.push i }
  | output (h : Heap) (output : Array String) : Operation h { h with output }

namespace Heap.Whole

variable {h h' : Heap} {i : ScopeId} {name : String} {value : Value} {constant : Bool}

theorem empty : ({} : Heap).Whole where
  marked _ := nofun
  values _ := nofun
  parent _ _ _ := nofun
  parent_lt _ _ := nofun
  held := nofun

/-- The value of a name leads to live scopes. -/
theorem value_in (h : Heap.Whole h') {v : Value} (hv : h'.lookup i name = .ok v) : v.In h' := by
  unfold Heap.lookup at hv
  split at hv
  · next w hw =>
    cases hv
    obtain ⟨j, -, hj⟩ := Option.bind_eq_some_iff.1 hw
    exact h.values j _ (Cell.mem_values_of_get? hj)
  · cases hv

/-- Other bindings in a scope. -/
theorem modifyCell (hw : h.Whole) (i : ScopeId) {f : Cell → Cell}
    (hparent : ∀ c, (f c).parent = c.parent) (hfreed : ∀ c, (f c).freed = c.freed)
    (hmarked : (h.cell i).Marked → (f (h.cell i)).Marked)
    (hvalues : ∀ v ∈ (f (h.cell i)).values, v ∈ (h.cell i).values ∨ v.In h) :
    (h.modifyCell i f).Whole := by
  have hgrows : h.Grows (h.modifyCell i f) := .of_modifyCell h i hparent hfreed
  refine ⟨fun j => ?_, fun j v hv => ?_, fun j hj p hp => ?_, fun j p hp => ?_,
    fun j hj => hgrows.live j (hw.held j hj)⟩
  · rw [cell_modifyCell]
    split
    · next hij =>
      obtain ⟨rfl, -⟩ := hij
      exact hmarked (hw.marked i)
    · exact hw.marked j
  · refine Value.In.mono ?_ hgrows.live
    rw [cell_modifyCell] at hv
    split at hv
    · next hij =>
      obtain ⟨rfl, -⟩ := hij
      exact (hvalues v hv).elim (hw.values i v) id
    · exact hw.values j v hv
  · have hlive : h.Live j :=
      ⟨h.size_modifyCell i f ▸ hj.1, (h.freed_modifyCell i j hfreed).symm.trans hj.2⟩
    rw [h.parent?_modifyCell i j hparent] at hp
    exact hgrows.live p (hw.parent j hlive p hp)
  · rw [h.parent?_modifyCell i j hparent] at hp
    exact hw.parent_lt j p hp

/-- A new scope inside a live one, or inside none. -/
theorem push (hw : h.Whole) {c : Cell} (hparent : ∀ p, c.parent = some p → h.Live p)
    (hmarked : c.Marked) (hvalues : ∀ v ∈ c.values, v.In h) : (h.push c).Whole := by
  have hgrows : h.Grows (h.push c) := .of_push h c
  have hparents (j p : ScopeId) (hp : (h.push c).parent? j = some p) :
      j = h.cells.size ∧ c.parent = some p ∨ h.parent? j = some p := by
    unfold parent? at hp ⊢
    rw [cell_push] at hp
    split at hp
    · next hj => exact .inl ⟨hj, hp⟩
    · exact .inr hp
  refine ⟨fun j => ?_, fun j v hv => ?_, fun j hj p hp => ?_, fun j p hp => ?_,
    fun j hj => hgrows.live j (hw.held j hj)⟩
  · rw [cell_push]
    split
    · exact hmarked
    · exact hw.marked j
  · rw [cell_push] at hv
    split at hv
    · exact (hvalues v hv).mono hgrows.live
    · exact (hw.values j v hv).mono hgrows.live
  · obtain ⟨-, hp⟩ | hp := hparents j p hp
    · exact hgrows.live p (hparent p hp)
    · have hlt := lt_size_of_parent? hp
      have hlive : h.Live j := by
        refine ⟨hlt, ?_⟩
        have hfreed := hj.2
        rwa [cell_push, if_neg (Nat.ne_of_lt hlt)] at hfreed
      exact hgrows.live p (hw.parent j hlive p hp)
  · obtain ⟨hj, hp⟩ | hp := hparents j p hp
    · exact hj ▸ (hparent p hp).1
    · exact hw.parent_lt j p hp

theorem of_cells_eq (hw : h.Whole) (hcells : h'.cells = h.cells)
    (hheld : ∀ i ∈ h'.held, h.Live i) : h'.Whole := by
  obtain ⟨cells, issued, output, held⟩ := h'
  obtain rfl : cells = h.cells := hcells
  exact ⟨hw.marked, hw.values, hw.parent, hw.parent_lt, hheld⟩

theorem declare (hw : h.Whole) (hv : value.In h)
    (hd : h.declare i name value constant = .ok h') : h'.Whole := by
  obtain ⟨-, rfl⟩ := declare_eq_ok_iff.1 hd
  refine hw.modifyCell i (fun _ => rfl) (fun _ => rfl) (fun hm => hm.bind name value constant)
    fun v hmem => (Cell.mem_values_bind hmem).imp_right ?_
  rintro rfl
  exact hv

theorem assign (hw : h.Whole) (hv : value.In h) (ha : h.assign i name value = .ok h') :
    h'.Whole := by
  obtain ⟨j, -, -, rfl⟩ := assign_eq_ok ha
  refine hw.modifyCell j (fun _ => rfl) (fun _ => rfl) (fun hm => hm.replace name value)
    fun v hmem => (Cell.mem_values_replace hmem).imp_right ?_
  rintro rfl
  exact hv

theorem clear (hw : h.Whole) (i : ScopeId) : (h.clear i).Whole :=
  hw.modifyCell i (fun _ => rfl) (fun _ => rfl) (fun _ => .clear _) nofun

/-- What is freed was not referred to. -/
theorem leaves (hw : h.Whole) {vs : List Value} (hl : h.Leaves i vs h') : h'.Whole := by
  have hlive {j : ScopeId} (hj : h.Live j) (hne : j ≠ i) : h'.Live j := hl.live hj hne
  cases hl with
  | kept => exact hw
  | freed hf =>
    have hparent (j : ScopeId) : (h.modifyCell i Cell.free).parent? j = h.parent? j :=
      h.parent?_modifyCell i j fun _ => rfl
    have hbefore {j : ScopeId} (hj : (h.modifyCell i Cell.free).Live j) : h.Live j := by
      obtain ⟨hlt, hfreed⟩ := hj
      refine ⟨h.size_modifyCell i Cell.free ▸ hlt, ?_⟩
      rw [cell_modifyCell] at hfreed
      split at hfreed
      · cases hfreed
      · exact hfreed
    refine ⟨fun j => ?_, fun j v hv k hk => ?_, fun j hj p hp => ?_, fun j p hp => ?_,
      fun j hj => hlive (hw.held j hj) fun e => hf.held (e ▸ hj)⟩
    · rw [cell_modifyCell]
      split
      · exact nofun
      · exact hw.marked j
    · have hbound : j ≠ i ∧ v ∈ (h.cell j).values := by
        rw [cell_modifyCell] at hv
        split at hv
        · cases hv
        · next hout =>
          refine ⟨fun hji => ?_, hv⟩
          rw [cell_of_size_le (Nat.le_of_not_lt fun hlt => hout ⟨hji.symm, hlt⟩)] at hv
          cases hv
      obtain ⟨hne, hv⟩ := hbound
      exact hlive (hw.values j v hv k hk) fun e => hf.bound j hne v hv (e ▸ hk)
    · rw [hparent] at hp
      have hj := hbefore hj
      exact hlive (hw.parent j hj p hp) fun e => hf.parent j hj (e ▸ hp)
    · rw [hparent] at hp
      exact hw.parent_lt j p hp

theorem pushBareGlobal (hw : h.Whole) : h.pushBareGlobal.Whole := by
  refine hw.push nofun bareCell_merges.marked ?_
  rw [values_bareCell]
  simp [Value.In, Value.scopes]

theorem pushGlobal (hw : h.Whole) : h.pushGlobal.Whole := by
  have hvalues : ∀ v ∈ (globalCell h.issued).values, v.In h := by
    rw [values_globalCell]
    simp [Value.In, Value.scopes]
  have hpush : (h.push (globalCell h.issued)).Whole :=
    hw.push (fun p hp => absurd hp (Option.some_ne_none p).symm)
      (globalCell_merges h.issued).marked hvalues
  rw [pushGlobal_eq]
  exact hpush.of_cells_eq rfl hpush.held

end Heap.Whole

/-- An operation keeps the heap whole and its links as they are. -/
theorem Operation.whole {h h' : Heap} (hw : h.Whole) (ho : Operation h h') :
    h'.Whole ∧ h.Links h' := by
  have hpush (c : Cell) : h.Links (h.push c) := (Heap.Grows.of_push h c).toLinks
  cases ho with
  | root => exact ⟨hw.push nofun (.empty none) nofun, hpush _⟩
  | bareGlobal => exact ⟨hw.pushBareGlobal, hpush _⟩
  | global =>
    refine ⟨hw.pushGlobal, ?_⟩
    rw [Heap.pushGlobal_eq]
    have hissued : (h.push (Heap.globalCell h.issued)).Links
        { h.push (Heap.globalCell h.issued) with issued := h.issued + 2 } :=
      .of_cells_eq rfl (Nat.le_add_right _ _)
    exact (hpush _).trans hissued
  | child hi =>
    refine ⟨hw.push ?_ (.empty _) nofun, hpush _⟩
    rintro p ⟨⟩
    exact hi
  | declare _ hv hd =>
    refine ⟨hw.declare hv hd, ?_⟩
    obtain ⟨-, rfl⟩ := Heap.declare_eq_ok_iff.1 hd
    exact .of_modifyCell h _ fun _ => rfl
  | assign _ hv ha =>
    refine ⟨hw.assign hv ha, ?_⟩
    obtain ⟨j, -, -, rfl⟩ := Heap.assign_eq_ok ha
    exact .of_modifyCell h _ fun _ => rfl
  | clear => exact ⟨hw.clear _, .of_modifyCell h _ fun _ => rfl⟩
  | release _ elsewhere handles =>
    unfold Heap.release
    split
    · exact ⟨hw.clear _, .of_modifyCell h _ fun _ => rfl⟩
    · exact ⟨hw, .refl h⟩
  | drop i elsewhere =>
    have hleaves := h.drop_leaves i elsewhere
    exact ⟨hw.leaves hleaves, hleaves.links⟩
  | issue => exact ⟨hw.of_cells_eq rfl hw.held, .of_cells_eq rfl (Nat.le_succ _)⟩
  | hold hi =>
    refine ⟨hw.of_cells_eq rfl fun j hj => ?_, .of_cells_eq rfl (Nat.le_refl _)⟩
    rcases Array.mem_push.1 hj with hj | rfl
    · exact hw.held j hj
    · exact hi
  | output => exact ⟨hw.of_cells_eq rfl hw.held, .of_cells_eq rfl (Nat.le_refl _)⟩

/-! ## Going on -/

/-- Operations one after the other, which free nothing that was live at the beginning. -/
structure Leads (h h' : Heap) : Prop where
  operations : Relation.ReflTransGen Operation h h'
  live : ∀ i, h.Live i → h'.Live i

namespace Leads

variable {h h' h'' : Heap}

theorem refl (h : Heap) : Leads h h := ⟨.refl, fun _ hi => hi⟩

theorem trans (hl : Leads h h') (hl' : Leads h' h'') : Leads h h'' :=
  ⟨hl.operations.trans hl'.operations, fun i hi => hl'.live i (hl.live i hi)⟩

theorem single (ho : Operation h h') (hg : h.Grows h') : Leads h h' := ⟨.single ho, hg.live⟩

end Leads

theorem whole_of_operations {h h' : Heap} (hw : h.Whole)
    (ho : Relation.ReflTransGen Operation h h') : h'.Whole ∧ h.Links h' := by
  induction ho with
  | refl => exact ⟨hw, .refl h⟩
  | tail _ ho ih =>
    obtain ⟨hwhole, hlinks⟩ := ho.whole ih.1
    exact ⟨hwhole, ih.2.trans hlinks⟩

theorem Leads.whole {h h' : Heap} (hw : h.Whole) (hl : Leads h h') : h'.Whole :=
  (whole_of_operations hw hl.operations).1

theorem Leads.grows {h h' : Heap} (hw : h.Whole) (hl : Leads h h') : h.Grows h' :=
  ⟨(whole_of_operations hw hl.operations).2, hl.live⟩

end ScopeScript
