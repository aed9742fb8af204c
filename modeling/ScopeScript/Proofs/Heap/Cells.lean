import Mathlib.Data.List.Basic
import ScopeScript.Heap
import ScopeScript.Proofs.Run

/-!
# Cells that come and go

A scope of a heap is *live* if it was made and is not freed.  A heap keeps its links (`Heap.Links`)
if the old scopes keep their parents.  It grows (`Heap.Grows`) if those that were live stay so, too.

At the end of a call its frame is given up (`Heap.GivesUp`).  `Heap.Leaves frame vs h h'` says what
that comes to: nothing, or the frame is freed, but then no other scope and none of the values `vs`
leads to it any more (`Heap.Forgotten`).  A frame that is cleared first is always freed, so that
nobody sees it cleared.
-/

namespace ScopeScript

/-! ## Cells -/

namespace Cell

variable {c : Cell} {name : String} {value v : Value} {constant : Bool} {i : ScopeId}

theorem mem_values_of_get? (h : c.bindings.get? name = some v) : v ∈ c.values := by
  obtain ⟨e, he, rfl⟩ := Record.exists_mem_of_get? h
  exact List.mem_map_of_mem he

theorem mem_values_insert (h : v ∈ (c.bindings.insert name value).entries.map (·.2)) :
    v ∈ c.values ∨ v = value := by
  obtain ⟨e, he, rfl⟩ := List.mem_map.1 h
  exact (Record.mem_of_mem_insertEntry he).imp_left List.mem_map_of_mem

theorem mem_values_bind (h : v ∈ (c.bind name value constant).values) :
    v ∈ c.values ∨ v = value :=
  mem_values_insert h

theorem mem_values_replace (h : v ∈ (c.replace name value).values) : v ∈ c.values ∨ v = value :=
  mem_values_insert h

/-- Every marked name has a value. -/
def Marked (c : Cell) : Prop := ∀ name ∈ c.constants, c.binds name = true

theorem binds_insert (c : Cell) (name other : String) (value : Value) :
    ((c.bindings.insert name value).get? other).isSome = true ↔
      other = name ∨ c.binds other = true := by
  rw [Record.get?_insert]
  split
  · next h => simp [h]
  · next h => simp [h, binds]

namespace Marked

theorem empty (parent : Option ScopeId) : Marked { parent } := nofun

theorem bind (h : c.Marked) (name : String) (value : Value) (constant : Bool) :
    (c.bind name value constant).Marked := by
  intro other hother
  refine (c.binds_insert name other value).2 ?_
  simp only [Cell.bind] at hother
  split at hother
  · exact (List.mem_insert_iff.1 hother).imp_right (h other)
  · exact .inr (h other hother)

theorem replace (h : c.Marked) (name : String) (value : Value) : (c.replace name value).Marked :=
  fun other hother => (c.binds_insert name other value).2 (.inr (h other hother))

/-- No mark outlives the value. -/
theorem clear (c : Cell) : c.clear.Marked := nofun

end Marked

end Cell

namespace Heap

/-! ## Changing cells -/

variable (h : Heap) (i j : ScopeId)

theorem cell_of_size_le {h : Heap} {i : ScopeId} (hi : h.cells.size ≤ i) : h.cell i = {} := by
  simp [cell, Nat.not_lt.2 hi]

theorem lt_size_of_parent? {h : Heap} {i p : ScopeId} (hp : h.parent? i = some p) :
    i < h.cells.size := by
  refine Decidable.byContradiction fun hi => ?_
  unfold parent? at hp
  rw [cell_of_size_le (Nat.le_of_not_lt hi)] at hp
  cases hp

@[simp]
theorem size_modifyCell (f : Cell → Cell) : (h.modifyCell i f).cells.size = h.cells.size := by
  simp [modifyCell]

theorem cell_modifyCell (f : Cell → Cell) :
    (h.modifyCell i f).cell j = if i = j ∧ j < h.cells.size then f (h.cell j) else h.cell j := by
  unfold cell modifyCell
  rw [Array.getD_eq_getD_getElem?, Array.getD_eq_getD_getElem?, Array.getElem?_modify]
  by_cases hij : i = j
  · by_cases hj : j < h.cells.size
    · simp [hij, hj]
    · simp [hij, hj]
  · simp [hij]

theorem cell_modifyCell_of_ne {i j : ScopeId} (f : Cell → Cell) (hij : i ≠ j) :
    (h.modifyCell i f).cell j = h.cell j := by
  rw [cell_modifyCell, if_neg fun hc => hij hc.1]

/-- A change that keeps the link of a cell. -/
theorem parent?_modifyCell {f : Cell → Cell} (hf : ∀ c, (f c).parent = c.parent) :
    (h.modifyCell i f).parent? j = h.parent? j := by
  unfold parent?
  rw [cell_modifyCell]
  split
  · exact hf _
  · rfl

theorem freed_modifyCell {f : Cell → Cell} (hf : ∀ c, (f c).freed = c.freed) :
    ((h.modifyCell i f).cell j).freed = (h.cell j).freed := by
  rw [cell_modifyCell]
  split
  · exact hf _
  · rfl

@[simp]
theorem size_push (c : Cell) : (h.push c).cells.size = h.cells.size + 1 := by
  simp [push]

theorem cell_push (c : Cell) :
    (h.push c).cell j = if j = h.cells.size then c else h.cell j := by
  by_cases hj : j = h.cells.size
  · simp [cell, push, hj]
  · simp [cell, push, Array.getElem?_push, hj]

theorem modifyCell_push (c : Cell) (f : Cell → Cell) :
    (h.push c).modifyCell h.cells.size f = h.push (f c) := by
  have hcells : (h.cells.push c).modify h.cells.size f = h.cells.push (f c) := by
    ext i hi hi'
    · simp
    · have hle : i ≤ h.cells.size := by
        simpa [Nat.lt_succ_iff] using hi'
      rcases Nat.eq_or_lt_of_le hle with rfl | hlt
      · simp [Array.getElem_modify]
      · simp [Array.getElem_modify, Array.getElem_push, hlt, Nat.ne_of_gt hlt]
  exact congrArg (fun cells : Array Cell => { h with cells }) hcells

section Writing

variable {h h' : Heap} {i : ScopeId} {name : String} {value : Value} {constant : Bool}

theorem declare_eq_ok_iff :
    h.declare i name value constant = .ok h' ↔
      h.hasOwn i name = false ∧ h' = h.modifyCell i (·.bind name value constant) := by
  unfold declare
  cases h.hasOwn i name with
  | true => exact ⟨nofun, fun hc => nomatch hc.1⟩
  | false => exact ⟨fun hc => ⟨rfl, (Except.ok.inj hc).symm⟩, fun hc => congrArg Except.ok hc.2.symm⟩

theorem assign_eq_ok (hh : h.assign i name value = .ok h') :
    ∃ j, h.resolve i name = some j ∧ (h.cell j).constants.contains name = false ∧
      h' = h.modifyCell j (·.replace name value) := by
  unfold assign at hh
  split at hh
  · cases hh
  · next j hj =>
    split at hh
    · cases hh
    · next hc => exact ⟨j, hj, Bool.eq_false_iff.2 hc, (Except.ok.inj hh).symm⟩

end Writing

/-! ## Steps -/

theorem tryHeap_apply (f : Heap → Except ScopeError Heap) (h : Heap) :
    tryHeap f h =
      match f h with
      | .ok h => .ok (.ok ()) h
      | .error e => .ok (.error e) h := by
  rw [tryHeap, Eval.modifyGet_apply]
  cases f h <;> rfl

theorem lookup_apply (scope : ScopeId) (name : String) (line : Nat) (h : Heap) :
    Eval.lookup scope name line h =
      match h.lookup scope name with
      | .ok v => .ok v h
      | .error e => .error (.fault ⟨e.cause name, line⟩) h := by
  show Eval.ofScope name line (h.lookup scope name) h = _
  cases h.lookup scope name <;> rfl

theorem ofTryHeap_apply (f : Heap → Except ScopeError Heap) (name : String) (line : Nat)
    (h : Heap) :
    (tryHeap f >>= Eval.ofScope name line) h =
      match f h with
      | .ok h => .ok () h
      | .error e => .error (.fault ⟨e.cause name, line⟩) h := by
  rw [Eval.bind_apply, tryHeap_apply]
  cases f h <;> rfl

/-! ## Live scopes -/

/-- The scope was made and is not freed. -/
def Live (h : Heap) (i : ScopeId) : Prop := i < h.cells.size ∧ (h.cell i).freed = false

theorem live_push (h : Heap) {c : Cell} (hc : c.freed = false) :
    (h.push c).Live h.cells.size := by
  refine ⟨(h.size_push c).symm ▸ Nat.lt_succ_self _, ?_⟩
  rw [cell_push, if_pos rfl]
  exact hc

/-- Scopes were added, and those of `h` have the parents that they had. -/
structure Links (h h' : Heap) : Prop where
  issued_le : h.issued ≤ h'.issued
  size_le : h.cells.size ≤ h'.cells.size
  parent : ∀ i < h.cells.size, h'.parent? i = h.parent? i

/-- Moreover, no scope of `h` was freed. -/
structure Grows (h h' : Heap) : Prop extends Links h h' where
  live : ∀ i, h.Live i → h'.Live i

section Growth

variable {h h' h'' : Heap} {i : ScopeId}

theorem Links.refl (h : Heap) : h.Links h := ⟨Nat.le_refl _, Nat.le_refl _, fun _ _ => rfl⟩

theorem Links.trans (hl : h.Links h') (hl' : h'.Links h'') : h.Links h'' where
  issued_le := Nat.le_trans hl.issued_le hl'.issued_le
  size_le := Nat.le_trans hl.size_le hl'.size_le
  parent i hi := (hl'.parent i (Nat.lt_of_lt_of_le hi hl.size_le)).trans (hl.parent i hi)

theorem Links.of_modifyCell (h : Heap) (i : ScopeId) {f : Cell → Cell}
    (hparent : ∀ c, (f c).parent = c.parent) : h.Links (h.modifyCell i f) where
  issued_le := Nat.le_refl _
  size_le := Nat.le_of_eq (h.size_modifyCell i f).symm
  parent j _ := h.parent?_modifyCell i j hparent

theorem Links.of_cells_eq (hcells : h'.cells = h.cells) (hissued : h.issued ≤ h'.issued) :
    h.Links h' := by
  obtain ⟨cells, issued, output, held⟩ := h'
  obtain rfl : cells = h.cells := hcells
  exact ⟨hissued, Nat.le_refl _, fun _ _ => rfl⟩

theorem Grows.refl (h : Heap) : h.Grows h := ⟨.refl h, fun _ hi => hi⟩

theorem Grows.trans (hg : h.Grows h') (hg' : h'.Grows h'') : h.Grows h'' :=
  ⟨hg.toLinks.trans hg'.toLinks, fun i hi => hg'.live i (hg.live i hi)⟩

theorem Grows.of_modifyCell (h : Heap) (i : ScopeId) {f : Cell → Cell}
    (hparent : ∀ c, (f c).parent = c.parent) (hfreed : ∀ c, (f c).freed = c.freed) :
    h.Grows (h.modifyCell i f) where
  toLinks := .of_modifyCell h i hparent
  live j hj := ⟨(h.size_modifyCell i f).symm ▸ hj.1, (h.freed_modifyCell i j hfreed).trans hj.2⟩

theorem Grows.of_push (h : Heap) (c : Cell) : h.Grows (h.push c) := by
  have hcell {j : ScopeId} (hj : j < h.cells.size) : (h.push c).cell j = h.cell j := by
    rw [cell_push, if_neg (Nat.ne_of_lt hj)]
  have hsize : (h.push c).cells.size = h.cells.size + 1 := h.size_push c
  refine ⟨⟨Nat.le_refl _, hsize ▸ Nat.le_succ _, fun j hj => congrArg Cell.parent (hcell hj)⟩,
    fun j hj => ⟨?_, ?_⟩⟩
  · exact hsize ▸ Nat.lt_succ_of_lt hj.1
  · rw [hcell hj.1]
    exact hj.2

theorem Grows.of_cells_eq (hcells : h'.cells = h.cells) (hissued : h.issued ≤ h'.issued) :
    h.Grows h' := by
  refine ⟨.of_cells_eq hcells hissued, fun i hi => ?_⟩
  unfold Live cell at hi ⊢
  rwa [hcells]

end Growth

/-! ## Frames that are left -/

/-- Nothing leads to the frame but what it binds itself: no other scope, no handle and none of the
values `vs`. -/
structure Forgotten (h : Heap) (frame : ScopeId) (vs : List Value) : Prop where
  held : frame ∉ h.held
  parent : ∀ i, h.Live i → h.parent? i ≠ some frame
  bound : ∀ i ≠ frame, ∀ v ∈ (h.cell i).values, frame ∉ v.scopes
  elsewhere : ∀ v ∈ vs, frame ∉ v.scopes

/-- How a heap changes when a call is over, with the values `vs` elsewhere in memory. -/
inductive Leaves (frame : ScopeId) (vs : List Value) (h : Heap) : Heap → Prop
  | kept : Leaves frame vs h h
  | freed (hf : h.Forgotten frame vs) : Leaves frame vs h (h.modifyCell frame Cell.free)

/-- How a frame is given up: its handle is dropped, and before that it may be released. -/
inductive GivesUp (frame : ScopeId) (vs : List Value) (h : Heap) : Heap → Prop
  | dropped : GivesUp frame vs h (h.drop frame vs)
  | released : GivesUp frame vs h
      ((h.release frame vs (1 + h.held.count frame)).2.drop frame vs)

section Leaving

variable {h h' : Heap} {frame : ScopeId} {vs : List Value}

theorem children_eq_zero_iff :
    h.children frame = 0 ↔ ∀ i, h.Live i → h.parent? i ≠ some frame := by
  unfold children
  rw [Array.countP_eq_zero]
  constructor
  · intro hnone i hi hp
    have hmem : h.cell i ∈ h.cells := by
      simp [cell, hi.1]
    have hcell : (h.cell i).parent = some frame := hp
    have hchild := hnone (h.cell i) hmem
    rw [hi.2, hcell] at hchild
    simp at hchild
  · intro hnone c hc
    obtain ⟨i, hi, rfl⟩ := Array.mem_iff_getElem.1 hc
    have hcell : h.cell i = h.cells[i] := by
      simp [cell, hi]
    have hlive := hnone i
    unfold Live parent? at hlive
    rw [hcell] at hlive
    simpa using fun hfreed => hlive ⟨hi, hfreed⟩

theorem escapes_eq_false_iff :
    h.escapes frame vs = false ↔
      (∀ i ≠ frame, ∀ v ∈ (h.cell i).values, frame ∉ v.scopes) ∧ ∀ v ∈ vs, frame ∉ v.scopes := by
  have hmem (v : Value) :
      v ∈ h.valuesOutside frame ↔ ∃ i ≠ frame, v ∈ (h.cell i).values := by
    simp only [valuesOutside, List.mem_flatMap, List.mem_filter, List.mem_range, bne_iff_ne]
    refine ⟨fun ⟨i, hi, hv⟩ => ⟨i, hi.2, hv⟩, fun ⟨i, hi, hv⟩ => ⟨i, ⟨?_, hi⟩, hv⟩⟩
    refine Decidable.byContradiction fun hlt => ?_
    rw [cell_of_size_le (Nat.le_of_not_lt hlt)] at hv
    cases hv
  have hnone : h.escapes frame vs = false ↔
      (∀ v ∈ vs, frame ∉ v.scopes) ∧ ∀ v ∈ h.valuesOutside frame, frame ∉ v.scopes := by
    simp [escapes]
  rw [hnone, and_comm]
  refine and_congr_left' ⟨fun hv i hi v hb => hv v ((hmem v).2 ⟨i, hi, hb⟩), fun hv v hb => ?_⟩
  obtain ⟨i, hi, hb⟩ := (hmem v).1 hb
  exact hv i hi v hb

theorem isReferred_eq_false_iff :
    h.isReferred frame vs = false ↔
      h.Forgotten frame vs ∧ (h.cell frame).leadsTo frame = false := by
  have hparts : h.isReferred frame vs = false ↔ ((frame ∉ h.held ∧ h.children frame = 0) ∧
      (h.cell frame).leadsTo frame = false) ∧ h.escapes frame vs = false := by
    simp [isReferred]
  rw [hparts, children_eq_zero_iff, escapes_eq_false_iff]
  constructor
  · rintro ⟨⟨⟨hheld, hparent⟩, hleads⟩, hbound, helsewhere⟩
    exact ⟨⟨hheld, hparent, hbound, helsewhere⟩, hleads⟩
  · rintro ⟨hf, hleads⟩
    exact ⟨⟨⟨hf.held, hf.parent⟩, hleads⟩, hf.bound, hf.elsewhere⟩

/-- A frame is unreachable if only its own functions keep it. -/
theorem unreachable_iff :
    h.unreachable frame vs (1 + h.held.count frame) = true ↔
      h.Forgotten frame vs ∧ (h.cell frame).leadsTo frame = true := by
  have hcount : 1 + h.held.count frame + h.children frame = 1 ↔
      frame ∉ h.held ∧ h.children frame = 0 := by
    rw [← Array.count_eq_zero]
    omega
  have hparts : h.unreachable frame vs (1 + h.held.count frame) = true ↔
      ((h.cell frame).leadsTo frame = true ∧ h.escapes frame vs = false) ∧
        1 + h.held.count frame + h.children frame = 1 := by
    simp [unreachable]
  rw [hparts, hcount, children_eq_zero_iff, escapes_eq_false_iff]
  constructor
  · rintro ⟨⟨hleads, hbound, helsewhere⟩, hheld, hparent⟩
    exact ⟨⟨hheld, hparent, hbound, helsewhere⟩, hleads⟩
  · rintro ⟨hf, hleads⟩
    exact ⟨⟨hleads, hf.bound, hf.elsewhere⟩, hf.held, hf.parent⟩

theorem drop_of_isReferred_eq_false (hr : h.isReferred frame vs = false) :
    h.drop frame vs = h.modifyCell frame Cell.free := by
  unfold drop
  rw [hr]
  rfl

/-- Giving up a handle frees the scope or changes nothing. -/
theorem drop_leaves (h : Heap) (frame : ScopeId) (vs : List Value) :
    h.Leaves frame vs (h.drop frame vs) := by
  cases hr : h.isReferred frame vs with
  | true =>
    unfold drop
    rw [hr]
    exact .kept
  | false =>
    rw [drop_of_isReferred_eq_false hr]
    exact .freed (isReferred_eq_false_iff.1 hr).1

theorem Forgotten.clear (hf : h.Forgotten frame vs) : (h.clear frame).Forgotten frame vs where
  held := hf.held
  parent i hi hp := by
    have hlive : h.Live i := by
      refine ⟨?_, ?_⟩
      · exact (h.size_modifyCell frame Cell.clear) ▸ hi.1
      · exact (h.freed_modifyCell frame i (f := Cell.clear) fun _ => rfl).symm.trans hi.2
    have hparent := h.parent?_modifyCell frame i (f := Cell.clear) fun _ => rfl
    exact hf.parent i hlive (hparent.symm.trans hp)
  bound i hi v hv := by
    unfold Heap.clear at hv
    rw [cell_modifyCell_of_ne _ _ (Ne.symm hi)] at hv
    exact hf.bound i hi v hv
  elsewhere := hf.elsewhere

theorem leadsTo_clear (h : Heap) (frame : ScopeId) :
    ((h.clear frame).cell frame).leadsTo frame = false := by
  unfold Heap.clear
  rw [cell_modifyCell]
  split
  · rfl
  · next hc =>
    rw [cell_of_size_le (Nat.le_of_not_lt fun hlt => hc ⟨rfl, hlt⟩)]
    rfl

theorem free_clear (h : Heap) (frame : ScopeId) :
    (h.clear frame).modifyCell frame Cell.free = h.modifyCell frame Cell.free := by
  have hcells : (h.cells.modify frame Cell.clear).modify frame Cell.free =
      h.cells.modify frame Cell.free := by
    ext i
    · simp
    · simp only [Array.getElem_modify]
      split <;> rfl
  exact congrArg (fun cells : Array Cell => { h with cells }) hcells

/-- A frame that is cleared is freed at once. -/
theorem release_leaves (h : Heap) (frame : ScopeId) (vs : List Value) :
    h.Leaves frame vs ((h.release frame vs (1 + h.held.count frame)).2.drop frame vs) := by
  unfold release
  cases hu : h.unreachable frame vs (1 + h.held.count frame) with
  | false => exact h.drop_leaves frame vs
  | true =>
    obtain ⟨hf, -⟩ := unreachable_iff.1 hu
    have hdrop : (h.clear frame).drop frame vs = h.modifyCell frame Cell.free :=
      (drop_of_isReferred_eq_false
        (isReferred_eq_false_iff.2 ⟨hf.clear, h.leadsTo_clear frame⟩)).trans (h.free_clear frame)
    show h.Leaves frame vs ((h.clear frame).drop frame vs)
    rw [hdrop]
    exact .freed hf

theorem GivesUp.leaves (hg : h.GivesUp frame vs h') : h.Leaves frame vs h' := by
  cases hg with
  | dropped => exact h.drop_leaves frame vs
  | released => exact h.release_leaves frame vs

/-! ## Calls -/

theorem ending_apply (after : List Value → Heap → Heap) (c : EvalIn Heap Value) (h : Heap) :
    ending after c h =
      match c h with
      | .ok v h => .ok v (after [v] h)
      | .error e h => .error e (after [] h) := rfl

/-- A call ends as its body does, and then its frame is given up. -/
theorem inFrame_ends (frame : ScopeId) (bindParams : EvalIn Heap Unit) (body : EvalIn Heap Value)
    (h : Heap) :
    (∃ v h₁ h₂, (do bindParams; body : EvalIn Heap Value) h = .ok v h₁ ∧
      HasScopes.inFrame frame bindParams body h = .ok v h₂ ∧ h₁.GivesUp frame [v] h₂) ∨
    ∃ e h₁ h₂, (do bindParams; body : EvalIn Heap Value) h = .error e h₁ ∧
      HasScopes.inFrame frame bindParams body h = .error e h₂ ∧ h₁.GivesUp frame [] h₂ := by
  let released (vs : List Value) (h : Heap) : Heap :=
    (h.release frame vs (1 + h.held.count frame)).2
  have hrun : HasScopes.inFrame frame bindParams body h =
      match bindParams h with
      | .ok _ h =>
        match body h with
        | .ok v h => .ok v ((released [v] h).drop frame [v])
        | .error e h => .error e ((released [] h).drop frame [])
      | .error e h => .error e (h.drop frame []) := by
    show ending (fun vs h => h.drop frame vs) (bindParams >>= fun _ => ending released body) h = _
    rw [ending_apply, Eval.bind_apply]
    cases bindParams h with
    | ok _ h =>
      dsimp only
      rw [ending_apply]
      cases body h <;> rfl
    | error e h => rfl
  rw [hrun, Eval.bind_apply]
  cases bindParams h with
  | error e h => exact .inr ⟨e, h, _, rfl, rfl, .dropped⟩
  | ok _ h =>
    dsimp only
    cases body h with
    | ok v h => exact .inl ⟨v, h, _, rfl, rfl, .released⟩
    | error e h => exact .inr ⟨e, h, _, rfl, rfl, .released⟩

theorem Leaves.links (hl : h.Leaves frame vs h') : h.Links h' := by
  cases hl with
  | kept => exact .refl h
  | freed hf => exact .of_modifyCell h frame fun _ => rfl

theorem Leaves.live (hl : h.Leaves frame vs h') {i : ScopeId} (hi : h.Live i) (hne : i ≠ frame) :
    h'.Live i := by
  cases hl with
  | kept => exact hi
  | freed hf =>
    refine ⟨(h.size_modifyCell frame Cell.free).symm ▸ hi.1, ?_⟩
    rw [h.cell_modifyCell_of_ne Cell.free (Ne.symm hne)]
    exact hi.2

/-- A frame that was made since is no scope of the heap before. -/
theorem Grows.leaves {h₀ : Heap} (hg : h₀.Grows h) (hframe : h₀.cells.size ≤ frame)
    (hl : h.Leaves frame vs h') : h₀.Grows h' :=
  ⟨hg.toLinks.trans hl.links, fun i hi =>
    hl.live (hg.live i hi) (Nat.ne_of_lt (Nat.lt_of_lt_of_le hi.1 hframe))⟩

end Leaving

end Heap

end ScopeScript
