import ScopeScript.Proofs.Heap.Merged
import ScopeScript.Proofs.Session.Ledger

/-!
# Sessions on heaps

An operation of a session does the same on a heap as on a machine that the heap merges to, and the
heap merges again (`perform_merged`).  One that fails leaves the heap as it is, but for identities
that it used up.
-/

namespace ScopeScript.Session

/-- The machine has the bindings of the heap, with the marks beside the values, and its handles. -/
structure Merged (h : Heap) (m : Machine) : Prop where
  merges : h.Merges (fun _ => True) m.store
  held : h.held = m.held

theorem Merged.empty : Merged {} {} := ⟨.empty _, rfl⟩

/-- An operation on both: it gives the same answer, and a failure is the only thing that happens. -/
inductive Agrees (h : Heap) :
    EStateM.Result Halt Heap Answer → EStateM.Result Halt Machine Answer → Prop
  | intro (a : Answer) {h' : Heap} {m' : Machine} (hm : Merged h' m')
      (hfailed : ∀ e, a.error? = some e → h' = { h with issued := h'.issued }) :
      Agrees h (.ok a h') (.ok a m')

theorem Agrees.of_issued {h : Heap} {issued : Identity} {r : EStateM.Result Halt Heap Answer}
    {r' : EStateM.Result Halt Machine Answer} (ha : Agrees { h with issued } r r') :
    Agrees h r r' := by
  cases ha with
  | intro a hm hfailed => exact .intro a hm hfailed

section Operations

variable {h : Heap} {m : Machine}

/-- A new handle for a scope. -/
theorem Merged.hold (hm : Merged h m) (i : ScopeId) :
    ∃ handle, Session.hold i h = .ok handle { h with held := h.held.push i } ∧
      Session.hold i m = .ok handle { m with held := m.held.push i } ∧
      Merged { h with held := h.held.push i } { m with held := m.held.push i } := by
  refine ⟨⟨h.held.size, (h.held.findIdx? (· == i)).getD h.held.size⟩, rfl, ?_, ?_⟩
  · rw [hm.held]
    rfl
  · have hmerges : Heap.Merges (fun _ => True) { h with held := h.held.push i } m.store :=
      ⟨hm.merges.size, hm.merges.issued, hm.merges.cells, hm.merges.ancestors, hm.merges.parent⟩
    exact ⟨hmerges, congrArg (·.push i) hm.held⟩

/-- A new scope, and a handle for it. -/
theorem Merged.make (hm : Merged h m) {h' : Heap} {s : Store}
    (hmerges : h'.Merges (fun _ => True) s) (hheld : h'.held = h.held) :
    Agrees h
      ((do return .handle (← Session.hold h.cells.size) : EvalIn Heap Answer) h')
      ((do return .handle (← Session.hold m.store.scopes.size) : Eval Answer)
        { m with store := s }) := by
  have hnew : Merged h' { m with store := s } := ⟨hmerges, hheld.trans hm.held⟩
  obtain ⟨handle, hheap, hmachine, hafter⟩ := hnew.hold h.cells.size
  rw [hm.merges.size, Eval.bind_apply, Eval.bind_apply, hheap, hmachine]
  exact .intro _ hafter nofun

/-- A change of the bindings of a scope, or its failure. -/
theorem Merged.done (hm : Merged h m) {f : Heap → Except ScopeError Heap}
    {g : Store → Except ScopeError Store}
    (hfg : SameExcept (Heap.Merges fun _ => True) (f h) (g m.store))
    (hheld : ∀ h', f h = .ok h' → h'.held = h.held) :
    Agrees h ((do return .done (← Heap.tryHeap f) : EvalIn Heap Answer) h)
      ((do return .done (← Eval.tryStore g) : Eval Answer) m) := by
  rw [Eval.bind_apply, Eval.bind_apply, Heap.tryHeap_apply, Eval.tryStore_apply]
  generalize f h = x at hfg hheld ⊢
  generalize g m.store = y at hfg ⊢
  cases hfg with
  | ok hmerges => exact .intro _ ⟨hmerges, (hheld _ rfl).trans hm.held⟩ nofun
  | error e => exact .intro _ hm fun _ _ => rfl

theorem Merged.declare (hm : Merged h m) (i : ScopeId) (name : String) (value : Value)
    (constant : Bool) :
    Agrees h
      ((do return .done (← HasScopes.declare i name value constant) : EvalIn Heap Answer) h)
      ((do return .done (← HasScopes.declare i name value constant) : Eval Answer) m) := by
  refine hm.done (g := (·.declare i name value constant))
    (hm.merges.declare trivial name value constant) fun h' hh => ?_
  obtain ⟨-, rfl⟩ := Heap.declare_eq_ok_iff.1 hh
  rfl

theorem Merged.assign (hm : Merged h m) (i : ScopeId) (name : String) (value : Value) :
    Agrees h ((do return .done (← HasScopes.assign i name value) : EvalIn Heap Answer) h)
      ((do return .done (← HasScopes.assign i name value) : Eval Answer) m) := by
  refine hm.done (g := (·.assign i name value)) (hm.merges.assign trivial name value)
    fun h' hh => ?_
  obtain ⟨j, -, -, rfl⟩ := Heap.assign_eq_ok hh
  rfl

theorem Merged.holdParent (hm : Merged h m) (i : ScopeId) :
    Agrees h
      ((do return .handle (← (match h.parent? i with
        | none => pure none
        | some p => do return some (← Session.hold p) : EvalIn Heap (Option Handle))) :
          EvalIn Heap Answer) h)
      ((do return .handle (← (match m.store.parent? i with
        | none => pure none
        | some p => do return some (← Session.hold p) : Eval (Option Handle))) : Eval Answer) m) := by
  rw [hm.merges.parent?_eq trivial]
  cases h.parent? i with
  | none => exact .intro _ hm fun _ _ => rfl
  | some p =>
    obtain ⟨handle, hheap, hmachine, hafter⟩ := hm.hold p
    simp only [Eval.bind_apply, hheap, hmachine]
    exact .intro _ hafter nofun

/-- One operation on the heap is the same on the machine. -/
theorem perform_merged (hm : Merged h m) {op : Op}
    (hop : ∀ k ∈ op.handle?, h.held.getD k 0 < h.cells.size) :
    Agrees h (op.perform h) (op.perform m) := by
  -- the same handle stands for the same scope
  obtain ⟨store, output, held⟩ := m
  obtain rfl : h.held = held := hm.held
  have hmerges : h.Merges (fun _ => True) store := hm.merges
  cases op with
  | new => exact hm.make (hmerges.push (.empty [] none) nofun rfl) rfl
  | bareGlobal => exact hm.make hmerges.pushBareGlobal rfl
  | child k =>
    have hparent : ∀ p, some (h.held.getD k 0) = some p → True ∧ p < h.cells.size := by
      rintro p ⟨⟩
      exact ⟨trivial, hop k rfl⟩
    exact hm.make (hmerges.push (.empty (store.chain (h.held.getD k 0)) _) hparent rfl) rfl
  | parent k => exact hm.holdParent (h.held.getD k 0)
  | declare k name value constant => exact hm.declare (h.held.getD k 0) name value constant
  | assign k name value => exact hm.assign (h.held.getD k 0) name value
  | defineNative k name key =>
    -- the identity is used up whether or not the declaration fails
    obtain ⟨scopes, issued⟩ := store
    obtain rfl : issued = h.issued := hmerges.issued
    let next : Heap := { h with issued := h.issued + 1 }
    have hnext : Merged next ⟨⟨scopes, h.issued + 1⟩, output, h.held⟩ := ⟨hmerges.issue, rfl⟩
    exact (hnext.declare (h.held.getD k 0) name (.native ⟨h.issued, name, .hosted key⟩)
      true).of_issued
  | clear k => exact .intro (.done (.ok ())) ⟨hmerges.clear (h.held.getD k 0), rfl⟩ nofun
  | lookup k name =>
    have hlookup : store.lookup (h.held.getD k 0) name = h.lookup (h.held.getD k 0) name :=
      (hmerges.lookup_eq trivial name).symm
    show Agrees h (.ok (.value (h.lookup (h.held.getD k 0) name)) h)
      (.ok (.value (store.lookup (h.held.getD k 0) name)) _)
    rw [hlookup]
    exact .intro _ hm fun _ _ => rfl
  | hasOwn k name =>
    show Agrees h (.ok (.owned (h.hasOwn (h.held.getD k 0) name)) h)
      (.ok (.owned (store.hasOwn (h.held.getD k 0) name)) _)
    rw [hmerges.hasOwn trivial]
    exact .intro _ hm fun _ _ => rfl

end Operations

end ScopeScript.Session
