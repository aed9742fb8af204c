import ScopeScript.Proofs.Run
import ScopeScript.Proofs.Store.Writes
import ScopeScript.Proofs.Session.Heaps

/-!
# Sessions agree with the ledger

`Describes l m` relates a ledger to a machine: they have the same scopes, handles and chains, and
what a scope binds is what it has entries for.  Every operation keeps this and answers what the
ledger answers.  `DescribesHeap l h` says the same of a heap, by way of a machine that it merges to;
there an entry is a value of the one collection with a mark of the other.  So all answers of a session
are known from the ledger alone (`answers_agree`).
-/

namespace ScopeScript.Session

open Ledger

def entryOf (b : Binding) : Value × Bool := (b.value, b.constant)

/-- What an embedding program can see of the machine `m` is in the ledger `l`. -/
structure Describes (l : Ledger) (m : Machine) : Prop where
  held : m.held.toList = l.held
  size : m.store.scopes.size = l.links.length
  chain : ∀ i < l.links.length, m.store.chain i = l.chain i
  entry : ∀ i name, ((m.store.scope i).find? name).map entryOf = l.entry i name
  linked : Linked l.links
  held_lt : ∀ i ∈ l.held, i < l.links.length

namespace Describes

variable {l : Ledger} {m : Machine} {i : ScopeId} {name : String}

theorem empty : Describes {} {} where
  held := rfl
  size := rfl
  chain _ hi := nomatch hi
  entry _ _ := rfl
  linked := trivial
  held_lt := nofun

/-! ## Reading -/

theorem scopeOf (h : Describes l m) (k : Nat) : m.held.getD k 0 = l.scopeOf k := by
  unfold Ledger.scopeOf
  rw [← h.held, Array.getD_eq_getD_getElem?, List.getD_eq_getElem?_getD, Array.getElem?_toList]

theorem scopeOf_lt (h : Describes l m) {k : Nat} (hk : k < l.held.length) :
    l.scopeOf k < l.links.length := by
  have hget : l.scopeOf k = l.held[k] := by
    unfold Ledger.scopeOf
    rw [List.getD_eq_getElem?_getD, List.getElem?_eq_getElem hk, Option.getD_some]
  exact hget ▸ h.held_lt _ (List.getElem_mem hk)

/-- Only scopes that were made have entries. -/
theorem lt_of_entry (h : Describes l m) {e : Value × Bool} (he : l.entry i name = some e) :
    i < l.links.length := by
  refine Decidable.byContradiction fun hi => ?_
  have hscope : m.store.scope i = {} :=
    m.store.scope_of_size_le (h.size ▸ Nat.le_of_not_lt hi)
  rw [← h.entry, hscope] at he
  cases he

theorem hasOwn (h : Describes l m) : m.store.hasOwn i name = (l.entry i name).isSome := by
  rw [← h.entry, Option.isSome_map, Bool.eq_iff_iff]
  exact Scope.binds_iff_find? _ _

theorem owner? (h : Describes l m) (hi : i < l.links.length) :
    m.store.owner? i name = l.owner? i name := by
  unfold Store.owner? Ledger.owner?
  rw [h.chain i hi]
  simp only [h.hasOwn]

theorem lookup (h : Describes l m) {k : Nat} (hk : k < l.held.length) :
    m.store.lookup (l.scopeOf k) name = l.lookup k name := by
  unfold Store.lookup Store.resolve? Ledger.lookup
  rw [h.owner? (h.scopeOf_lt hk)]
  cases l.owner? (l.scopeOf k) name with
  | none => rfl
  | some j =>
    simp only [Option.bind_some, ← h.entry]
    cases (m.store.scope j).find? name <;> rfl

theorem parent? (h : Describes l m) (hi : i < l.links.length) :
    m.store.parent? i = l.parent? i := by
  have hchain : i :: (m.store.scope i).ancestors = i :: (l.parent? i).elim [] l.chain :=
    (h.chain i hi).trans (chainIn_eq_cons h.linked hi)
  have hancestors := (List.cons.inj hchain).2
  unfold Store.parent?
  rw [hancestors]
  cases hp : l.parent? i with
  | none => rfl
  | some p =>
    have hchain : l.chain p = p :: _ := chainIn_eq_cons h.linked (parentIn_lt h.linked hp)
    rw [Option.elim_some, hchain, List.head?_cons]

/-! ## Writing -/

/-- A change of the bindings of one scope. -/
theorem modifyScope (h : Describes l m) (hi : i < l.links.length) (f : Scope → Scope)
    (entry : ScopeId → String → Option (Value × Bool)) (hf : ∀ a, (f a).ancestors = a.ancestors)
    (hself : ∀ name, ((f (m.store.scope i)).find? name).map entryOf = entry i name)
    (hother : ∀ j, j ≠ i → entry j = l.entry j) :
    Describes { l with entry } { m with store := m.store.modifyScope i f } where
  held := h.held
  size := (Store.size_modifyScope _ _ _).trans h.size
  chain j hj := by
    have hancestors : ((m.store.modifyScope i f).scope j).ancestors = (m.store.scope j).ancestors := by
      rw [Store.scope_modifyScope]
      split
      · exact hf _
      · rfl
    unfold Store.chain
    rw [hancestors]
    exact h.chain j hj
  entry j name := by
    by_cases hj : i = j
    · subst hj
      rw [Store.scope_modifyScope_self _ _ (h.size ▸ hi)]
      exact hself name
    · show _ = entry j name
      rw [Store.scope_modifyScope_of_ne _ _ hj, h.entry, hother j fun e => hj e.symm]
  linked := h.linked
  held_lt := h.held_lt

theorem bind (h : Describes l m) (hi : i < l.links.length) (b : Binding) :
    Describes (l.write i b.name (entryOf b)) { m with store := m.store.modifyScope i (·.bind b) } := by
  refine h.modifyScope hi (·.bind b) (l.write i b.name (entryOf b)).entry (fun _ => rfl)
    (fun name => ?_) fun j hj => ?_
  · by_cases hn : name = b.name
    · subst hn
      rw [Scope.find?_bind_self, entry_write_self]
      rfl
    · rw [Scope.find?_bind_of_ne _ _ (Ne.symm hn), entry_write_of_name_ne hn, h.entry]
  · exact funext fun _ => entry_write_of_ne hj

/-- A variable that has a value gets another one. -/
theorem replace (h : Describes l m) (hi : i < l.links.length) {v : Value}
    (he : l.entry i name = some (v, false)) (value : Value) :
    Describes (l.write i name (value, false))
      { m with store := m.store.modifyScope i (·.replace name value) } := by
  refine h.modifyScope hi (·.replace name value) (l.write i name (value, false)).entry
    (fun _ => rfl) (fun other => ?_) fun j hj => ?_
  · by_cases hn : other = name
    · subst hn
      have hfind := h.entry i other
      rw [he, Option.map_eq_some_iff] at hfind
      obtain ⟨b, hb, hbe⟩ := hfind
      have hmark : b.constant = false := congrArg Prod.snd hbe
      rw [Scope.find?_replace_self, hb, entry_write_self]
      simp [entryOf, hmark]
    · rw [Scope.find?_replace_of_ne _ _ hn, entry_write_of_name_ne hn, h.entry]
  · exact funext fun _ => entry_write_of_ne hj

theorem clear (h : Describes l m) (hi : i < l.links.length) :
    Describes (l.clear i) { m with store := m.store.clear i } := by
  refine h.modifyScope hi Scope.clear (l.clear i).entry (fun _ => rfl) (fun name => ?_)
    fun j hj => ?_
  · exact (if_pos rfl).symm
  · exact funext fun _ => if_neg hj

theorem hold (h : Describes l m) (hi : i < l.links.length) :
    ∃ handle, Session.hold i m = .ok handle { m with held := m.held.push i } ∧
      (l.hold i).1 = .handle (some handle) ∧
      Describes (l.hold i).2 { m with held := m.held.push i } := by
  refine ⟨⟨m.held.size, (m.held.findIdx? (· == i)).getD m.held.size⟩, rfl, ?_, ?_⟩
  · have hsize : m.held.size = l.held.length := by rw [← h.held, Array.length_toList]
    have hfirst : (m.held.findIdx? (· == i)).getD m.held.size = l.held.idxOf i := by
      rw [← Array.findIdx_eq_getD_findIdx?, ← h.held, List.idxOf, ← List.findIdx_toArray,
        Array.toArray_toList]
    rw [hfirst, hsize]
    rfl
  · refine { h with held := ?_, held_lt := ?_ }
    · rw [Array.toList_push, h.held]
      rfl
    · intro j hj
      rcases List.mem_append.1 hj with hj | hj
      · exact h.held_lt j hj
      · rwa [List.mem_singleton.1 hj]

/-- A new scope. -/
theorem push (h : Describes l m) {parent : Option ScopeId} (hparent : ∀ p ∈ parent, p < l.links.length)
    {scope : Scope} (hscope : scope.ancestors = parent.elim [] l.chain)
    {entries : String → Option (Value × Bool)}
    (hentries : ∀ name, (scope.find? name).map entryOf = entries name) :
    Describes
      { l with
        links := parent :: l.links
        entry := fun j n => if j = l.links.length then entries n else l.entry j n }
      { m with store := m.store.push scope } where
  held := h.held
  size := by rw [Store.size_push, h.size, List.length_cons]
  chain j hj := by
    by_cases hlast : j = l.links.length
    · have hchain : chainIn (parent :: l.links) j = j :: parent.elim [] (chainIn l.links) :=
        if_pos hlast
      show _ = chainIn (parent :: l.links) j
      rw [hchain, hlast, ← h.size]
      unfold Store.chain
      rw [Store.scope_push_self, hscope]
      rfl
    · have hj' : j < l.links.length := Nat.lt_of_le_of_ne (Nat.le_of_lt_succ hj) hlast
      show _ = chainIn (parent :: l.links) j
      rw [chainIn_cons_of_lt hj']
      unfold Store.chain
      rw [Store.scope_push_of_lt _ (h.size ▸ hj')]
      exact h.chain j hj'
  entry j name := by
    by_cases hlast : j = l.links.length
    · have hnew : (if j = l.links.length then entries name else l.entry j name) = entries name :=
        if_pos hlast
      show _ = if j = l.links.length then entries name else l.entry j name
      rw [hnew, hlast, ← h.size, Store.scope_push_self, hentries]
    · show _ = if j = l.links.length then entries name else l.entry j name
      rw [if_neg hlast, ← h.entry]
      by_cases hj : j < m.store.scopes.size
      · rw [Store.scope_push_of_lt _ hj]
      · have hle : m.store.scopes.size ≤ j := Nat.le_of_not_lt hj
        have hne : m.store.scopes.size ≠ j := h.size ▸ Ne.symm hlast
        have hle' : (m.store.push scope).scopes.size ≤ j := by
          rw [Store.size_push]
          exact Nat.lt_of_le_of_ne hle hne
        rw [Store.scope_of_size_le _ hle, Store.scope_of_size_le _ hle']
  linked := ⟨hparent, h.linked⟩
  held_lt j hj := Nat.lt_succ_of_lt (h.held_lt j hj)

end Describes

theorem find?_constantBindings (name : String) :
    ((⟨[], constantBindings⟩ : Scope).find? name).map entryOf = globalEntry name := by
  unfold globalEntry
  split
  · rfl
  · rfl
  · rfl
  · next htrue hfalse hnull =>
    have hne (b : Binding) (hb : b ∈ constantBindings) : ¬ (b.name == name) = true := by
      simp only [constantBindings, List.mem_cons, List.not_mem_nil, or_false] at hb
      rw [beq_iff_eq]
      rcases hb with rfl | rfl | rfl
      · exact fun e => hnull e.symm
      · exact fun e => hfalse e.symm
      · exact fun e => htrue e.symm
    have hfind : (⟨[], constantBindings⟩ : Scope).find? name = none := List.find?_eq_none.2 hne
    rw [hfind]
    rfl

/-! ## Operations -/

namespace Describes

variable {l : Ledger} {m : Machine} {k : Nat}

theorem parent_apply (k : Nat) (m : Machine) :
    Session.parent k m =
      match m.store.parent? (m.held.getD k 0) with
      | none => .ok none m
      | some i => (do return some (← Session.hold i) : Eval (Option Handle)) m := by
  show (match m.store.parent? (m.held.getD k 0) with
    | none => pure none
    | some i => do return some (← Session.hold i) : Eval (Option Handle)) m = _
  cases m.store.parent? (m.held.getD k 0) <;> rfl

theorem withIssued (h : Describes l m) (issued : Identity) :
    Describes l { m with store := { m.store with issued } } where
  held := h.held
  size := h.size
  chain := h.chain
  entry := h.entry
  linked := h.linked
  held_lt := h.held_lt

theorem make (h : Describes l m) (parent : Option ScopeId)
    (hparent : ∀ p ∈ parent, p < l.links.length) {scope : Scope}
    (hscope : scope.ancestors = parent.elim [] l.chain) {entries : String → Option (Value × Bool)}
    (hentries : ∀ name, (scope.find? name).map entryOf = entries name) :
    ∃ handle m', Session.hold m.store.scopes.size { m with store := m.store.push scope } =
        .ok handle m' ∧
      (l.make parent entries).1 = .handle (some handle) ∧
      Describes (l.make parent entries).2 m' ∧ m'.store.issued = m.store.issued := by
  have hpush := h.push hparent hscope hentries
  obtain ⟨handle, hrun, hanswer, hdescribes⟩ := hpush.hold (Nat.lt_succ_self l.links.length)
  rw [h.size]
  exact ⟨handle, _, hrun, hanswer, hdescribes, rfl⟩

theorem holdParent (h : Describes l m) (hk : k < l.held.length) :
    ∃ made m', Session.parent k m = .ok made m' ∧ (l.holdParent k).1 = .handle made ∧
      Describes (l.holdParent k).2 m' ∧ m'.store.issued = m.store.issued := by
  have hparent : m.store.parent? (m.held.getD k 0) = l.parent? (l.scopeOf k) := by
    rw [h.scopeOf, h.parent? (h.scopeOf_lt hk)]
  rw [parent_apply, hparent]
  unfold Ledger.holdParent
  cases hp : l.parent? (l.scopeOf k) with
  | none => exact ⟨none, m, rfl, rfl, h, rfl⟩
  | some p =>
    obtain ⟨handle, hhold, hanswer, hdescribes⟩ := h.hold (parentIn_lt h.linked hp)
    refine ⟨some handle, _, ?_, hanswer, hdescribes, rfl⟩
    dsimp only
    rw [Eval.bind_apply, hhold]
    rfl

theorem declare (h : Describes l m) (hk : k < l.held.length) (b : Binding) :
    ∃ result m', Eval.tryStore (·.declare (l.scopeOf k) b.name b.value b.constant) m =
        .ok result m' ∧
      (l.declare k b).1 = .done result ∧ Describes (l.declare k b).2 m' ∧
      m'.store.issued = m.store.issued := by
  rw [Eval.tryStore_apply]
  unfold Store.declare
  rw [h.hasOwn]
  rcases l.declare_eq k b with ⟨e, he, heq⟩ | ⟨he, heq⟩
  · rw [he, heq]
    exact ⟨_, m, rfl, rfl, h, rfl⟩
  · rw [he, heq]
    exact ⟨_, _, rfl, rfl, h.bind (h.scopeOf_lt hk) b, rfl⟩

theorem assign (h : Describes l m) (hk : k < l.held.length) (name : String) (value : Value) :
    ∃ result m', Eval.tryStore (·.assign (l.scopeOf k) name value) m = .ok result m' ∧
      (l.assign k name value).1 = .done result ∧ Describes (l.assign k name value).2 m' ∧
      m'.store.issued = m.store.issued := by
  have hmark (j : ScopeId) :
      ((m.store.scope j).find? name).any (·.constant) = (l.entry j name).any (·.2) := by
    rw [← h.entry]
    cases (m.store.scope j).find? name <;> rfl
  rw [Eval.tryStore_apply]
  unfold Store.assign
  rw [h.owner? (h.scopeOf_lt hk)]
  rcases l.assign_eq k name value with ⟨ho, heq⟩ | ⟨j, v, ho, he, heq⟩ | ⟨j, v, ho, he, heq⟩
  · rw [ho, heq]
    exact ⟨_, m, rfl, rfl, h, rfl⟩
  · simp only [ho, heq, hmark, he, Option.any_some]
    exact ⟨_, m, rfl, rfl, h, rfl⟩
  · have hj : j < l.links.length := h.lt_of_entry he
    simp only [ho, heq, hmark, he, Option.any_some]
    exact ⟨_, _, rfl, rfl, h.replace hj he value, rfl⟩

/-- What a computation gives becomes the answer. -/
theorem answers {α : Type} {c : Eval α} {f : α → Answer} {r : Answer × Ledger}
    (hc : ∃ a m', c m = .ok a m' ∧ r.1 = f a ∧ Describes r.2 m' ∧
      m'.store.issued = m.store.issued) :
    ∃ m', (do return f (← c) : Eval Answer) m = .ok r.1 m' ∧ Describes r.2 m' ∧
      m'.store.issued = m.store.issued := by
  obtain ⟨a, m', hrun, hanswer, hdescribes, hissued⟩ := hc
  refine ⟨m', ?_, hdescribes, hissued⟩
  rw [Eval.bind_apply, hrun, hanswer]
  rfl

/-- One operation: its answer is the ledger's. -/
theorem perform (h : Describes l m) {op : Op} (hop : ∀ k ∈ op.handle?, k < l.held.length) :
    ∃ m', op.perform m = .ok (l.step m.store.issued op).1 m' ∧
      Describes (l.step m.store.issued op).2 m' ∧
      m'.store.issued = m.store.issued + op.issues := by
  cases op with
  | new => exact answers (h.make none nofun rfl fun _ => rfl)
  | bareGlobal => exact answers (h.make none nofun rfl find?_constantBindings)
  | child k =>
    have hk := h.scopeOf_lt (hop k rfl)
    have hancestors : m.store.chain (m.held.getD k 0) = l.chain (l.scopeOf k) := by
      rw [h.scopeOf, h.chain _ hk]
    exact answers (h.make (some (l.scopeOf k)) (fun p hp => Option.some.inj hp ▸ hk) hancestors
      fun _ => rfl)
  | parent k => exact answers (h.holdParent (hop k rfl))
  | declare k name value constant =>
    have hdeclare := answers (h.declare (hop k rfl) ⟨name, value, constant⟩)
    rw [← h.scopeOf] at hdeclare
    exact hdeclare
  | assign k name value =>
    have hassign := answers (h.assign (hop k rfl) name value)
    rw [← h.scopeOf] at hassign
    exact hassign
  | defineNative k name key =>
    -- the identity is used up whether or not the declaration fails
    have hissued := h.withIssued (m.store.issued + 1)
    let native : Value := .native ⟨m.store.issued, name, .hosted key⟩
    have hdefine := answers (hissued.declare (hop k rfl) ⟨name, native, true⟩)
    rw [← h.scopeOf] at hdefine
    exact hdefine
  | clear k =>
    have hclear : Describes (l.clear (l.scopeOf k))
        { m with store := m.store.clear (m.held.getD k 0) } := by
      rw [h.scopeOf]
      exact h.clear (h.scopeOf_lt (hop k rfl))
    exact ⟨_, rfl, hclear, rfl⟩
  | lookup k name =>
    have hlookup : m.store.lookup (m.held.getD k 0) name = l.lookup k name := by
      rw [h.scopeOf, h.lookup (hop k rfl)]
    exact ⟨m, congrArg (fun r => EStateM.Result.ok (Answer.value r) m) hlookup, h, rfl⟩
  | hasOwn k name =>
    have howned : m.store.hasOwn (m.held.getD k 0) name = (l.entry (l.scopeOf k) name).isSome := by
      rw [h.scopeOf, h.hasOwn]
    exact ⟨m, congrArg (fun r => EStateM.Result.ok (Answer.owned r) m) howned, h, rfl⟩

end Describes

/-! ## Sessions -/

/-- Operations one after the other, on machines of any type whose steps are those of the ledger. -/
theorem performs {σ : Type} [HasScopes σ] (issued : σ → Identity) {D : Ledger → σ → Prop}
    (hD : ∀ {l s op}, D l s → (∀ k ∈ op.handle?, k < l.held.length) →
      ∃ s', op.perform s = .ok (l.step (issued s) op).1 s' ∧ D (l.step (issued s) op).2 s' ∧
        issued s' = issued s + op.issues)
    {ops : List Op} {l : Ledger} {s : σ} (h : D l s) (hops : l.Allows (issued s) ops) :
    ∃ s', ops.mapM Op.perform s = .ok (replay (issued s) ops l).1 s' ∧
      D (replay (issued s) ops l).2 s' := by
  induction ops generalizing l s with
  | nil => exact ⟨s, rfl, h⟩
  | cons op ops ih =>
    obtain ⟨hop, hrest⟩ := hops
    obtain ⟨t, hrun, hstep, hissued⟩ := hD h hop
    rw [← hissued] at hrest
    obtain ⟨s', hruns, hlast⟩ := ih hstep hrest
    rw [hissued] at hruns hlast
    refine ⟨s', ?_, hlast⟩
    rw [List.mapM_cons, Eval.bind_apply, hrun]
    dsimp only
    rw [Eval.bind_apply, hruns]
    rfl

/-- What an embedding program can see of the heap is in the ledger, as it is in that of a machine
that the heap merges to. -/
def DescribesHeap (l : Ledger) (h : Heap) : Prop := ∃ m, Merged h m ∧ Describes l m

namespace DescribesHeap

variable {l : Ledger} {h : Heap}

theorem empty : DescribesHeap {} {} := ⟨{}, .empty, .empty⟩

theorem linked (hd : DescribesHeap l h) : Linked l.links := by
  obtain ⟨m, -, hm⟩ := hd
  exact hm.linked

/-- The ledger's entries are the values of the one collection with the marks of the other. -/
theorem entry (hd : DescribesHeap l h) (i : ScopeId) (name : String) :
    l.entry i name =
      ((h.cell i).bindings.get? name).map fun v => (v, (h.cell i).constants.contains name) := by
  obtain ⟨m, hmerged, hm⟩ := hd
  rw [← hm.entry, (hmerged.merges.cells i trivial).find?, Option.map_map]
  rfl

/-- One operation: its answer is the ledger's, and a failure changes nothing that can be seen. -/
theorem perform (hd : DescribesHeap l h) {op : Op} (hop : ∀ k ∈ op.handle?, k < l.held.length) :
    ∃ h', op.perform h = .ok (l.step h.issued op).1 h' ∧
      DescribesHeap (l.step h.issued op).2 h' ∧ h'.issued = h.issued + op.issues ∧
      ∀ e, (l.step h.issued op).1.error? = some e → h' = { h with issued := h'.issued } := by
  obtain ⟨m, hmerged, hm⟩ := hd
  have hissued : m.store.issued = h.issued := hmerged.merges.issued
  obtain ⟨m', hrun, hafter, hissued'⟩ := hm.perform hop
  have hscopes : ∀ k ∈ op.handle?, h.held.getD k 0 < h.cells.size := by
    intro k hk
    rw [hmerged.held, hm.scopeOf, ← hmerged.merges.size, hm.size]
    exact hm.scopeOf_lt (hop k hk)
  have hagrees := perform_merged hmerged hscopes
  rw [hissued] at hrun hafter hissued'
  rw [hrun] at hagrees
  generalize op.perform h = r at hagrees ⊢
  cases hagrees with
  | intro _ hm' hfailed =>
    exact ⟨_, rfl, ⟨m', hm', hafter⟩, hm'.merges.issued.symm.trans hissued', hfailed⟩

end DescribesHeap

theorem allows_of_append {made : Identity} {before : List Op} {op : Op} {after : List Op}
    {l : Ledger} (h : l.Allows made (before ++ op :: after)) :
    l.Allows made before ∧ ∀ k ∈ op.handle?, k < (replay made before l).2.held.length := by
  induction before generalizing made l with
  | nil => exact ⟨trivial, h.1⟩
  | cons first before ih =>
    obtain ⟨hbefore, hop⟩ := ih h.2
    exact ⟨⟨h.1, hbefore⟩, hop⟩

theorem performs_heap {l : Ledger} {h : Heap} (hd : DescribesHeap l h) {ops : List Op}
    (hops : l.Allows h.issued ops) :
    ∃ h', ops.mapM Op.perform h = .ok (replay h.issued ops l).1 h' ∧
      DescribesHeap (replay h.issued ops l).2 h' :=
  performs Heap.issued
    (fun hd hop =>
      have ⟨h', hrun, hafter, hissued, _⟩ := hd.perform hop
      ⟨h', hrun, hafter, hissued⟩)
    hd hops

theorem performs_machine {l : Ledger} {m : Machine} (hd : Describes l m) {ops : List Op}
    (hops : l.Allows m.store.issued ops) :
    ∃ m', ops.mapM Op.perform m = .ok (replay m.store.issued ops l).1 m' ∧
      Describes (replay m.store.issued ops l).2 m' :=
  performs (fun m => m.store.issued)
    (fun hd hop => hd.perform hop) hd hops

/-- What a session answers is what the ledger answers, on a heap as on a machine.  Before each
operation the ledger stands for the two collections of every scope, and what the operation answers
and changes is lawful; in particular, after one that failed the same ledger answers all later
operations, as if it had not been made. -/
theorem answers_agree {ops : List Op} (h : Ledger.Allows 0 ops {}) :
    (∃ heap : Heap, ops.mapM Op.perform {} = .ok (replay 0 ops {}).1 heap) ∧
      (∃ m : Machine, ops.mapM Op.perform {} = .ok (replay 0 ops {}).1 m) ∧
      ∀ before op after, ops = before ++ op :: after →
        ∃ heap heap' : Heap, before.mapM Op.perform {} = .ok (replay 0 before {}).1 heap ∧
          let l := (replay 0 before {}).2
          let r := l.step heap.issued op
          (∀ i name, l.entry i name = ((heap.cell i).bindings.get? name).map fun v =>
            (v, (heap.cell i).constants.contains name)) ∧
          op.perform heap = .ok r.1 heap' ∧
          l.Lawful heap.issued op r.1 r.2 ∧
          (∀ i < l.links.length, l.chain i = i :: (l.parent? i).elim [] l.chain) ∧
          ∀ e, r.1.error? = some e →
            heap' = { heap with issued := heap'.issued } ∧
            ∀ n ∈ [heap, heap'], ∀ later, l.Allows n.issued later →
              ∃ last, later.mapM Op.perform n = .ok (replay n.issued later l).1 last := by
  refine ⟨?_, ?_, fun before op after hops => ?_⟩
  · obtain ⟨heap, hrun, -⟩ := performs_heap .empty h
    exact ⟨heap, hrun⟩
  · obtain ⟨m, hrun, -⟩ := performs_machine .empty h
    exact ⟨m, hrun⟩
  · subst hops
    obtain ⟨hbefore, hop⟩ := allows_of_append h
    obtain ⟨heap, hrun, hdescribes⟩ := performs_heap .empty hbefore
    obtain ⟨heap', hperform, hafter, -, hfailed⟩ := hdescribes.perform hop
    refine ⟨heap, heap', hrun, hdescribes.entry, hperform, step_lawful _ _ _,
      fun i hi => chainIn_eq_cons hdescribes.linked hi, fun e he => ⟨hfailed e he, ?_⟩⟩
    have hsame := (step_lawful _ _ _).failed e he
    rw [hsame] at hafter
    intro n hn later hlater
    have hn : DescribesHeap (replay 0 before {}).2 n := by
      rcases List.mem_cons.1 hn with rfl | hn
      · exact hdescribes
      · exact List.mem_singleton.1 hn ▸ hafter
    obtain ⟨last, hlast, -⟩ := performs_heap hn hlater
    exact ⟨last, hlast⟩

/-- A constant, reached by two handles, that is a variable after its scope was cleared: no mark of it
is left. -/
theorem answers_agree_cleared :
    let ops : List Op :=
      [.bareGlobal, .child 0, .parent 1, .declare 2 "x" .null true, .assign 1 "x" (.boolean true),
        .clear 0, .lookup 1 "x", .declare 0 "x" .null false, .assign 1 "x" (.boolean true),
        .lookup 2 "x"]
    Ledger.Allows 0 ops {} ∧
      ∃ heap : Heap, ops.mapM Op.perform {} =
        .ok [.handle (some ⟨0, 0⟩), .handle (some ⟨1, 1⟩), .handle (some ⟨2, 0⟩), .done (.ok ()),
          .done (.error .constantAssignment), .done (.ok ()), .value (.error .undeclared),
          .done (.ok ()), .done (.ok ()), .value (.ok (.boolean true))] heap := by
  intro ops
  have hops : Ledger.Allows 0 ops {} := by decide
  obtain ⟨heap, hheap⟩ := (answers_agree hops).1
  exact ⟨hops, heap, hheap⟩

end ScopeScript.Session
