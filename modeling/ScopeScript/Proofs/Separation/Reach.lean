import ScopeScript.Proofs.Separation.Evaluation
import ScopeScript.Script

/-!
# What an evaluation can reach

A scope leads to the scopes around it and to those that its values lead to; a function leads to the
scope it was declared in, an object to what its properties lead to.  `s.Reach X i` says that the
scopes `X` lead to `i`.

A store is sound if everything that it leads to exists and no function of the embedding program is
in it.  In a sound store an evaluation that starts from the scopes `X` changes no others but new
ones, and what can be reached after it could be reached before or is new (`StaysWithin`).  Both come
from running the evaluation in step with itself, with the scopes that `X` leads to paired with
themselves.
-/

namespace ScopeScript

/-! ## Values -/

namespace Value

mutual

/-- The identities in a value are below `issued`, and its native functions are `print` and
`type_of`. -/
def Known (issued : Identity) : Value → Prop
  | null => True
  | number _ => True
  | boolean _ => True
  | string _ => True
  | object ⟨es⟩ => EntriesKnown issued es
  | function f => f.identity < issued
  | native n => n.identity < issued ∧ ∀ key, n.op ≠ .hosted key

def EntriesKnown (issued : Identity) : List (String × Value) → Prop
  | [] => True
  | (_, v) :: es => v.Known issued ∧ EntriesKnown issued es

end

/-- Everything that a value leads to is in the store. -/
structure Sound (s : Store) (v : Value) : Prop where
  scopes : ∀ i ∈ v.scopes, i < s.scopes.size
  known : v.Known s.issued

end Value

/-! ## Reach -/

namespace Store

inductive Reach (s : Store) (X : ScopeId → Prop) : ScopeId → Prop
  | start {i : ScopeId} (h : X i) : Reach s X i
  | ancestor {i j : ScopeId} (h : Reach s X i) (hj : j ∈ (s.scope i).ancestors) : Reach s X j
  | value {i j : ScopeId} {name : String} {b : Binding} (h : Reach s X i)
      (hb : (s.scope i).find? name = some b) (hj : j ∈ b.value.scopes) : Reach s X j

/-- Everything that a scope leads to is in the store. -/
structure Sound (s : Store) : Prop where
  ancestors : ∀ i, ∀ j ∈ (s.scope i).ancestors, j < s.scopes.size
  values : ∀ i name b, (s.scope i).find? name = some b → b.value.Sound s

theorem Sound.lt_of_reach {s : Store} (h : s.Sound) {X : ScopeId → Prop}
    (hX : ∀ i, X i → i < s.scopes.size) {i : ScopeId} (hi : s.Reach X i) : i < s.scopes.size := by
  cases hi with
  | start h => exact hX i h
  | ancestor _ hj => exact h.ancestors _ i hj
  | value _ hb hj => exact (h.values _ _ _ hb).scopes i hj

end Store

/-! ## A run in step with itself -/

/-- The scopes `P` and all functions are paired with themselves. -/
def Renaming.only (P : ScopeId → Prop) (issued : Identity) : Renaming where
  scope i j := i = j ∧ P i
  identity i j := i = j ∧ i < issued

/-- Everything in a store is paired with itself. -/
abbrev Store.all (s : Store) : Renaming := .only (· < s.scopes.size) s.issued

namespace Value

variable {w : Renaming} {P : ScopeId → Prop} {issued : Identity}

mutual

theorem renamed_self {v : Value} (hk : v.Known issued) (hP : ∀ i ∈ v.scopes, P i) :
    v.Renamed (.only P issued) v := by
  match v with
  | .null => exact .null
  | .number x => exact .number x
  | .boolean b => exact .boolean b
  | .string s => exact .string s
  | .object ⟨es⟩ => exact .object (entriesRenamed_self hk hP)
  | .function f =>
    exact .function ⟨⟨rfl, hk⟩, rfl, rfl, rfl, ⟨rfl, hP f.scope (List.mem_singleton_self _)⟩⟩
  | .native n => exact .native ⟨⟨rfl, hk.1⟩, rfl, rfl, hk.2⟩

theorem entriesRenamed_self {es : List (String × Value)} (hk : EntriesKnown issued es)
    (hP : ∀ i ∈ entriesScopes es, P i) : EntriesRenamed (.only P issued) es es := by
  match es with
  | [] => exact .nil
  | (k, v) :: es =>
    have hv : ∀ i ∈ v.scopes, P i := fun i hi => hP i (List.mem_append_left _ hi)
    have hes : ∀ i ∈ entriesScopes es, P i := fun i hi => hP i (List.mem_append_right _ hi)
    exact .cons (renamed_self hk.1 hv) (entriesRenamed_self hk.2 hes)

end

mutual

/-- What a value leads to is paired. -/
theorem Renamed.paired {v v' : Value} (h : v.Renamed w v') :
    ∀ i ∈ v.scopes, ∃ j, w.scope i j := by
  match h with
  | .null | .number _ | .boolean _ | .string _ | .native _ => exact fun i => nofun
  | .object hes => exact hes.paired
  | @Renamed.function _ f g h =>
    intro i hi
    obtain rfl := List.mem_singleton.1 hi
    exact ⟨g.scope, h.scope⟩

theorem EntriesRenamed.paired {es es' : List (String × Value)} (h : EntriesRenamed w es es') :
    ∀ i ∈ entriesScopes es, ∃ j, w.scope i j := by
  match h with
  | .nil => exact fun i => nofun
  | .cons hv hes =>
    intro i hi
    rcases List.mem_append.1 hi with hi | hi
    · exact hv.paired i hi
    · exact hes.paired i hi

end

mutual

theorem Renamed.known {v v' : Value} (h : v.Renamed w v')
    (hw : ∀ i j, w.identity i j → i < issued) : v.Known issued := by
  match h with
  | .null | .number _ | .boolean _ | .string _ => trivial
  | .object hes => exact hes.known hw
  | .function h => exact hw _ _ h.identity
  | .native h => exact ⟨hw _ _ h.identity, h.standard⟩

theorem EntriesRenamed.known {es es' : List (String × Value)} (h : EntriesRenamed w es es')
    (hw : ∀ i j, w.identity i j → i < issued) : EntriesKnown issued es := by
  match h with
  | .nil => trivial
  | .cons hv hes => exact ⟨hv.known hw, hes.known hw⟩

end

theorem Sound.renamed_all {v : Value} {s : Store} (h : v.Sound s) : v.Renamed s.all v :=
  renamed_self h.known h.scopes

theorem Sound.mono {v : Value} {s t : Store} (h : v.Sound s)
    (hsize : s.scopes.size ≤ t.scopes.size) (hissued : s.issued ≤ t.issued) : v.Sound t where
  scopes i hi := Nat.lt_of_lt_of_le (h.scopes i hi) hsize
  known := h.renamed_all.known fun _ _ hij => Nat.lt_of_lt_of_le hij.2 hissued

theorem Renamed.sound {v v' : Value} {s s' : Store} (hs : s.Renamed w s') (h : v.Renamed w v') :
    v.Sound s where
  scopes i hi := by
    obtain ⟨j, hij⟩ := h.paired i hi
    exact (hs.lt_size i j (.inl hij)).1
  known := h.known fun i j hij => (hs.issued i j hij).1

end Value

namespace Store

variable {s t t' : Store} {w : Renaming} {inside : Prop} {X P : ScopeId → Prop}

/-- A part of a store that leads nowhere else is paired with itself. -/
theorem Sound.renamed_self (h : s.Sound) (hlt : ∀ i, P i → i < s.scopes.size)
    (hancestor : ∀ i, P i → ∀ j ∈ (s.scope i).ancestors, P j)
    (hvalue : ∀ i, P i → ∀ name b, (s.scope i).find? name = some b → ∀ j ∈ b.value.scopes, P j) :
    s.Renamed (.only P s.issued) s where
  unique := ⟨fun _ _ _ hi hj => hi.1.trans hj.1.symm, fun _ _ _ hi hj => hi.1.symm.trans hj.1⟩
  identities := ⟨fun _ _ _ hi hj => hi.1.trans hj.1.symm, fun _ _ _ hi hj => hi.1.symm.trans hj.1⟩
  hidden _ _ hi := by cases hi
  lt_size := by
    rintro i _ (⟨rfl, hi⟩ | ⟨-, hi⟩)
    · exact ⟨hlt i hi, hlt i hi⟩
    · cases hi
  scopes := by
    rintro i _ (⟨rfl, hi⟩ | ⟨-, hi⟩)
    · constructor
      · exact List.forall₂_same.2 fun j hj => ⟨rfl, hancestor i hi j hj⟩
      · intro name
        have hnamed := hvalue i hi name
        have hsound := h.values i name
        generalize (s.scope i).find? name = x at hnamed hsound ⊢
        cases x with
        | none => exact .none
        | some b => exact .some ⟨Value.renamed_self (hsound b rfl).known (hnamed b rfl), rfl⟩
    · cases hi
  issued := by
    rintro i _ ⟨rfl, hi⟩
    exact ⟨hi, hi⟩

theorem Sound.renamed_reach (h : s.Sound) (hX : ∀ i, X i → i < s.scopes.size) :
    s.Renamed (.only (s.Reach X) s.issued) s :=
  h.renamed_self (fun _ hi => h.lt_of_reach hX hi) (fun _ hi _ hj => .ancestor hi hj)
    fun _ hi _ _ hb _ hj => .value hi hb hj

theorem Sound.renamed_all (h : s.Sound) : s.Renamed s.all s :=
  h.renamed_self (fun _ hi => hi) (fun i _ => h.ancestors i)
    fun i _ name b hb => (h.values i name b hb).scopes

/-- What is paired leads to what is paired. -/
theorem Renamed.paired_of_reach (h : t.Renamed w t') (hX : ∀ i, X i → ∃ j, w.scope i j)
    {i : ScopeId} (hi : t.Reach X i) : ∃ j, w.scope i j := by
  induction hi with
  | start h => exact hX _ h
  | @ancestor i j _ hj ih =>
    obtain ⟨i', hi'⟩ := ih
    have hancestors := (h.scopes i i' (.inl hi')).ancestors
    obtain ⟨n, hn, rfl⟩ := List.getElem_of_mem hj
    exact ⟨_, hancestors.get hn (hancestors.length_eq ▸ hn)⟩
  | @value i j name b _ hb hj ih =>
    obtain ⟨i', hi'⟩ := ih
    have hname := (h.scopes i i' (.inl hi')).bindings name
    rw [hb] at hname
    generalize (t'.scope i').find? name = x at hname
    cases hname with
    | some hbb => exact hbb.value.paired j hj

/-- A step from a sound store with all scopes paired goes to a sound store. -/
theorem Sound.of_moves (h : Moves s.all inside s s w t t') : t.Sound := by
  have hpaired (i : ScopeId) (hi : i < t.scopes.size) : ∃ j, w.scope i j := by
    by_cases hs : i < s.scopes.size
    · exact ⟨i, h.le.1 i i ⟨rfl, hs⟩⟩
    · exact h.covered i (Nat.not_lt.1 hs) hi
  constructor
  · intro i j hj
    by_cases hi : i < t.scopes.size
    · obtain ⟨j', hj'⟩ := h.renamed.paired_of_reach (X := (· = i)) (by rintro _ rfl; exact hpaired _ hi)
        (.ancestor (.start rfl) hj)
      exact (h.renamed.lt_size j j' (.inl hj')).1
    · rw [t.scope_of_size_le (Nat.not_lt.1 hi)] at hj
      cases hj
  · intro i name b hb
    by_cases hi : i < t.scopes.size
    · obtain ⟨i', hi'⟩ := hpaired i hi
      have hname := (h.renamed.scopes i i' (.inl hi')).bindings name
      rw [hb] at hname
      generalize (t'.scope i').find? name = x at hname
      cases hname with
      | some hbb => exact hbb.value.sound h.renamed
    · rw [t.scope_of_size_le (Nat.not_lt.1 hi)] at hb
      cases hb

/-- The store `s` became `t`, and only the scopes `X` could be used; `Y` can be used now. -/
structure StaysWithin (s : Store) (X Y : ScopeId → Prop) (t : Store) : Prop where
  size_le : s.scopes.size ≤ t.scopes.size
  kept : ∀ i, i < s.scopes.size → ¬ s.Reach X i → t.scope i = s.scope i
  reach : ∀ i, t.Reach Y i → s.Reach X i ∨ s.scopes.size ≤ i

theorem StaysWithin.of_moves {Y : ScopeId → Prop}
    (h : Moves (.only (s.Reach X) s.issued) False s s w t t) (hY : ∀ i, Y i → ∃ j, w.scope i j) :
    s.StaysWithin X Y t where
  size_le := h.left.size_le
  kept i hi hX := by
    refine h.left.scopes i hi ?_
    rintro ⟨_, ⟨-, hi⟩ | ⟨hin, -⟩⟩
    · exact hX hi
    · exact hin
  reach i hi := by
    obtain ⟨j, hij⟩ := h.renamed.paired_of_reach hY hi
    exact (h.fresh i j hij).imp (·.2) (·.1)

end Store

/-! ## Evaluations -/

namespace Eval

/-- The result leads to the scope. -/
def LeadsTo (r : EStateM.Result Halt Machine Value) (i : ScopeId) : Prop :=
  ∃ v m, r = .ok v m ∧ i ∈ v.scopes

/-- How an evaluation ends in the store `s` if it has only the scopes `X` to start from. -/
structure EndsWithin (s : Store) (X : ScopeId → Prop) (r : EStateM.Result Halt Machine Value) :
    Prop where
  scopes : s.StaysWithin X (fun i => X i ∨ LeadsTo r i) (machineAfter r).store
  sound : (machineAfter r).store.Sound
  sound_value : ∀ v m, r = .ok v m → v.Sound m.store

/-- What stays in step with itself, whatever is paired besides `X`. -/
theorem EndsWithin.of_mirrors {c : Eval Value} {m : Machine} (hs : m.store.Sound)
    {X : ScopeId → Prop} (hX : ∀ i, X i → i < m.store.scopes.size)
    (h : ∀ P : ScopeId → Prop, (∀ i, X i → P i) →
      m.store.Renamed (.only P m.store.issued) m.store →
      Mirrors (.only P m.store.issued) False Value.Renamed c c m m) :
    EndsWithin m.store X (c m) := by
  have hreach := h _ (fun _ => .start) (hs.renamed_reach hX)
  have hall := h _ hX hs.renamed_all
  unfold Mirrors at hreach hall
  cases hc : c m with
  | ok v n =>
    rw [hc] at hreach hall
    obtain ⟨w, hmoves, hv⟩ := hreach
    obtain ⟨w', hmoves', hv'⟩ := hall
    refine ⟨.of_moves hmoves.stores ?_, .of_moves hmoves'.stores, ?_⟩
    · rintro i (hi | ⟨_, _, heq, hi⟩)
      · exact ⟨i, hmoves.stores.le.1 i i ⟨rfl, .start hi⟩⟩
      · cases heq
        exact hv.paired i hi
    · rintro _ _ heq
      cases heq
      exact hv'.sound hmoves'.stores.renamed
  | error e n =>
    rw [hc] at hreach hall
    obtain ⟨-, w, hmoves⟩ := hreach
    obtain ⟨-, w', hmoves'⟩ := hall
    refine ⟨.of_moves hmoves.stores ?_, .of_moves hmoves'.stores, ?_⟩
    · rintro i (hi | ⟨_, _, heq, -⟩)
      · exact ⟨i, hmoves.stores.le.1 i i ⟨rfl, .start hi⟩⟩
      · cases heq
    · rintro _ _ heq
      cases heq

section Evaluations

variable {host : Host} {n : Nat} {opts : Options} {m : Machine}

theorem expr_endsWithin (hs : m.store.Sound) {env : ScopeId} (henv : env < m.store.scopes.size)
    (e : Expr) : EndsWithin m.store (· = env) (expr (callsWithin host n) opts env e m) := by
  refine .of_mirrors hs (by rintro _ rfl; exact henv) fun P hP hw => ?_
  have hrun : Running none False env env (.only P m.store.issued) m m :=
    ⟨rfl, .inl ⟨rfl, hP env rfl⟩, hw⟩
  exact expr_mirrors (callsWithin_mirror none host n) hrun e

theorem stmts_endsWithin (hs : m.store.Sound) {env : ScopeId} (henv : env < m.store.scopes.size)
    (ss : List Stmt) :
    EndsWithin m.store (· = env) (stmts (callsWithin host n) opts env .null ss m) := by
  refine .of_mirrors hs (by rintro _ rfl; exact henv) fun P hP hw => ?_
  have hrun : Running none False env env (.only P m.store.issued) m m :=
    ⟨rfl, .inl ⟨rfl, hP env rfl⟩, hw⟩
  exact stmts_mirrors (callsWithin_mirror none host n) hrun (fun _ _ _ => ⟨rfl, hP env rfl⟩) .null

/-- The scopes that a call has to start from. -/
def CallReach (f : Closure) (arguments : List Value) (i : ScopeId) : Prop :=
  i = f.scope ∨ ∃ v ∈ arguments, i ∈ v.scopes

theorem function_endsWithin (hs : m.store.Sound) {f : Closure}
    (hf : (Value.function f).Sound m.store) {arguments : List Value}
    (ha : ∀ v ∈ arguments, v.Sound m.store) (line : Nat) :
    EndsWithin m.store (CallReach f arguments)
      ((callsWithin host n).function opts f arguments line m) := by
  have hX : ∀ i, CallReach f arguments i → i < m.store.scopes.size := by
    rintro i (rfl | ⟨v, hv, hi⟩)
    · exact hf.scopes _ (List.mem_singleton_self _)
    · exact (ha v hv).scopes i hi
  refine .of_mirrors hs hX fun P hP hw => ?_
  have hfunction : f.Renamed (.only P m.store.issued) f :=
    ⟨⟨rfl, hf.known⟩, rfl, rfl, rfl, ⟨rfl, hP _ (.inl rfl)⟩⟩
  refine (callsWithin_mirror none host n).function opts f f arguments arguments line _ m m rfl hw
    hfunction (List.forall₂_same.2 fun v hv => ?_)
  exact Value.renamed_self (ha v hv).known fun i hi => hP i (.inr ⟨v, hv, hi⟩)

end Evaluations

end Eval

/-! ## Reachable stores -/

/-- The stores that an embedding program comes to that defines no functions of its own.  The values
that it declares and assigns are made of those that it was given. -/
inductive Store.Reachable : Store → Prop
  | empty : Reachable {}
  | root {s : Store} (h : Reachable s) : Reachable s.pushRoot
  | bareGlobal {s : Store} (h : Reachable s) : Reachable s.pushBareGlobal
  | global {s : Store} (h : Reachable s) : Reachable s.pushGlobal
  | child {s : Store} {p : ScopeId} (h : Reachable s) (hp : p < s.scopes.size) :
      Reachable (s.pushChild p)
  | declare {s t : Store} {i : ScopeId} {name : String} {v : Value} {constant : Bool}
      (h : Reachable s) (hi : i < s.scopes.size) (hv : v.Sound s)
      (ht : s.declare i name v constant = .ok t) : Reachable t
  | assign {s t : Store} {i : ScopeId} {name : String} {v : Value} (h : Reachable s)
      (hi : i < s.scopes.size) (hv : v.Sound s) (ht : s.assign i name v = .ok t) : Reachable t
  | clear {s : Store} {i : ScopeId} (h : Reachable s) (hi : i < s.scopes.size) :
      Reachable (s.clear i)
  | run {m : Machine} {setting : Setting} {program : Program} {scope : ScopeId}
      (h : Reachable m.store) (hscope : scope < m.store.scopes.size) :
      Reachable (Eval.machineAfter (program.run setting scope m)).store
  | call {m : Machine} {setting : Setting} {f : Closure} {arguments : List Value} {line : Nat}
      (h : Reachable m.store) (hf : (Value.function f).Sound m.store)
      (ha : ∀ v ∈ arguments, v.Sound m.store) :
      Reachable (Eval.machineAfter
        (setting.calls.function setting.options f arguments line m)).store

namespace Store

variable {s t : Store}

/-- A new scope, which may bring new functions with it. -/
theorem Sound.push (h : s.Sound) {a : Scope} {issued : Identity} (hissued : s.issued ≤ issued)
    (hancestors : ∀ j ∈ a.ancestors, j < s.scopes.size)
    (hvalues : ∀ b ∈ a.bindings, b.value.scopes = [] ∧ b.value.Known issued) :
    ({ s.push a with issued } : Store).Sound := by
  have hle : s.scopes.size ≤ (s.push a).scopes.size := by
    rw [size_push]
    exact Nat.le_succ _
  have hscope (i : ScopeId) : (s.push a).scope i = s.scope i ∨ (s.push a).scope i = a := by
    rcases Nat.lt_trichotomy i s.scopes.size with hi | rfl | hi
    · exact .inl (scope_push_of_lt s hi)
    · exact .inr (scope_push_self s a)
    · rw [s.scope_of_size_le (Nat.le_of_lt hi)]
      refine .inl (scope_of_size_le _ ?_)
      rw [size_push]
      exact hi
  constructor
  · intro i j hj
    have hj' : j ∈ ((s.push a).scope i).ancestors := hj
    rcases hscope i with he | he
    · rw [he] at hj'
      exact Nat.lt_of_lt_of_le (h.ancestors i j hj') hle
    · rw [he] at hj'
      exact Nat.lt_of_lt_of_le (hancestors j hj') hle
  · intro i name b hb
    have hb' : ((s.push a).scope i).find? name = some b := hb
    rcases hscope i with he | he
    · rw [he] at hb'
      exact (h.values i name b hb').mono hle hissued
    · rw [he] at hb'
      obtain ⟨hscopes, hknown⟩ := hvalues b (Scope.mem_bindings_of_find? hb')
      exact ⟨fun i hi => by simp [hscopes] at hi, hknown⟩

theorem sound_empty : ({} : Store).Sound := by
  have hscope (i : ScopeId) : ({} : Store).scope i = {} := scope_of_size_le _ (Nat.zero_le i)
  constructor
  · intro i j hj
    rw [hscope] at hj
    cases hj
  · intro i name b hb
    rw [hscope] at hb
    cases hb

theorem Sound.pushGlobal (h : s.Sound) : s.pushGlobal.Sound := by
  refine h.push (Nat.le_add_right _ _) (fun _ => nofun) ?_
  simp [nativeBindings, NativeOp.standard, constantBindings, Value.scopes, Value.Known]

theorem Reachable.sound (h : s.Reachable) : s.Sound := by
  induction h with
  | empty => exact sound_empty
  | root h ih => exact ih.push (Nat.le_refl _) (fun _ => nofun) fun _ => nofun
  | bareGlobal h ih =>
    refine ih.push (Nat.le_refl _) (fun _ => nofun) ?_
    simp [constantBindings, Value.scopes, Value.Known]
  | global h ih => exact ih.pushGlobal
  | child h hp ih => exact .of_moves (.pushChild ih.renamed_all ⟨rfl, hp⟩)
  | @declare s t i name v constant h hi hv ht ih =>
    have hstep := ih.renamed_all.declare (.inl ⟨rfl, hi⟩ : s.all.within False i i) name
      hv.renamed_all constant
    rw [ht] at hstep
    cases hstep with
    | ok hmoves => exact .of_moves hmoves
  | @assign s t i name v h hi hv ht ih =>
    have hstep := ih.renamed_all.assign (.inl ⟨rfl, hi⟩ : s.all.within False i i) name
      hv.renamed_all
    rw [ht] at hstep
    cases hstep with
    | ok hmoves => exact .of_moves hmoves
  | @clear s i h hi ih =>
    have hclear (a a' : Scope) (ha : a.Renamed s.all a') : a.clear.Renamed s.all a'.clear :=
      ⟨ha.ancestors, fun _ => .none⟩
    exact .of_moves (.modifyScope ih.renamed_all (.inl ⟨rfl, hi⟩ : s.all.within False i i) hclear)
  | run h hscope ih => exact (Eval.stmts_endsWithin ih hscope _).sound
  | call h hf ha ih => exact (Eval.function_endsWithin ih hf ha _).sound

end Store

end ScopeScript
