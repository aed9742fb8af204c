import ScopeScript.Proofs.Fresh.Evaluation
import ScopeScript.Proofs.Scoping.LexicallyClosed
import ScopeScript.Proofs.Separation.Reach
import ScopeScript.Proofs.Separation.Roots

/-!
# Where runs that are alike begin and end

A sound store without functions that mention a fresh name is alike to itself, also if one of the two
has handed out more identities: `Store.Sound.alike_self`.  The global scope of a fresh machine is
such a store, for all names that are not built in.

    Script.EndsAlike w fresh r r'     the runs r and r' ended alike

If the renaming is the identity then runs that ended alike ended in the same way, and left the same
store but for the fresh names.
-/

namespace ScopeScript

/-- All numbers stand for themselves. -/
def Renaming.same : Renaming where
  scope := Eq
  identity := Eq

theorem Renaming.same_unique : Relator.BiUnique same.scope :=
  ⟨fun _ _ _ hi hj => hi.trans hj.symm, fun _ _ _ hi hj => hi.symm.trans hj⟩

/-! ## The beginning -/

namespace Store

theorem Sound.alike_self {s : Store} (h : s.Sound) {w : Renaming} {fresh : List String}
    (hle : s.all ≤ w) (hunique : Relator.BiUnique w.scope)
    (hsize : ∀ i i', w.scope i i' → (i < s.scopes.size ↔ i' < s.scopes.size))
    (hnext : ∀ k, w.scope (s.scopes.size + k) (s.scopes.size + k)) {issued : Identity}
    (hissued : ∀ k, w.identity (issued + k) (s.issued + k))
    (havoids : ∀ i, (s.scope i).Avoids fresh) : ({ s with issued } : Store).Alike w fresh s where
  unique := hunique
  lt_size_iff := hsize
  scopes i i' hi := by
    show (s.scope i).Alike w fresh (s.scope i')
    by_cases hlt : i < s.scopes.size
    · have hself : s.all.scope i i := ⟨rfl, hlt⟩
      obtain rfl : i = i' := hunique.2 (hle.1 i i hself) hi
      have hrenamed := ((h.renamed_all.scopes i i (.inl hself)).mono hle)
      exact ⟨hrenamed.ancestors, fun name _ => hrenamed.bindings name⟩
    · rw [s.scope_of_size_le (Nat.not_lt.1 hlt),
        s.scope_of_size_le (Nat.not_lt.1 (mt (hsize i i' hi).2 hlt))]
      exact ⟨.nil, fun _ _ => .none⟩
  next := hnext
  next_identity := hissued
  avoids := havoids

end Store

theorem Script.singleGlobal_sound : singleGlobal.store.Sound :=
  (Store.Reachable.global .empty).sound

theorem Script.singleGlobal_scope :
    singleGlobal.store.scope 0 =
      { bindings := nativeBindings 0 NativeOp.standard ++ constantBindings } := rfl

/-- A fresh machine holds no functions but native ones. -/
theorem Script.singleGlobal_avoids (fresh : List String) (i : ScopeId) :
    (singleGlobal.store.scope i).Avoids fresh := by
  intro name b hb
  by_cases hi : i < singleGlobal.store.scopes.size
  · obtain rfl : i = 0 := Nat.lt_one_iff.1 hi
    rw [singleGlobal_scope] at hb
    exact Store.forall_globalBindings trivial (fun _ => trivial) (fun _ _ => trivial) 0 b
      (Scope.mem_bindings_of_find? hb)
  · rw [Store.scope_of_size_le _ (Nat.not_lt.1 hi)] at hb
    cases hb

theorem Script.singleGlobal_alike (fresh : List String) :
    singleGlobal.Alike .same fresh singleGlobal.store singleGlobal where
  stores :=
    singleGlobal_sound.alike_self ⟨fun _ _ h => h.1, fun _ _ h => h.1⟩ Renaming.same_unique
      (fun _ _ h => Iff.of_eq (congrArg (· < _) h)) (fun _ => rfl) (fun _ => rfl)
      (singleGlobal_avoids fresh)
  spares := .refl _ _ _
  output := rfl

/-- A global scope binds the built-in names only. -/
theorem Store.find?_pushGlobal_eq_none (s : Store) {name : String} (h : name ∉ builtinNames) :
    (s.pushGlobal.scope s.scopes.size).find? name = none := by
  rw [scope_pushGlobal]
  simp only [builtinNames, List.mem_cons, List.not_mem_nil, or_false, not_or] at h
  obtain ⟨htrue, hfalse, hnull, hprint, htype⟩ := h
  simp [Scope.find?, nativeBindings, NativeOp.standard, constantBindings, Ne.symm htrue,
    Ne.symm hfalse, Ne.symm hnull, Ne.symm hprint, Ne.symm htype]

namespace Eval

/-- A name that the scope itself binds is read there. -/
theorem lookup_own {m : Machine} {p : ScopeId} {name : String} {b : Binding}
    (h : (m.store.scope p).find? name = some b) (line : Nat) :
    lookup p name line m = .ok b.value m := by
  have hown : m.store.hasOwn p name = true := by
    unfold Store.hasOwn
    rw [Scope.binds_iff_find?, h]
    rfl
  have howner : m.store.owner? p name = some p := by
    unfold Store.owner? Store.chain
    rw [List.find?_cons, hown]
  rw [lookup_apply]
  unfold Store.lookup Store.resolve?
  rw [howner, Option.bind_some, h]

/-- A fresh name is declared on the left. -/
theorem declare_fresh {w : Renaming} {fresh : List String} {start : Store} {m m' : Machine}
    (hm : m.Alike w fresh start m') {p : ScopeId} (hp : p < m.store.scopes.size) {name : String}
    (hname : name ∈ fresh) (hunbound : (m.store.scope p).find? name = none) (v : Value)
    (constant : Bool) (line : Nat) :
    ∃ n, declare p name v constant line m = .ok () n ∧ n.Alike w fresh n.store m' ∧
      n.store.scopes.size = m.store.scopes.size ∧
      (n.store.scope p).find? name = some ⟨name, v, constant⟩ ∧
      ∀ other, other ≠ name → (n.store.scope p).find? other = (m.store.scope p).find? other := by
  let bound (a : Scope) : Scope := a.bind ⟨name, v, constant⟩
  have hother (a : Scope) (other : String) (hne : other ≠ name) :
      (bound a).find? other = a.find? other :=
    Scope.find?_bind_of_ne a ⟨name, v, constant⟩ (Ne.symm hne)
  have hdeclare : m.store.declare p name v constant = .ok (m.store.modifyScope p bound) :=
    Store.declare_eq_ok_iff.2 ⟨(Scope.find?_eq_none_iff _ _).1 hunbound, rfl⟩
  have hscope : (m.store.modifyScope p bound).scope p = bound (m.store.scope p) :=
    Store.scope_modifyScope_self _ bound hp
  refine ⟨{ m with store := m.store.modifyScope p bound }, ?_, ⟨?_, .refl _ _ _, hm.output⟩,
    Store.size_modifyScope _ _ _, ?_, fun other hne => ?_⟩
  · rw [declare_apply, hdeclare]
  · exact hm.stores.modifyScope_left p (fun _ => rfl) fun a other hn =>
      hother a other fun e => hn (e.symm ▸ hname)
  · rw [hscope]
    exact Scope.find?_bind_self _ ⟨name, v, constant⟩
  · rw [hscope]
    exact hother _ other hne

end Eval

theorem Machine.Alike.restart {w : Renaming} {fresh : List String} {start : Store} {m m' : Machine}
    (h : m.Alike w fresh start m') : m.Alike w fresh m.store m' :=
  ⟨h.stores, .refl _ _ _, h.output⟩

/-- A program that avoids the names, run in a fresh machine, ends alike to itself. -/
theorem Eval.stmts_alike_self (n : Nat) (options : Options) {program : Program}
    {fresh : List String} (h : (Stmt.allNames program).Disjoint fresh) :
    EndsAlike .same fresh Script.singleGlobal.store (Value.Alike .same fresh)
      (stmts (callsWithin .none n) options 0 .null program Script.singleGlobal)
      (stmts (callsWithin .none n) options 0 .null program Script.singleGlobal) :=
  stmts_follow (callsWithin_follow .same fresh Script.singleGlobal.store .none n)
    (rfl : Renaming.same.scope 0 0) ⟨.null, trivial⟩ program h _ _ (Script.singleGlobal_alike fresh)

/-- Fresh names stay unbound in the global scope. -/
theorem Machine.Alike.unbound {fresh : List String} {n n' : Machine}
    (h : n.Alike .same fresh Script.singleGlobal.store n') {name : String} (hname : name ∈ fresh)
    (hbuiltin : name ∉ builtinNames) :
    0 < n.store.scopes.size ∧ (n.store.scope 0).find? name = none :=
  ⟨h.spares.size_le, (h.spares.bindings 0 name Nat.one_pos (.inl hname)).trans
    (Store.find?_pushGlobal_eq_none {} hbuiltin)⟩

/-! ## The end -/

theorem Eval.finish_congr {c d : Eval Value} {m m' : Machine} (h : c m = d m') :
    c.finish m = d.finish m' := by
  unfold EvalIn.finish EStateM.run
  rw [h]

/-- Two runs from machines that are alike ended alike. -/
structure Script.EndsAlike (w : Renaming) (fresh : List String) (r r' : Outcome × Machine) :
    Prop where
  outcome : r.1.Renamed w r'.1
  output : r.2.output = r'.2.output
  scopes : ∀ i i', w.scope i i' → (r.2.store.scope i).Alike w fresh (r'.2.store.scope i')

theorem Eval.EndsAlike.finish {w : Renaming} {fresh : List String} {start : Store}
    {c d : Eval Value} {m m' : Machine}
    (h : EndsAlike w fresh start (Value.Alike w fresh) (c m) (d m')) :
    (c.finish m).1.Renamed w (d.finish m').1 ∧
      (c.finish m).2.Alike w fresh start (d.finish m').2 := by
  unfold EvalIn.finish EStateM.run
  generalize c m = r at h
  generalize d m' = r' at h
  cases h with
  | ok hn hv => exact ⟨.value hv.renamed, hn⟩
  | error e hn =>
    cases e with
    | fault f => exact ⟨.failed _, hn⟩
    | depth => exact ⟨.tooDeep, hn⟩

theorem Script.EndsAlike.of_endsAlike {w : Renaming} {fresh : List String} {start : Store}
    {c d : Eval Value} {m m' : Machine}
    (h : Eval.EndsAlike w fresh start (Value.Alike w fresh) (c m) (d m')) :
    EndsAlike w fresh (c.finish m) (d.finish m') :=
  ⟨h.finish.1, h.finish.2.output, h.finish.2.stores.scopes⟩

theorem Script.EndsAlike.of_error {w : Renaming} {fresh : List String} {c d : Eval Value}
    {m m' k k' : Machine} {halt : Halt} (hc : c m = .error halt k) (hd : d m' = .error halt k')
    (houtput : k.output = k'.output)
    (hscopes : ∀ i i', w.scope i i' → (k.store.scope i).Alike w fresh (k'.store.scope i')) :
    EndsAlike w fresh (c.finish m) (d.finish m') := by
  unfold EvalIn.finish EStateM.run
  rw [hc, hd]
  cases halt with
  | fault f => exact ⟨.failed _, houtput, hscopes⟩
  | depth => exact ⟨.tooDeep, houtput, hscopes⟩

/-! ## The same numbers -/

mutual

theorem Value.Renamed.eq {v v' : Value} (h : v.Renamed .same v') : v = v' := by
  match h with
  | .null | .number _ | .boolean _ | .string _ => rfl
  | .object hes => rw [hes.eq]
  | @Renamed.function _ ⟨i, name, params, body, scope⟩ ⟨i', name', params', body', scope'⟩ h =>
    obtain ⟨hi, hname, hparams, hbody, hscope⟩ := h
    cases hi
    cases hname
    cases hparams
    cases hbody
    cases hscope
    rfl
  | @Renamed.native _ ⟨i, name, op⟩ ⟨i', name', op'⟩ h =>
    obtain ⟨hi, hname, hop, -⟩ := h
    cases hi
    cases hname
    cases hop
    rfl

theorem Value.EntriesRenamed.eq {es es' : List (String × Value)} (h : EntriesRenamed .same es es') :
    es = es' := by
  match h with
  | .nil => rfl
  | .cons hv hes => rw [hv.eq, hes.eq]

end

theorem Outcome.Renamed.eq {o o' : Outcome} (h : o.Renamed .same o') : o = o' := by
  cases h with
  | value h => rw [h.eq]
  | failed e => rfl
  | tooDeep => rfl

/-- The same scopes with the same bindings, but for the names `fresh`. -/
structure Store.SameBut (fresh : List String) (s s' : Store) : Prop where
  size : s.scopes.size = s'.scopes.size
  issued : s.issued = s'.issued
  ancestors : ∀ i, (s.scope i).ancestors = (s'.scope i).ancestors
  bindings : ∀ i name, name ∉ fresh → (s.scope i).find? name = (s'.scope i).find? name

theorem Store.Alike.sameBut {fresh : List String} {s s' : Store} (h : s.Alike .same fresh s') :
    s.SameBut fresh s' where
  size := by
    refine Nat.le_antisymm (Nat.not_lt.1 fun hlt => ?_) (Nat.not_lt.1 fun hlt => ?_)
    · exact Nat.lt_irrefl _ ((h.lt_size_iff _ _ rfl).1 hlt)
    · exact Nat.lt_irrefl _ ((h.lt_size_iff _ _ rfl).2 hlt)
  issued := h.next_identity 0
  ancestors i := List.forall₂_eq_eq_eq ▸ (h.scopes i i rfl).ancestors
  bindings i name hn := by
    have hname := (h.scopes i i rfl).bindings name hn
    have hfound (a : Scope) (b : Binding) (hb : a.find? name = some b) : b.name = name := by
      have := List.find?_some hb
      simpa using this
    have hleft := hfound (s.scope i)
    have hright := hfound (s'.scope i)
    generalize (s.scope i).find? name = x at hname hleft ⊢
    generalize (s'.scope i).find? name = x' at hname hright ⊢
    cases hname with
    | none => rfl
    | @some b b' hb =>
      obtain ⟨n, v, k⟩ := b
      obtain ⟨n', v', k'⟩ := b'
      rw [Option.some.injEq, Binding.mk.injEq]
      exact ⟨(hleft _ rfl).trans (hright _ rfl).symm, hb.value.eq, hb.constant⟩

end ScopeScript
