import ScopeScript.Proofs.Fresh.Names
import ScopeScript.Proofs.Separation.Stores

/-!
# Stores that are alike but for fresh names

`s.Alike w fresh s'` says that the scopes that `w` pairs have the same bindings, up to the numbers
that `w` pairs, except that those of `s` may bind the names `fresh` as well.  The renaming is given
once and for all: it pairs the scopes and functions that are still to be made in the order in which
they will be made.

    start.Spares w fresh s     from start to s, no fresh name was bound or changed in a scope of
                               start, and nothing at all in a scope without a partner
    Place w start p p'         p and p' are paired, or p is an empty scope inside one that is
                               paired with p'

A program that does not mention the fresh names reads the same in both stores, and what it writes
keeps them alike.
-/

namespace ScopeScript

/-- Related values, without functions that mention a fresh name. -/
structure Value.Alike (w : Renaming) (fresh : List String) (v v' : Value) : Prop where
  renamed : v.Renamed w v'
  avoids : v'.Avoids fresh

namespace Value.Alike

variable {w : Renaming} {fresh : List String}

theorem get {o o' : Record Value} (h : (object o).Alike w fresh (object o')) (key : String) :
    ((o.get? key).getD .null).Alike w fresh ((o'.get? key).getD .null) := by
  obtain ⟨hr, havoids⟩ := h
  cases hr with
  | object hr => exact ⟨hr.get key, EntriesAvoid.get havoids key⟩

theorem renamed_all {vs vs' : List Value} (h : List.Forall₂ (Value.Alike w fresh) vs vs') :
    List.Forall₂ (Value.Renamed w) vs vs' :=
  h.imp fun _ _ hv => hv.renamed

theorem typeName {vs vs' : List Value} (h : List.Forall₂ (Value.Alike w fresh) vs vs') :
    SameExcept (Value.Alike w fresh) (NativeOp.typeName vs) (NativeOp.typeName vs') := by
  have hname := typeName_renamed (renamed_all h)
  have havoids : ∀ v, NativeOp.typeName vs' = .ok v → v.Avoids fresh := by
    intro v hv
    obtain ⟨s, rfl⟩ := NativeOp.typeName_eq_ok hv
    trivial
  generalize NativeOp.typeName vs = x at hname ⊢
  generalize NativeOp.typeName vs' = x' at hname havoids ⊢
  cases hname with
  | ok hv => exact .ok ⟨hv, havoids _ rfl⟩
  | error message => exact .error message

end Value.Alike

/-- The same keys in the same order, with values that are alike. -/
abbrev Value.EntriesAlike (w : Renaming) (fresh : List String) :
    List (String × Value) → List (String × Value) → Prop :=
  List.Forall₂ fun e e' => e.1 = e'.1 ∧ e.2.Alike w fresh e'.2

theorem Value.EntriesAlike.ofList {w : Renaming} {fresh : List String}
    {es es' : List (String × Value)} (h : EntriesAlike w fresh es es') :
    (object (.ofList es)).Alike w fresh (object (.ofList es')) := by
  have hboth : EntriesRenamed w es es' ∧ EntriesAvoid fresh es' := by
    induction h with
    | nil => exact ⟨.nil, trivial⟩
    | @cons e e' es es' he _ ih =>
      obtain ⟨k, v⟩ := e
      obtain ⟨k', v'⟩ := e'
      obtain ⟨rfl, hv⟩ := he
      exact ⟨.cons hv.renamed ih.1, hv.avoids, ih.2⟩
  exact ⟨hboth.1.ofList, hboth.2.ofList⟩

structure Scope.Alike (w : Renaming) (fresh : List String) (a a' : Scope) : Prop where
  ancestors : List.Forall₂ w.scope a.ancestors a'.ancestors
  bindings : ∀ name, name ∉ fresh → Option.Rel (Binding.Renamed w) (a.find? name) (a'.find? name)

namespace Scope

variable {w : Renaming} {fresh : List String} {a a' : Scope} {name : String}

namespace Alike

theorem binds_eq (h : a.Alike w fresh a') (hn : name ∉ fresh) : a.binds name = a'.binds name := by
  rw [Bool.eq_iff_iff, binds_iff_find?, binds_iff_find?]
  have hname := h.bindings name hn
  generalize a.find? name = x at hname ⊢
  generalize a'.find? name = x' at hname ⊢
  cases hname <;> simp

theorem bind (h : a.Alike w fresh a') {v v' : Value} (hv : v.Renamed w v') (constant : Bool) :
    (a.bind ⟨name, v, constant⟩).Alike w fresh (a'.bind ⟨name, v', constant⟩) where
  ancestors := h.ancestors
  bindings other ho := by
    by_cases hn : name = other
    · subst hn
      rw [find?_bind_self a ⟨name, v, constant⟩, find?_bind_self a' ⟨name, v', constant⟩]
      exact .some ⟨hv, rfl⟩
    · rw [find?_bind_of_ne a ⟨name, v, constant⟩ hn, find?_bind_of_ne a' ⟨name, v', constant⟩ hn]
      exact h.bindings other ho

theorem replace (h : a.Alike w fresh a') {v v' : Value} (hv : v.Renamed w v') :
    (a.replace name v).Alike w fresh (a'.replace name v') where
  ancestors := h.ancestors
  bindings other ho := by
    by_cases hn : other = name
    · subst hn
      rw [find?_replace_self, find?_replace_self]
      have hname := h.bindings other ho
      generalize a.find? other = x at hname ⊢
      generalize a'.find? other = x' at hname ⊢
      cases hname with
      | none => exact .none
      | some hb => exact .some ⟨hv, hb.constant⟩
    · rw [find?_replace_of_ne a v hn, find?_replace_of_ne a' v' hn]
      exact h.bindings other ho

end Alike

/-- All values of the scope avoid the fresh names. -/
def Avoids (fresh : List String) (a : Scope) : Prop :=
  ∀ name b, a.find? name = some b → b.value.Avoids fresh

theorem Avoids.bind (h : a.Avoids fresh) {v : Value} (hv : v.Avoids fresh) (constant : Bool) :
    (a.bind ⟨name, v, constant⟩).Avoids fresh := by
  intro other b hb
  by_cases hn : name = other
  · subst hn
    rw [find?_bind_self a ⟨name, v, constant⟩] at hb
    cases hb
    exact hv
  · rw [find?_bind_of_ne a ⟨name, v, constant⟩ hn] at hb
    exact h other b hb

theorem Avoids.replace (h : a.Avoids fresh) {v : Value} (hv : v.Avoids fresh) :
    (a.replace name v).Avoids fresh := by
  intro other b hb
  by_cases hn : other = name
  · subst hn
    rw [find?_replace_self] at hb
    obtain ⟨b', -, rfl⟩ := Option.map_eq_some_iff.1 hb
    exact hv
  · rw [find?_replace_of_ne a v hn] at hb
    exact h other b hb

end Scope

namespace Store

/-- The scopes that `w` pairs are alike, and so will be those that are made next. -/
structure Alike (w : Renaming) (fresh : List String) (s s' : Store) : Prop where
  unique : Relator.BiUnique w.scope
  lt_size_iff : ∀ i i', w.scope i i' → (i < s.scopes.size ↔ i' < s'.scopes.size)
  scopes : ∀ i i', w.scope i i' → (s.scope i).Alike w fresh (s'.scope i')
  next : ∀ k, w.scope (s.scopes.size + k) (s'.scopes.size + k)
  next_identity : ∀ k, w.identity (s.issued + k) (s'.issued + k)
  avoids : ∀ i, (s'.scope i).Avoids fresh

/-- Fresh names, and scopes without partners, are left alone. -/
structure Spares (w : Renaming) (fresh : List String) (start s : Store) : Prop where
  size_le : start.scopes.size ≤ s.scopes.size
  ancestors : ∀ i, i < start.scopes.size → (s.scope i).ancestors = (start.scope i).ancestors
  bindings : ∀ i name, i < start.scopes.size → (name ∈ fresh ∨ ∀ j, ¬ w.scope i j) →
    (s.scope i).find? name = (start.scope i).find? name

/-- Where an expression can be evaluated on both sides. -/
inductive Place (w : Renaming) (start : Store) : ScopeId → ScopeId → Prop
  | paired {p p' : ScopeId} (h : w.scope p p') : Place w start p p'
  | frame {p q p' : ScopeId} (hp : p < start.scopes.size) (hunpaired : ∀ j, ¬ w.scope p j)
      (hscope : start.scope p = { ancestors := start.chain q }) (hq : q < start.scopes.size)
      (h : w.scope q p') : Place w start p p'

section

variable {w : Renaming} {fresh : List String} {start s s' : Store} {p q p' : ScopeId} {name : String}

namespace Spares

theorem refl (w : Renaming) (fresh : List String) (s : Store) : s.Spares w fresh s :=
  ⟨Nat.le_refl _, fun _ _ => rfl, fun _ _ _ _ => rfl⟩

/-- A write to another name of a scope with a partner. -/
theorem modifyScope (h : start.Spares w fresh s) (hp : w.scope p p') {f : Scope → Scope}
    (hancestors : ∀ a, (f a).ancestors = a.ancestors)
    (hf : ∀ a, ∀ name ∈ fresh, (f a).find? name = a.find? name) :
    start.Spares w fresh (s.modifyScope p f) where
  size_le := by
    rw [size_modifyScope]
    exact h.size_le
  ancestors i hi := by
    rw [scope_modifyScope]
    split
    · rw [hancestors, h.ancestors i hi]
    · exact h.ancestors i hi
  bindings i name hi hn := by
    rw [scope_modifyScope]
    split
    · next he =>
      rcases hn with hn | hn
      · rw [hf _ name hn, h.bindings i name hi (.inl hn)]
      · exact absurd (he.1 ▸ hp) (hn p')
    · exact h.bindings i name hi hn

theorem push (h : start.Spares w fresh s) (a : Scope) : start.Spares w fresh (s.push a) where
  size_le := by
    rw [size_push]
    exact Nat.le_succ_of_le h.size_le
  ancestors i hi := by
    rw [scope_push_of_lt s (Nat.lt_of_lt_of_le hi h.size_le), h.ancestors i hi]
  bindings i name hi hn := by
    rw [scope_push_of_lt s (Nat.lt_of_lt_of_le hi h.size_le), h.bindings i name hi hn]

theorem freshIdentity (h : start.Spares w fresh s) :
    start.Spares w fresh { s with issued := s.issued + 1 } :=
  ⟨h.size_le, h.ancestors, h.bindings⟩

theorem chain_eq (h : start.Spares w fresh s) (hp : p < start.scopes.size) :
    s.chain p = start.chain p := by
  unfold chain
  rw [h.ancestors p hp]

/-- An empty scope owns nothing, so the scopes around it are asked. -/
theorem owner?_frame (h : start.Spares w fresh s) (hp : p < start.scopes.size)
    (hunpaired : ∀ j, ¬ w.scope p j) (hscope : start.scope p = { ancestors := start.chain q })
    (hq : q < start.scopes.size) (name : String) : s.owner? p name = s.owner? q name := by
  have hempty : s.hasOwn p name = false := by
    unfold hasOwn
    rw [← Scope.find?_eq_none_iff, h.bindings p name hp (.inr hunpaired), hscope]
    rfl
  have hchain : s.chain p = p :: s.chain q := by
    rw [h.chain_eq hq, h.chain_eq hp, Store.chain, hscope]
  unfold owner?
  rw [hchain, List.find?_cons, hempty]

end Spares

namespace Alike

/-! ## Reading -/

theorem chain (h : s.Alike w fresh s') (hp : w.scope p p') :
    List.Forall₂ w.scope (s.chain p) (s'.chain p') :=
  .cons hp (h.scopes p p' hp).ancestors

theorem hasOwn_eq (h : s.Alike w fresh s') (hp : w.scope p p') (hn : name ∉ fresh) :
    s.hasOwn p name = s'.hasOwn p' name :=
  (h.scopes p p' hp).binds_eq hn

theorem owner? (h : s.Alike w fresh s') (hstart : start.Spares w fresh s)
    (hp : Place w start p p') (hn : name ∉ fresh) :
    Option.Rel w.scope (s.owner? p name) (s'.owner? p' name) := by
  have hpaired {p p' : ScopeId} (hp : w.scope p p') :
      Option.Rel w.scope (s.owner? p name) (s'.owner? p' name) := by
    unfold Store.owner?
    have hchain := h.chain hp
    generalize s.chain p = is at hchain
    generalize s'.chain p' = is' at hchain
    induction hchain with
    | nil => exact .none
    | cons hi _ ih =>
      rw [List.find?_cons, List.find?_cons, h.hasOwn_eq hi hn]
      split
      · exact .some hi
      · exact ih
  cases hp with
  | paired hp => exact hpaired hp
  | frame hp hunpaired hscope hq hp' =>
    rw [hstart.owner?_frame hp hunpaired hscope hq]
    exact hpaired hp'

theorem lookup (h : s.Alike w fresh s') (hstart : start.Spares w fresh s)
    (hp : Place w start p p') (hn : name ∉ fresh) :
    SameExcept (Value.Alike w fresh) (s.lookup p name) (s'.lookup p' name) := by
  unfold Store.lookup resolve?
  have howner := h.owner? hstart hp hn
  generalize s.owner? p name = o at howner ⊢
  generalize s'.owner? p' name = o' at howner ⊢
  cases howner with
  | none => exact .error _
  | @some i i' hi =>
    have hname := (h.scopes i i' hi).bindings name hn
    have havoids := h.avoids i' name
    rw [Option.bind_some, Option.bind_some]
    generalize (s.scope i).find? name = x at hname ⊢
    generalize (s'.scope i').find? name = x' at hname havoids ⊢
    cases hname with
    | none => exact .error _
    | some hb => exact .ok ⟨hb.value, havoids _ rfl⟩

/-! ## Writing -/

theorem modifyScope (h : s.Alike w fresh s') (hp : w.scope p p') {f f' : Scope → Scope}
    (hf : ∀ a a' : Scope, a.Alike w fresh a' → (f a).Alike w fresh (f' a'))
    (hf' : ∀ a' : Scope, a'.Avoids fresh → (f' a').Avoids fresh) :
    (s.modifyScope p f).Alike w fresh (s'.modifyScope p' f') where
  unique := h.unique
  lt_size_iff i i' hi := by
    rw [size_modifyScope, size_modifyScope]
    exact h.lt_size_iff i i' hi
  scopes i i' hi := by
    have heq : p = i ↔ p' = i' := ⟨fun e => h.unique.2 hp (e ▸ hi), fun e => h.unique.1 hp (e ▸ hi)⟩
    have hwritten := and_congr heq (h.lt_size_iff i i' hi)
    rw [scope_modifyScope, scope_modifyScope]
    by_cases hc : p = i ∧ i < s.scopes.size
    · rw [if_pos hc, if_pos (hwritten.1 hc)]
      exact hf _ _ (h.scopes i i' hi)
    · rw [if_neg hc, if_neg (mt hwritten.2 hc)]
      exact h.scopes i i' hi
  next k := by
    rw [size_modifyScope, size_modifyScope]
    exact h.next k
  next_identity := h.next_identity
  avoids i := by
    rw [scope_modifyScope]
    split
    · exact hf' _ (h.avoids i)
    · exact h.avoids i

/-- Fresh names can be bound on the left. -/
theorem modifyScope_left (h : s.Alike w fresh s') (i : ScopeId) {f : Scope → Scope}
    (hancestors : ∀ a, (f a).ancestors = a.ancestors)
    (hf : ∀ a, ∀ name, name ∉ fresh → (f a).find? name = a.find? name) :
    (s.modifyScope i f).Alike w fresh s' where
  unique := h.unique
  lt_size_iff j j' hj := by
    rw [size_modifyScope]
    exact h.lt_size_iff j j' hj
  scopes j j' hj := by
    have hscope := h.scopes j j' hj
    rw [scope_modifyScope]
    split
    · refine ⟨?_, fun name hn => ?_⟩
      · rw [hancestors]
        exact hscope.ancestors
      · rw [hf _ name hn]
        exact hscope.bindings name hn
    · exact hscope
  next k := by
    rw [size_modifyScope]
    exact h.next k
  next_identity := h.next_identity
  avoids := h.avoids

/-- New scopes are paired. -/
theorem push (h : s.Alike w fresh s') {a a' : Scope} (ha : a.Alike w fresh a')
    (ha' : a'.Avoids fresh) : (s.push a).Alike w fresh (s'.push a') := by
  have hnew : w.scope s.scopes.size s'.scopes.size := h.next 0
  have heq {i i' : ScopeId} (hi : w.scope i i') : i = s.scopes.size ↔ i' = s'.scopes.size :=
    ⟨fun e => h.unique.2 (e ▸ hi) hnew, fun e => h.unique.1 (e ▸ hi) hnew⟩
  constructor
  · exact h.unique
  · intro i i' hi
    rw [size_push, size_push, Nat.lt_succ_iff_lt_or_eq, Nat.lt_succ_iff_lt_or_eq,
      h.lt_size_iff i i' hi, heq hi]
  · intro i i' hi
    rcases Nat.lt_trichotomy i s.scopes.size with hlt | he | hgt
    · rw [scope_push_of_lt s hlt, scope_push_of_lt s' ((h.lt_size_iff i i' hi).1 hlt)]
      exact h.scopes i i' hi
    · rw [he, (heq hi).1 he, scope_push_self, scope_push_self]
      exact ha
    · have hle : s.scopes.size + 1 ≤ i := hgt
      have hle' : s'.scopes.size + 1 ≤ i' := by
        have hne : i' ≠ s'.scopes.size := mt (heq hi).2 (Nat.ne_of_gt hgt)
        have hlt : ¬ i' < s'.scopes.size :=
          mt (h.lt_size_iff i i' hi).2 (Nat.not_lt.2 (Nat.le_of_lt hgt))
        exact Nat.lt_of_le_of_ne (Nat.not_lt.1 hlt) (Ne.symm hne)
      rw [scope_of_size_le _ (Nat.le_trans (Nat.le_of_eq (size_push s a)) hle),
        scope_of_size_le _ (Nat.le_trans (Nat.le_of_eq (size_push s' a')) hle')]
      exact ⟨.nil, fun _ _ => .none⟩
  · intro k
    rw [size_push, size_push, Nat.add_assoc, Nat.add_assoc]
    exact h.next (1 + k)
  · exact h.next_identity
  · intro i
    rcases Nat.lt_trichotomy i s'.scopes.size with hlt | rfl | hgt
    · rw [scope_push_of_lt s' hlt]
      exact h.avoids i
    · rw [scope_push_self]
      exact ha'
    · rw [scope_of_size_le _ (Nat.le_trans (Nat.le_of_eq (size_push s' a')) hgt)]
      exact fun _ _ => nofun

theorem pushChild (h : s.Alike w fresh s') (hp : w.scope p p') :
    (s.pushChild p).Alike w fresh (s'.pushChild p') :=
  h.push ⟨h.chain hp, fun _ _ => .none⟩ fun _ _ => nofun

theorem freshIdentity (h : s.Alike w fresh s') :
    ({ s with issued := s.issued + 1 } : Store).Alike w fresh
      { s' with issued := s'.issued + 1 } where
  unique := h.unique
  lt_size_iff := h.lt_size_iff
  scopes := h.scopes
  next := h.next
  next_identity k := by
    have hk := h.next_identity (1 + k)
    rwa [← Nat.add_assoc, ← Nat.add_assoc] at hk
  avoids := h.avoids

/-- What a write takes two stores to. -/
abbrev Written (w : Renaming) (fresh : List String) (start t t' : Store) : Prop :=
  t.Alike w fresh t' ∧ start.Spares w fresh t

theorem declare (h : s.Alike w fresh s') (hstart : start.Spares w fresh s) (hp : w.scope p p')
    (hn : name ∉ fresh) {v v' : Value} (hv : v.Alike w fresh v') (constant : Bool) :
    SameExcept (Written w fresh start) (s.declare p name v constant)
      (s'.declare p' name v' constant) := by
  unfold Store.declare
  rw [h.hasOwn_eq hp hn]
  split
  · exact .error _
  · refine .ok ⟨h.modifyScope hp (fun _ _ ha => ha.bind hv.renamed constant)
      fun _ ha => ha.bind hv.avoids constant, hstart.modifyScope hp (fun _ => rfl) fun a other ho => ?_⟩
    have hne : name ≠ other := fun e => hn (e ▸ ho)
    exact Scope.find?_bind_of_ne a ⟨name, v, constant⟩ hne

theorem assign (h : s.Alike w fresh s') (hstart : start.Spares w fresh s)
    (hp : Place w start p p') (hn : name ∉ fresh) {v v' : Value} (hv : v.Alike w fresh v') :
    SameExcept (Written w fresh start) (s.assign p name v) (s'.assign p' name v') := by
  unfold Store.assign
  have howner := h.owner? hstart hp hn
  generalize s.owner? p name = o at howner ⊢
  generalize s'.owner? p' name = o' at howner ⊢
  cases howner with
  | none => exact .error _
  | @some i i' hi =>
    have hconst : ((s.scope i).find? name).any (·.constant) =
        ((s'.scope i').find? name).any (·.constant) := by
      have hname := (h.scopes i i' hi).bindings name hn
      generalize (s.scope i).find? name = x at hname ⊢
      generalize (s'.scope i').find? name = x' at hname ⊢
      cases hname with
      | none => rfl
      | some hb => exact hb.constant
    dsimp only
    rw [hconst]
    split
    · exact .error _
    · refine .ok ⟨h.modifyScope hi (fun _ _ ha => ha.replace hv.renamed)
        fun _ ha => ha.replace hv.avoids, hstart.modifyScope hi (fun _ => rfl) fun a other ho => ?_⟩
      exact Scope.find?_replace_of_ne a v fun e => hn (e ▸ ho)

end Alike

end

end Store

end ScopeScript
