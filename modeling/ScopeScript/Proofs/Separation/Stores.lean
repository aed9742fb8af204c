import ScopeScript.Proofs.Separation.Renaming
import ScopeScript.Proofs.Store.Writes

/-!
# Stores up to a renaming of scopes

`s.Renamed w s'` says that the scopes that `w` pairs stand in the same places, bind the same names
and have related values.  Nothing is said about other scopes.  The operations on scopes take
renamed stores to renamed stores, and change no other scopes:

    s.KeepsOutside P t                 the scopes of s that are not P are the same in t
    Store.Moves w inside s s' w' t t'  from s and s' to t and t', with w growing to w'

A write goes to a scope that something leads to, or to the hidden one if the program runs inside it.
-/

namespace ScopeScript

/-! ## Pairs of scopes -/

namespace Renaming

/-- The pairs that can be read and written, inside the hidden scopes or not. -/
def within (w : Renaming) (inside : Prop) (i j : ScopeId) : Prop :=
  w.scope i j ∨ inside ∧ w.hidden = some (i, j)

def left (w : Renaming) (inside : Prop) (i : ScopeId) : Prop := ∃ j, w.within inside i j

def right (w : Renaming) (inside : Prop) (j : ScopeId) : Prop := ∃ i, w.within inside i j

theorem within.weaken {w : Renaming} {inside : Prop} {i j : ScopeId} (h : w.within inside i j) :
    w.within True i j :=
  h.imp_right fun h => ⟨trivial, h.2⟩

/-- One more pair of numbers. -/
def add (r : Nat → Nat → Prop) (a b i j : Nat) : Prop := r i j ∨ i = a ∧ j = b

theorem biUnique_add {r : Nat → Nat → Prop} (h : Relator.BiUnique r) {a b : Nat}
    (ha : ∀ j, ¬ r a j) (hb : ∀ i, ¬ r i b) : Relator.BiUnique (add r a b) := by
  constructor
  · rintro i j k (hi | ⟨rfl, rfl⟩) (hj | ⟨hj, hk⟩)
    · exact h.1 hi hj
    · exact absurd (hk ▸ hi) (hb i)
    · exact absurd hj (hb j)
    · exact hj.symm
  · rintro i j k (hj | ⟨rfl, rfl⟩) (hk | ⟨hi, hk⟩)
    · exact h.2 hj hk
    · exact absurd (hi ▸ hj) (ha j)
    · exact absurd hk (ha k)
    · exact hk.symm

def addScope (w : Renaming) (i j : ScopeId) : Renaming := { w with scope := add w.scope i j }

def addIdentity (w : Renaming) (i j : Identity) : Renaming :=
  { w with identity := add w.identity i j }

theorem le_addScope (w : Renaming) (i j : ScopeId) : w ≤ w.addScope i j :=
  ⟨fun _ _ => .inl, fun _ _ => id⟩

theorem le_addIdentity (w : Renaming) (i j : Identity) : w ≤ w.addIdentity i j :=
  ⟨fun _ _ => id, fun _ _ => .inl⟩

end Renaming

/-! ## Scopes -/

structure Binding.Renamed (w : Renaming) (b b' : Binding) : Prop where
  value : b.value.Renamed w b'.value
  constant : b.constant = b'.constant

/-- Bindings are compared name by name. -/
structure Scope.Renamed (w : Renaming) (a a' : Scope) : Prop where
  ancestors : List.Forall₂ w.scope a.ancestors a'.ancestors
  bindings : ∀ name, Option.Rel (Binding.Renamed w) (a.find? name) (a'.find? name)

namespace Scope.Renamed

variable {w w' : Renaming} {a a' : Scope}

theorem mono (hw : w ≤ w') (h : a.Renamed w a') : a.Renamed w' a' where
  ancestors := h.ancestors.imp hw.1
  bindings name := by
    have hname := h.bindings name
    generalize a.find? name = x at hname ⊢
    generalize a'.find? name = x' at hname ⊢
    cases hname with
    | none => exact .none
    | some hb => exact .some ⟨hb.value.mono hw, hb.constant⟩

theorem binds_eq (h : a.Renamed w a') (name : String) : a.binds name = a'.binds name := by
  rw [Bool.eq_iff_iff, binds_iff_find?, binds_iff_find?]
  have hname := h.bindings name
  generalize a.find? name = x at hname ⊢
  generalize a'.find? name = x' at hname ⊢
  cases hname <;> simp

theorem bind (h : a.Renamed w a') (name : String) {v v' : Value} (hv : v.Renamed w v')
    (constant : Bool) :
    (a.bind ⟨name, v, constant⟩).Renamed w (a'.bind ⟨name, v', constant⟩) where
  ancestors := h.ancestors
  bindings other := by
    by_cases hn : name = other
    · subst hn
      rw [find?_bind_self a ⟨name, v, constant⟩, find?_bind_self a' ⟨name, v', constant⟩]
      exact .some ⟨hv, rfl⟩
    · rw [find?_bind_of_ne a ⟨name, v, constant⟩ hn, find?_bind_of_ne a' ⟨name, v', constant⟩ hn]
      exact h.bindings other

theorem replace (h : a.Renamed w a') (name : String) {v v' : Value} (hv : v.Renamed w v') :
    (a.replace name v).Renamed w (a'.replace name v') where
  ancestors := h.ancestors
  bindings other := by
    by_cases hn : other = name
    · subst hn
      have hself (a : Scope) (v : Value) : (a.replace other v).find? other =
          (a.find? other).map fun b => { b with value := v } := by
        rw [find?_replace]
        cases hb : a.find? other with
        | none => rfl
        | some b =>
          have hname : b.name = other := by
            have := List.find?_some hb
            simpa using this
          simp [hname]
      have hname := h.bindings other
      rw [hself, hself]
      generalize a.find? other = x at hname ⊢
      generalize a'.find? other = x' at hname ⊢
      cases hname with
      | none => exact .none
      | some hb => exact .some ⟨hv, hb.constant⟩
    · rw [find?_replace_of_ne a v hn, find?_replace_of_ne a' v' hn]
      exact h.bindings other

end Scope.Renamed

/-! ## Stores -/

namespace Store

/-- The paired scopes exist, are paired one to one and hold related values. -/
structure Renamed (w : Renaming) (s s' : Store) : Prop where
  unique : Relator.BiUnique w.scope
  identities : Relator.BiUnique w.identity
  hidden : ∀ i i', w.hidden = some (i, i') → (∀ j, ¬ w.scope i j) ∧ ∀ j, ¬ w.scope j i'
  lt_size : ∀ i i', w.within True i i' → i < s.scopes.size ∧ i' < s'.scopes.size
  scopes : ∀ i i', w.within True i i' → (s.scope i).Renamed w (s'.scope i')
  issued : ∀ i i', w.identity i i' → i < s.issued ∧ i' < s'.issued

/-- The scopes of `s` that are not `P` are the same in `t`. -/
structure KeepsOutside (P : ScopeId → Prop) (s t : Store) : Prop where
  size_le : s.scopes.size ≤ t.scopes.size
  issued_le : s.issued ≤ t.issued
  scopes : ∀ i, i < s.scopes.size → ¬ P i → t.scope i = s.scope i

namespace KeepsOutside

variable {P Q : ScopeId → Prop} {s t u : Store}

theorem refl (P : ScopeId → Prop) (s : Store) : s.KeepsOutside P s :=
  ⟨Nat.le_refl _, Nat.le_refl _, fun _ _ _ => rfl⟩

/-- Scopes made in between do not count. -/
theorem trans (h : s.KeepsOutside P t) (h' : t.KeepsOutside Q u)
    (hQ : ∀ i, i < s.scopes.size → Q i → P i) : s.KeepsOutside P u where
  size_le := Nat.le_trans h.size_le h'.size_le
  issued_le := Nat.le_trans h.issued_le h'.issued_le
  scopes i hi hP := by
    rw [h'.scopes i (Nat.lt_of_lt_of_le hi h.size_le) fun hq => hP (hQ i hi hq), h.scopes i hi hP]

theorem mono (h : s.KeepsOutside P t) (hPQ : ∀ i, P i → Q i) : s.KeepsOutside Q t :=
  ⟨h.size_le, h.issued_le, fun i hi hQ => h.scopes i hi fun hP => hQ (hPQ i hP)⟩

theorem modifyScope (s : Store) {j : ScopeId} (hj : P j) (f : Scope → Scope) :
    s.KeepsOutside P (s.modifyScope j f) where
  size_le := Nat.le_of_eq (size_modifyScope s j f).symm
  issued_le := Nat.le_refl _
  scopes _ _ hi := scope_modifyScope_of_ne s f fun he => hi (he ▸ hj)

theorem push (s : Store) (a : Scope) : s.KeepsOutside P (s.push a) where
  size_le := by
    rw [size_push]
    exact Nat.le_succ _
  issued_le := Nat.le_refl _
  scopes _ hi _ := scope_push_of_lt s hi

end KeepsOutside

namespace Renamed

variable {w w' : Renaming} {inside : Prop} {s s' t t' : Store} {p p' : ScopeId}

/-- A scope has one partner. -/
theorem eq_iff (h : s.Renamed w s') {i i' j j' : ScopeId} (hi : w.within True i i')
    (hj : w.within True j j') : i = j ↔ i' = j' := by
  rcases hi with hi | ⟨-, hi⟩ <;> rcases hj with hj | ⟨-, hj⟩
  · exact ⟨fun e => h.unique.2 hi (e ▸ hj), fun e => h.unique.1 hi (e ▸ hj)⟩
  · exact ⟨fun e => absurd (e ▸ hi) ((h.hidden j j' hj).1 i'),
      fun e => absurd (e ▸ hi) ((h.hidden j j' hj).2 i)⟩
  · exact ⟨fun e => absurd (e ▸ hj) ((h.hidden i i' hi).1 j'),
      fun e => absurd (e ▸ hj) ((h.hidden i i' hi).2 j)⟩
  · rw [hi, Option.some.injEq, Prod.mk.injEq] at hj
    exact ⟨fun _ => hj.2, fun _ => hj.1⟩

/-! ### Reading -/

theorem chain (h : s.Renamed w s') (hp : w.within inside p p') :
    List.Forall₂ (w.within inside) (s.chain p) (s'.chain p') :=
  .cons hp ((h.scopes p p' hp.weaken).ancestors.imp fun _ _ hij => .inl hij)

theorem hasOwn_eq (h : s.Renamed w s') (hp : w.within inside p p') (name : String) :
    s.hasOwn p name = s'.hasOwn p' name :=
  (h.scopes p p' hp.weaken).binds_eq name

theorem owner? (h : s.Renamed w s') (hp : w.within inside p p') (name : String) :
    Option.Rel (w.within inside) (s.owner? p name) (s'.owner? p' name) := by
  unfold Store.owner?
  have hchain := h.chain hp
  generalize s.chain p = is at hchain
  generalize s'.chain p' = is' at hchain
  induction hchain with
  | nil => exact .none
  | @cons i i' is is' hi _ ih =>
    rw [List.find?_cons, List.find?_cons, h.hasOwn_eq hi name]
    split
    · exact .some hi
    · exact ih

theorem lookup (h : s.Renamed w s') (hp : w.within inside p p') (name : String) :
    SameExcept (Value.Renamed w) (s.lookup p name) (s'.lookup p' name) := by
  unfold Store.lookup Store.resolve?
  have howner := h.owner? hp name
  generalize s.owner? p name = o at howner ⊢
  generalize s'.owner? p' name = o' at howner ⊢
  cases howner with
  | none => exact .error _
  | @some i i' hi =>
    have hname := (h.scopes i i' hi.weaken).bindings name
    rw [Option.bind_some, Option.bind_some]
    generalize (s.scope i).find? name = x at hname ⊢
    generalize (s'.scope i').find? name = x' at hname ⊢
    cases hname with
    | none => exact .error _
    | some hb => exact .ok hb.value

/-! ### Writing -/

theorem modifyScope (h : s.Renamed w s') (hp : w.within True p p') {f f' : Scope → Scope}
    (hf : ∀ a a' : Scope, a.Renamed w a' → (f a).Renamed w (f' a')) :
    (s.modifyScope p f).Renamed w (s'.modifyScope p' f') where
  unique := h.unique
  identities := h.identities
  hidden := h.hidden
  lt_size i i' hi := by
    rw [size_modifyScope, size_modifyScope]
    exact h.lt_size i i' hi
  scopes i i' hi := by
    obtain ⟨hlt, hlt'⟩ := h.lt_size i i' hi
    rw [scope_modifyScope, scope_modifyScope]
    by_cases he : p = i
    · rw [if_pos ⟨he, hlt⟩, if_pos ⟨(h.eq_iff hp hi).1 he, hlt'⟩]
      exact hf _ _ (h.scopes i i' hi)
    · rw [if_neg fun hc => he hc.1, if_neg fun hc => he ((h.eq_iff hp hi).2 hc.1)]
      exact h.scopes i i' hi
  issued := h.issued

/-- New scopes of the same content. -/
theorem push (h : s.Renamed w s') (hw : w ≤ w')
    (hnew : ∀ i i', w'.within True i i' →
      w.within True i i' ∨ i = s.scopes.size ∧ i' = s'.scopes.size)
    (hunique : Relator.BiUnique w'.scope) (hidentity : w'.identity = w.identity)
    (hhidden : ∀ i i', w'.hidden = some (i, i') → (∀ j, ¬ w'.scope i j) ∧ ∀ j, ¬ w'.scope j i')
    {a a' : Scope} (ha : a.Renamed w a') : (s.push a).Renamed w' (s'.push a') where
  unique := hunique
  identities := by
    rw [hidentity]
    exact h.identities
  hidden := hhidden
  lt_size i i' hi := by
    rw [size_push, size_push]
    rcases hnew i i' hi with hi | ⟨rfl, rfl⟩
    · exact (h.lt_size i i' hi).imp Nat.lt_succ_of_lt Nat.lt_succ_of_lt
    · exact ⟨Nat.lt_succ_self _, Nat.lt_succ_self _⟩
  scopes i i' hi := by
    rcases hnew i i' hi with hi | ⟨rfl, rfl⟩
    · obtain ⟨hlt, hlt'⟩ := h.lt_size i i' hi
      rw [scope_push_of_lt s hlt, scope_push_of_lt s' hlt']
      exact (h.scopes i i' hi).mono hw
    · rw [scope_push_self, scope_push_self]
      exact ha.mono hw
  issued i i' hi := h.issued i i' (by rwa [hidentity] at hi)

/-- Whatever happens to other scopes. -/
theorem of_kept (h : s.Renamed w s') {P P' : ScopeId → Prop} (hs : s.KeepsOutside P t)
    (hs' : s'.KeepsOutside P' t') (hP : ∀ i i', w.within True i i' → ¬ P i)
    (hP' : ∀ i i', w.within True i i' → ¬ P' i') : t.Renamed w t' where
  unique := h.unique
  identities := h.identities
  hidden := h.hidden
  lt_size i i' hi := (h.lt_size i i' hi).imp (Nat.lt_of_lt_of_le · hs.size_le)
    (Nat.lt_of_lt_of_le · hs'.size_le)
  scopes i i' hi := by
    obtain ⟨hlt, hlt'⟩ := h.lt_size i i' hi
    rw [hs.scopes i hlt (hP i i' hi), hs'.scopes i' hlt' (hP' i i' hi)]
    exact h.scopes i i' hi
  issued i i' hi := (h.issued i i' hi).imp (Nat.lt_of_lt_of_le · hs.issued_le)
    (Nat.lt_of_lt_of_le · hs'.issued_le)

end Renamed

/-! ## Steps -/

/-- A step of two stores that `w` pairs.  Scopes made by the step are paired after it. -/
structure Moves (w : Renaming) (inside : Prop) (s s' : Store) (w' : Renaming) (t t' : Store) :
    Prop where
  le : w ≤ w'
  hidden : w'.hidden = w.hidden
  renamed : t.Renamed w' t'
  fresh : ∀ i j, w'.scope i j → w.scope i j ∨ s.scopes.size ≤ i ∧ s'.scopes.size ≤ j
  covered : ∀ i, s.scopes.size ≤ i → i < t.scopes.size → ∃ j, w'.scope i j
  left : s.KeepsOutside (w.left inside) t
  right : s'.KeepsOutside (w.right inside) t'

namespace Moves

variable {w w' w'' : Renaming} {inside : Prop} {s s' t t' u u' : Store} {p p' : ScopeId}

theorem refl (h : s.Renamed w s') : Moves w inside s s' w s s' where
  le := w.le_refl
  hidden := rfl
  renamed := h
  fresh _ _ hij := .inl hij
  covered _ hi hi' := absurd hi' (Nat.not_lt.2 hi)
  left := .refl _ s
  right := .refl _ s'

theorem trans (h : Moves w inside s s' w' t t') (h' : Moves w' inside t t' w'' u u') :
    Moves w inside s s' w'' u u' where
  le := Renaming.le_trans h.le h'.le
  hidden := h'.hidden.trans h.hidden
  renamed := h'.renamed
  fresh i j hij := by
    rcases h'.fresh i j hij with hij | hij
    · exact h.fresh i j hij
    · exact .inr (hij.imp (Nat.le_trans h.left.size_le) (Nat.le_trans h.right.size_le))
  covered i hi hi' := by
    by_cases ht : i < t.scopes.size
    · obtain ⟨j, hj⟩ := h.covered i hi ht
      exact ⟨j, h'.le.1 i j hj⟩
    · exact h'.covered i (Nat.not_lt.1 ht) hi'
  left := by
    refine h.left.trans h'.left fun i hi hleft => ?_
    obtain ⟨j, hij | ⟨hin, hij⟩⟩ := hleft
    · rcases h.fresh i j hij with hij | hij
      · exact ⟨j, .inl hij⟩
      · exact absurd hi (Nat.not_lt.2 hij.1)
    · exact ⟨j, .inr ⟨hin, h.hidden ▸ hij⟩⟩
  right := by
    refine h.right.trans h'.right fun j hj hright => ?_
    obtain ⟨i, hij | ⟨hin, hij⟩⟩ := hright
    · rcases h.fresh i j hij with hij | hij
      · exact ⟨i, .inl hij⟩
      · exact absurd hj (Nat.not_lt.2 hij.2)
    · exact ⟨i, .inr ⟨hin, h.hidden ▸ hij⟩⟩

/-- What is done outside the hidden scopes can also be done from inside. -/
theorem enter (h : Moves w False s s' w' t t') (inside : Prop) : Moves w inside s s' w' t t' where
  le := h.le
  hidden := h.hidden
  renamed := h.renamed
  fresh := h.fresh
  covered := h.covered
  left := h.left.mono fun _ hi => hi.imp fun _ hij => hij.imp_right fun hin => hin.1.elim
  right := h.right.mono fun _ hi => hi.imp fun _ hij => hij.imp_right fun hin => hin.1.elim

theorem modifyScope (h : s.Renamed w s') (hp : w.within inside p p') {f f' : Scope → Scope}
    (hf : ∀ a a' : Scope, a.Renamed w a' → (f a).Renamed w (f' a')) :
    Moves w inside s s' w (s.modifyScope p f) (s'.modifyScope p' f') where
  le := w.le_refl
  hidden := rfl
  renamed := h.modifyScope hp.weaken hf
  fresh _ _ hij := .inl hij
  covered i hi hi' := by
    rw [size_modifyScope] at hi'
    exact absurd hi' (Nat.not_lt.2 hi)
  left := .modifyScope s ⟨p', hp⟩ f
  right := .modifyScope s' ⟨p, hp⟩ f'

/-- New functions on both sides. -/
theorem freshIdentity (h : s.Renamed w s') :
    Moves w inside s s' (w.addIdentity s.issued s'.issued) { s with issued := s.issued + 1 }
      { s' with issued := s'.issued + 1 } where
  le := w.le_addIdentity _ _
  hidden := rfl
  renamed :=
    { unique := h.unique
      identities := Renaming.biUnique_add h.identities
        (fun j hj => Nat.lt_irrefl _ (h.issued _ j hj).1)
        fun i hi => Nat.lt_irrefl _ (h.issued i _ hi).2
      hidden := h.hidden
      lt_size := h.lt_size
      scopes := fun i i' hi => (h.scopes i i' hi).mono (w.le_addIdentity _ _)
      issued := by
        rintro i i' (hi | ⟨rfl, rfl⟩)
        · exact (h.issued i i' hi).imp Nat.lt_succ_of_lt Nat.lt_succ_of_lt
        · exact ⟨Nat.lt_succ_self _, Nat.lt_succ_self _⟩ }
  fresh _ _ hij := .inl hij
  covered _ hi hi' := absurd hi' (Nat.not_lt.2 hi)
  left := ⟨Nat.le_refl _, Nat.le_succ _, fun _ _ _ => rfl⟩
  right := ⟨Nat.le_refl _, Nat.le_succ _, fun _ _ _ => rfl⟩

end Moves

/-! ## New scopes -/

section Children

variable {w : Renaming} {s s' : Store} {p p' : ScopeId}

theorem Renamed.not_scope_size (h : s.Renamed w s') :
    (∀ j, ¬ w.scope s.scopes.size j) ∧ ∀ i, ¬ w.scope i s'.scopes.size :=
  ⟨fun j hj => Nat.lt_irrefl _ (h.lt_size _ j (.inl hj)).1,
    fun i hi => Nat.lt_irrefl _ (h.lt_size i _ (.inl hi)).2⟩

/-- A scope without bindings inside scopes that are paired. -/
theorem Renamed.child (h : s.Renamed w s') (hp : w.scope p p') :
    ({ ancestors := s.chain p } : Scope).Renamed w { ancestors := s'.chain p' } where
  ancestors := (h.chain (.inl hp : w.within False p p')).imp fun _ _ hij =>
    hij.resolve_right fun hin => hin.1
  bindings _ := .none

/-- New scopes that are paired from now on. -/
theorem Moves.pushChild (h : s.Renamed w s') (hp : w.scope p p') :
    Moves w False s s' (w.addScope s.scopes.size s'.scopes.size) (s.pushChild p)
      (s'.pushChild p') where
  le := w.le_addScope _ _
  hidden := rfl
  renamed := by
    have hunique := Renaming.biUnique_add h.unique h.not_scope_size.1 h.not_scope_size.2
    refine h.push (w.le_addScope _ _) ?_ hunique rfl ?_ (h.child hp)
    · rintro i i' ((hi | hi) | hi)
      · exact .inl (.inl hi)
      · exact .inr hi
      · exact .inl (.inr hi)
    · intro i i' hi
      have hlt := h.lt_size i i' (.inr ⟨trivial, hi⟩)
      constructor
      · rintro j (hj | ⟨rfl, -⟩)
        · exact (h.hidden i i' hi).1 j hj
        · exact Nat.lt_irrefl _ hlt.1
      · rintro j (hj | ⟨-, rfl⟩)
        · exact (h.hidden i i' hi).2 j hj
        · exact Nat.lt_irrefl _ hlt.2
  fresh i j hij := by
    rcases hij with hij | ⟨rfl, rfl⟩
    · exact .inl hij
    · exact .inr ⟨Nat.le_refl _, Nat.le_refl _⟩
  covered i hi hi' := by
    have hsize : (s.pushChild p).scopes.size = s.scopes.size + 1 := size_push s _
    rw [hsize] at hi'
    exact ⟨_, .inr ⟨Nat.le_antisymm (Nat.le_of_lt_succ hi') hi, rfl⟩⟩
  left := .push s _
  right := .push s' _

/-- New scopes that nothing leads to. -/
theorem Renamed.pushChild_hidden (h : s.Renamed w s') (hp : w.scope p p') :
    (s.pushChild p).Renamed { w with hidden := some (s.scopes.size, s'.scopes.size) }
      (s'.pushChild p') := by
  have hle : w ≤ { w with hidden := some (s.scopes.size, s'.scopes.size) } :=
    ⟨fun _ _ => id, fun _ _ => id⟩
  refine h.push hle ?_ h.unique rfl ?_ (h.child hp)
  · rintro i i' (hi | ⟨-, hi⟩)
    · exact .inl (.inl hi)
    · rw [Option.some.injEq, Prod.mk.injEq] at hi
      exact .inr ⟨hi.1.symm, hi.2.symm⟩
  · intro i i' hi
    rw [Option.some.injEq, Prod.mk.injEq] at hi
    obtain ⟨rfl, rfl⟩ := hi
    exact h.not_scope_size

end Children

/-! ## Operations on names -/

section Operations

variable {w : Renaming} {inside : Prop} {s s' : Store} {p p' : ScopeId} {v v' : Value}

theorem Renamed.declare (h : s.Renamed w s') (hp : w.within inside p p') (name : String)
    (hv : v.Renamed w v') (constant : Bool) :
    SameExcept (fun t t' => Moves w inside s s' w t t') (s.declare p name v constant)
      (s'.declare p' name v' constant) := by
  unfold Store.declare
  rw [h.hasOwn_eq hp name]
  split
  · exact .error _
  · exact .ok (.modifyScope h hp fun _ _ ha => ha.bind name hv constant)

theorem Renamed.assign (h : s.Renamed w s') (hp : w.within inside p p') (name : String)
    (hv : v.Renamed w v') :
    SameExcept (fun t t' => Moves w inside s s' w t t') (s.assign p name v)
      (s'.assign p' name v') := by
  unfold Store.assign
  have howner := h.owner? hp name
  generalize s.owner? p name = o at howner ⊢
  generalize s'.owner? p' name = o' at howner ⊢
  cases howner with
  | none => exact .error _
  | @some i i' hi =>
    have hconst : ((s.scope i).find? name).any (·.constant) =
        ((s'.scope i').find? name).any (·.constant) := by
      have hname := (h.scopes i i' hi.weaken).bindings name
      generalize (s.scope i).find? name = x at hname ⊢
      generalize (s'.scope i').find? name = x' at hname ⊢
      cases hname with
      | none => rfl
      | some hb => exact hb.constant
    dsimp only
    rw [hconst]
    split
    · exact .error _
    · exact .ok (.modifyScope h hi fun _ _ ha => ha.replace name hv)

end Operations

end Store

end ScopeScript
