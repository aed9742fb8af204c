import ScopeScript.Proofs.Scoping.LexicallyClosed
import ScopeScript.Proofs.Store.Extends

/-!
# Well-scoped values and stores

A function is well scoped if its body uses only its parameters and names that the scope of its
declaration sees.  A value is well scoped if every function in it is and no native function in it
belongs to the embedding program; a store is, from the scope `base` on, if it holds only such values
there and no scope from `base` on lies inside one before it.

Scopes lose no names, so what is well scoped stays so while the store grows (`WellScoped.mono`).
-/

namespace ScopeScript

/-! ## Visible names -/

namespace Store

/-- Some scope of the chain of `i` binds the name. -/
def Sees (s : Store) (i : ScopeId) (name : String) : Prop := ∃ j ∈ s.chain i, s.hasOwn j name

theorem Sees.of_hasOwn {s : Store} {i : ScopeId} {name : String} (h : s.hasOwn i name) :
    s.Sees i name :=
  ⟨i, List.mem_cons_self, h⟩

theorem Sees.lt_size {s : Store} {i : ScopeId} {name : String} (h : s.Sees i name) :
    i < s.scopes.size := by
  by_cases hi : i < s.scopes.size
  · exact hi
  · obtain ⟨j, hj, hb⟩ := h
    have he := s.scope_of_size_le (Nat.not_lt.1 hi)
    simp only [chain, he, List.mem_singleton] at hj
    subst hj
    unfold hasOwn at hb
    rw [he] at hb
    cases hb

theorem Grows.binds {s t : Store} (h : s.Grows t) {i : ScopeId} {name : String}
    (hb : s.hasOwn i name) : t.hasOwn i name := by
  by_cases hi : i < s.scopes.size
  · obtain ⟨gained, he⟩ := h.scopes i hi
    exact he.binds hb
  · unfold hasOwn at hb
    rw [s.scope_of_size_le (Nat.not_lt.1 hi)] at hb
    cases hb

theorem Sees.mono {s t : Store} (hg : s.Grows t) {i : ScopeId} {name : String}
    (h : s.Sees i name) : t.Sees i name := by
  obtain ⟨gained, he⟩ := hg.scopes i h.lt_size
  obtain ⟨j, hj, hb⟩ := h
  refine ⟨j, ?_, hg.binds hb⟩
  unfold chain at *
  rwa [he.ancestors]

/-- A name that is seen has an owner in the chain, which binds it. -/
theorem Sees.resolve {s : Store} {i : ScopeId} {name : String} (h : s.Sees i name) :
    ∃ j ∈ s.chain i, ∃ b ∈ (s.scope j).bindings,
      s.owner? i name = some j ∧ (s.scope j).find? name = some b := by
  obtain ⟨k, hk, hb⟩ := h
  have ho : (s.owner? i name).isSome := by
    unfold owner?
    rw [List.find?_isSome]
    exact ⟨k, hk, hb⟩
  obtain ⟨j, hj⟩ := Option.isSome_iff_exists.1 ho
  have hown : s.hasOwn j name := by
    have := List.find?_some hj
    exact this
  obtain ⟨b, hf⟩ := Option.isSome_iff_exists.1 ((Scope.binds_iff_find? _ _).1 hown)
  exact ⟨j, List.mem_of_find?_eq_some hj, b, Scope.mem_bindings_of_find? hf, hj, hf⟩

end Store

/-! ## Values -/

/-- The body uses parameters and names that the scope of the declaration sees. -/
def Closure.WellScoped (s : Store) (base : ScopeId) (f : Closure) : Prop :=
  base ≤ f.scope ∧ ∃ names, Stmt.allClosedIn names f.body = true ∧
    ∀ x ∈ names, x ∈ f.params ∨ s.Sees f.scope x

mutual

def Value.WellScoped (s : Store) (base : ScopeId) : Value → Prop
  | .object ⟨entries⟩ => Value.EntriesWellScoped s base entries
  | .function f => f.WellScoped s base
  | .native n => ∀ key, n.op ≠ .hosted key
  | _ => True

def Value.EntriesWellScoped (s : Store) (base : ScopeId) : List (String × Value) → Prop
  | [] => True
  | (_, v) :: entries => v.WellScoped s base ∧ Value.EntriesWellScoped s base entries

end

section Values

variable {s t : Store} {base : ScopeId}

theorem Closure.WellScoped.mono (hg : s.Grows t) {f : Closure} (h : f.WellScoped s base) :
    f.WellScoped t base := by
  obtain ⟨hb, names, hc, hn⟩ := h
  exact ⟨hb, names, hc, fun x hx => (hn x hx).imp_right fun hs => hs.mono hg⟩

mutual

theorem Value.WellScoped.mono (hg : s.Grows t) {v : Value} (h : v.WellScoped s base) :
    v.WellScoped t base := by
  match v with
  | .object ⟨entries⟩ =>
    have hentries : Value.EntriesWellScoped s base entries := h
    exact Value.EntriesWellScoped.mono hg hentries
  | .function f => exact Closure.WellScoped.mono hg h
  | .native n => exact h
  | .null => trivial
  | .number _ => trivial
  | .boolean _ => trivial
  | .string _ => trivial

theorem Value.EntriesWellScoped.mono (hg : s.Grows t) {entries : List (String × Value)}
    (h : Value.EntriesWellScoped s base entries) : Value.EntriesWellScoped t base entries := by
  match entries with
  | [] => trivial
  | (_, v) :: rest => exact ⟨Value.WellScoped.mono hg h.1, Value.EntriesWellScoped.mono hg h.2⟩

end

theorem Value.entriesWellScoped_iff (entries : List (String × Value)) :
    Value.EntriesWellScoped s base entries ↔ ∀ e ∈ entries, e.2.WellScoped s base := by
  induction entries with
  | nil => simp [Value.EntriesWellScoped]
  | cons e entries ih =>
    obtain ⟨k, v⟩ := e
    simp [Value.EntriesWellScoped, ih]

/-- An object made of well-scoped values. -/
theorem Value.wellScoped_ofList {pairs : List (String × Value)}
    (h : ∀ p ∈ pairs, p.2.WellScoped s base) :
    (Value.object (.ofList pairs)).WellScoped s base := by
  refine (Value.entriesWellScoped_iff (Record.ofList pairs).entries).2 fun e he => ?_
  obtain ⟨p, hp, heq⟩ := Record.exists_mem_of_mem_ofList he
  exact heq ▸ h p hp

/-- A property that is missing reads as null. -/
theorem Value.wellScoped_get {o : Record Value} (h : (Value.object o).WellScoped s base)
    (key : String) : ((o.get? key).getD .null).WellScoped s base := by
  cases hv : o.get? key with
  | none => trivial
  | some v =>
    obtain ⟨e, he, rfl⟩ := Record.exists_mem_of_get? hv
    exact (Value.entriesWellScoped_iff o.entries).1 h e he

end Values

/-! ## Stores -/

/-- From `base` on, scopes lie inside each other only, and hold well-scoped values. -/
structure Store.WellScoped (s : Store) (base : ScopeId) : Prop where
  base_le : base ≤ s.scopes.size
  ancestors : ∀ i, base ≤ i → ∀ j ∈ (s.scope i).ancestors, base ≤ j
  values : ∀ i, base ≤ i → ∀ b ∈ (s.scope i).bindings, b.value.WellScoped s base

namespace Store.WellScoped

variable {s t : Store} {base : ScopeId}

theorem chain (h : s.WellScoped base) {i : ScopeId} (hi : base ≤ i) {j : ScopeId}
    (hj : j ∈ s.chain i) : base ≤ j := by
  rcases List.mem_cons.1 hj with rfl | hj
  · exact hi
  · exact h.ancestors i hi j hj

/-- A name that is seen reads as a well-scoped value. -/
theorem lookup (h : s.WellScoped base) {i : ScopeId} (hi : base ≤ i) {name : String}
    (hs : s.Sees i name) : ∃ v, s.lookup i name = .ok v ∧ v.WellScoped s base := by
  obtain ⟨j, hj, b, hb, ho, hf⟩ := hs.resolve
  refine ⟨b.value, ?_, h.values j (h.chain hi hj) b hb⟩
  unfold Store.lookup Store.resolve?
  rw [ho, Option.bind_some, hf]

/-- A change of one scope that keeps its ancestors and brings in well-scoped values only. -/
theorem modifyScope (h : s.WellScoped base) {j : ScopeId} {f : Scope → Scope}
    (hg : s.Grows (s.modifyScope j f)) (ha : ∀ a, (f a).ancestors = a.ancestors)
    (hv : ∀ a, ∀ b ∈ (f a).bindings,
      b.value ∈ a.bindings.map (·.value) ∨ b.value.WellScoped (s.modifyScope j f) base) :
    (s.modifyScope j f).WellScoped base where
  base_le := by
    rw [size_modifyScope]
    exact h.base_le
  ancestors i hi k hk := by
    rw [scope_modifyScope] at hk
    split at hk
    · rw [ha] at hk
      exact h.ancestors i hi k hk
    · exact h.ancestors i hi k hk
  values i hi b hb := by
    rw [scope_modifyScope] at hb
    split at hb
    · rcases hv _ b hb with hm | hw
      · obtain ⟨b', hb', he⟩ := List.mem_map.1 hm
        rw [← he]
        exact (h.values i hi b' hb').mono hg
      · exact hw
    · exact (h.values i hi b hb).mono hg

/-- A scope inside one from `base` on, without names of its own. -/
theorem pushChild (h : s.WellScoped base) {parent : ScopeId} (hp : base ≤ parent) :
    (s.pushChild parent).WellScoped base := by
  have hg : s.Grows (s.pushChild parent) := .of_kept (.push s _ (Nat.le_refl _))
  have hscope (i : ScopeId) : (s.pushChild parent).scope i = s.scope i ∨
      (s.pushChild parent).scope i = { ancestors := s.chain parent } := by
    rcases Nat.lt_trichotomy i s.scopes.size with hi | rfl | hi
    · exact .inl (scope_push_of_lt s hi)
    · exact .inr (scope_push_self s _)
    · rw [s.scope_of_size_le (Nat.le_of_lt hi)]
      refine .inl (scope_of_size_le _ ?_)
      rw [Store.pushChild, size_push]
      exact hi
  refine ⟨Nat.le_trans h.base_le hg.size_le, fun i hi j hj => ?_, fun i hi b hb => ?_⟩
  · rcases hscope i with he | he
    · rw [he] at hj
      exact h.ancestors i hi j hj
    · rw [he] at hj
      exact h.chain hp hj
  · rcases hscope i with he | he
    · rw [he] at hb
      exact (h.values i hi b hb).mono hg
    · rw [he] at hb
      cases hb

end Store.WellScoped

end ScopeScript
