import ScopeScript.Proofs.Store.Writes

/-!
# Stores that only grow

`a.Extends b gained` compares a scope before and after: it stands where it stood, every name that
it bound is still bound with the same mark, a constant has the same value, and the names that it
binds anew are exactly those of `gained`, with their marks.

    s.Kept t                 every scope of s is still there and gained nothing
    s.Extends t env gained   the scope env gained those names, the other scopes nothing
    s.Grows t                every scope may have gained names
-/

namespace ScopeScript

/-! ## Scopes -/

/-- `b` is what became of `a`; `gained` are the names bound since, each with its mark. -/
structure Scope.Extends (a b : Scope) (gained : List (String × Bool)) : Prop where
  ancestors : b.ancestors = a.ancestors
  /-- A name stays bound and keeps its mark; a constant keeps its value. -/
  keeps : ∀ name x, a.find? name = some x →
    ∃ y, b.find? name = some y ∧ y.constant = x.constant ∧ (x.constant = true → y.value = x.value)
  gains : ∀ name constant, (name, constant) ∈ gained ↔
    a.find? name = none ∧ (b.find? name).map (·.constant) = some constant

namespace Scope.Extends

variable {a b c : Scope} {gained gained' : List (String × Bool)}

theorem refl (a : Scope) : a.Extends a [] where
  ancestors := rfl
  keeps _ x h := ⟨x, h, rfl, fun _ => rfl⟩
  gains name constant := by
    constructor
    · intro h
      cases h
    · rintro ⟨h, h'⟩
      rw [h] at h'
      cases h'

theorem trans (h : a.Extends b gained) (h' : b.Extends c gained') :
    a.Extends c (gained ++ gained') where
  ancestors := h'.ancestors.trans h.ancestors
  keeps name x hx := by
    obtain ⟨y, hy, hyc, hyv⟩ := h.keeps name x hx
    obtain ⟨z, hz, hzc, hzv⟩ := h'.keeps name y hy
    refine ⟨z, hz, hzc.trans hyc, fun hc => ?_⟩
    rw [hzv (hyc.trans hc), hyv hc]
  gains name constant := by
    rw [List.mem_append, h.gains, h'.gains]
    cases ha : a.find? name with
    | some x =>
      obtain ⟨y, hy, -⟩ := h.keeps name x ha
      simp [hy]
    | none =>
      cases hb : b.find? name with
      | none => simp
      | some y =>
        obtain ⟨z, hz, hzc, -⟩ := h'.keeps name y hb
        simp [hz, hzc]

/-- What was bound is bound. -/
theorem binds (h : a.Extends b gained) {name : String} (ha : a.binds name) : b.binds name := by
  obtain ⟨x, hx⟩ := Option.isSome_iff_exists.1 ((binds_iff_find? a name).1 ha)
  obtain ⟨y, hy, -⟩ := h.keeps name x hx
  rw [binds_iff_find?, hy]
  rfl

end Scope.Extends

namespace Scope

/-- Assigning a variable that is no constant. -/
theorem extends_replace (a : Scope) (name : String) (value : Value)
    (h : ∀ b, a.find? name = some b → b.constant = false) :
    a.Extends (a.replace name value) [] where
  ancestors := rfl
  keeps other x hx := by
    by_cases hn : other = name
    · subst hn
      refine ⟨if x.name = other then { x with value } else x, by rw [find?_replace, hx]; rfl,
        ?_, ?_⟩
      · split <;> rfl
      · intro hc
        rw [h x hx] at hc
        cases hc
    · exact ⟨x, by rw [find?_replace_of_ne a value hn, hx], rfl, fun _ => rfl⟩
  gains other constant := by
    rw [find?_replace]
    cases a.find? other <;> simp

/-- Declaring a name that is not bound yet. -/
theorem extends_bind (a : Scope) (b : Binding) (h : a.binds b.name = false) :
    a.Extends (a.bind b) [(b.name, b.constant)] where
  ancestors := rfl
  keeps name x hx := by
    have hne : b.name ≠ name := by
      rintro rfl
      rw [(find?_eq_none_iff a b.name).2 h] at hx
      cases hx
    exact ⟨x, by rw [find?_bind_of_ne a b hne, hx], rfl, fun _ => rfl⟩
  gains name constant := by
    by_cases hn : b.name = name
    · subst hn
      rw [find?_bind_self, (find?_eq_none_iff a b.name).2 h]
      simp [eq_comm]
    · rw [find?_bind_of_ne a b hn]
      have hn' : ¬ name = b.name := fun e => hn e.symm
      cases a.find? name <;> simp [hn']

end Scope

/-! ## Stores -/

namespace Store

/-- The first `k` scopes gained nothing. -/
structure KeptBelow (k : Nat) (s t : Store) : Prop where
  size_le : s.scopes.size ≤ t.scopes.size
  scopes : ∀ i, i < k → (s.scope i).Extends (t.scope i) []

/-- Every scope of `s` is still there and gained nothing. -/
def Kept (s t : Store) : Prop := KeptBelow s.scopes.size s t

/-- The scope `env` gained the names `gained`, the other scopes nothing. -/
structure Extends (s t : Store) (env : ScopeId) (gained : List (String × Bool)) : Prop where
  size_le : s.scopes.size ≤ t.scopes.size
  scopes : ∀ i, i < s.scopes.size → (s.scope i).Extends (t.scope i) (if i = env then gained else [])

namespace KeptBelow

variable {k : Nat} {s t u : Store}

theorem refl (k : Nat) (s : Store) : KeptBelow k s s :=
  ⟨Nat.le_refl _, fun i _ => .refl (s.scope i)⟩

theorem trans (h : KeptBelow k s t) (h' : KeptBelow k t u) : KeptBelow k s u :=
  ⟨Nat.le_trans h.size_le h'.size_le, fun i hi => (h.scopes i hi).trans (h'.scopes i hi)⟩

/-- A change of one scope that gains it nothing. -/
theorem modifyScope (k : Nat) (s : Store) (j : ScopeId) (f : Scope → Scope)
    (h : j < k → (s.scope j).Extends (f (s.scope j)) []) : KeptBelow k s (s.modifyScope j f) where
  size_le := Nat.le_of_eq (size_modifyScope s j f).symm
  scopes i hi := by
    rw [scope_modifyScope]
    split
    · next hc => exact hc.1 ▸ h (hc.1 ▸ hi)
    · exact .refl _

theorem push (s : Store) (scope : Scope) (hk : k ≤ s.scopes.size) :
    KeptBelow k s (s.push scope) where
  size_le := by
    rw [size_push]
    exact Nat.le_succ _
  scopes i hi := by
    rw [scope_push_of_lt s (Nat.lt_of_lt_of_le hi hk)]
    exact .refl _

end KeptBelow

namespace Extends

variable {s t u : Store} {env : ScopeId} {gained gained' : List (String × Bool)}

theorem of_kept (h : s.Kept t) (env : ScopeId) : s.Extends t env [] :=
  ⟨h.size_le, fun i hi => by
    rw [ite_self]
    exact h.scopes i hi⟩

theorem trans (h : s.Extends t env gained) (h' : t.Extends u env gained') :
    s.Extends u env (gained ++ gained') where
  size_le := Nat.le_trans h.size_le h'.size_le
  scopes i hi := by
    have key := (h.scopes i hi).trans (h'.scopes i (Nat.lt_of_lt_of_le hi h.size_le))
    by_cases he : i = env
    · simpa [he] using key
    · simpa [he] using key

/-- A declaration that succeeds adds its name to its scope and nothing else. -/
theorem of_declare {name : String} {value : Value} {constant : Bool}
    (h : s.declare env name value constant = .ok t) : s.Extends t env [(name, constant)] := by
  obtain ⟨hb, rfl⟩ := declare_eq_ok_iff.1 h
  refine ⟨Nat.le_of_eq (size_modifyScope s env _).symm, fun i hi => ?_⟩
  by_cases he : i = env
  · subst he
    rw [if_pos rfl, scope_modifyScope_self s _ hi]
    exact (s.scope i).extends_bind ⟨name, value, constant⟩ hb
  · rw [if_neg he, scope_modifyScope_of_ne s _ (Ne.symm he)]
    exact .refl _

end Extends

/-- Every scope of `s` is still there; each may have gained names. -/
structure Grows (s t : Store) : Prop where
  size_le : s.scopes.size ≤ t.scopes.size
  scopes : ∀ i, i < s.scopes.size → ∃ gained, (s.scope i).Extends (t.scope i) gained

namespace Grows

variable {s t u : Store}

theorem of_kept (h : s.Kept t) : s.Grows t := ⟨h.size_le, fun i hi => ⟨[], h.scopes i hi⟩⟩

theorem of_extends {env : ScopeId} {gained : List (String × Bool)} (h : s.Extends t env gained) :
    s.Grows t := ⟨h.size_le, fun i hi => ⟨_, h.scopes i hi⟩⟩

theorem refl (s : Store) : s.Grows s := of_kept (.refl _ s)

theorem trans (h : s.Grows t) (h' : t.Grows u) : s.Grows u := by
  refine ⟨Nat.le_trans h.size_le h'.size_le, fun i hi => ?_⟩
  obtain ⟨gained, hst⟩ := h.scopes i hi
  obtain ⟨gained', htu⟩ := h'.scopes i (Nat.lt_of_lt_of_le hi h.size_le)
  exact ⟨gained ++ gained', hst.trans htu⟩

end Grows

end Store

end ScopeScript
