import ScopeScript.Proofs.Fresh.Start

/-!
# Bindings that a program does not mention

An embedding program may declare more in a global scope than a program asks for.  If the program
mentions none of these names, then it does in that scope, and in a scope inside it, what it does
without them, whatever their values are: `Program.overlooks`.  The bindings stay as they are.

The two runs number scopes and functions differently.  Those of the machine `m` come first on the
one side, so all other numbers are larger there by the same amount (`Renaming.after`).
-/

namespace ScopeScript

/-! ## Declarations in turn -/

namespace Store

/-- Declares the bindings in turn.  A name that is bound already is left alone. -/
def declareEach (s : Store) (i : ScopeId) : List Binding → Store
  | [] => s
  | b :: bs =>
    match s.declare i b.name b.value b.constant with
    | .ok s' => s'.declareEach i bs
    | .error _ => s.declareEach i bs

section

variable {s s' : Store} {i : ScopeId} {bs : List Binding}

theorem declareEach_cons (s : Store) (i : ScopeId) (b : Binding) (bs : List Binding) :
    s.declareEach i (b :: bs) =
      (if s.hasOwn i b.name then s else s.modifyScope i (·.bind b)).declareEach i bs := by
  rw [declareEach, declare]
  by_cases hown : s.hasOwn i b.name
  · rw [if_pos hown, if_pos hown]
  · rw [if_neg hown, if_neg hown]

theorem size_declareEach (s : Store) (i : ScopeId) (bs : List Binding) :
    (s.declareEach i bs).scopes.size = s.scopes.size := by
  induction bs generalizing s with
  | nil => rfl
  | cons b bs ih =>
    rw [declareEach_cons, ih]
    split
    · rfl
    · exact size_modifyScope s i _

/-- What was bound before stays, and of new bindings of one name the first one counts. -/
theorem find?_declareEach (h : i < s.scopes.size) (bs : List Binding) (name : String) :
    ((s.declareEach i bs).scope i).find? name =
      ((s.scope i).find? name).or (bs.find? (·.name == name)) := by
  induction bs generalizing s with
  | nil => exact (Option.or_none).symm
  | cons b bs ih =>
    rw [declareEach_cons, List.find?_cons]
    by_cases hown : s.hasOwn i b.name
    · rw [if_pos hown, ih h]
      by_cases hn : b.name = name
      · obtain ⟨old, hold⟩ := Option.isSome_iff_exists.1 ((Scope.binds_iff_find? _ _).1 hown)
        rw [← hn, hold, Option.some_or, Option.some_or]
      · rw [beq_false_of_ne hn]
    · have hbound : (s.modifyScope i (·.bind b)).scope i = (s.scope i).bind b :=
        scope_modifyScope_self s _ h
      rw [if_neg hown, ih (size_modifyScope s i _ ▸ h), hbound]
      by_cases hn : b.name = name
      · have hnone := (Scope.find?_eq_none_iff _ _).2 (Bool.eq_false_iff.2 hown)
        rw [← hn, hnone, Scope.find?_bind_self, beq_self_eq_true, Option.some_or, Option.none_or]
      · rw [beq_false_of_ne hn, Scope.find?_bind_of_ne _ b hn]

/-- Stores stay alike if the names are fresh. -/
theorem Alike.declareEach {w : Renaming} {fresh : List String} (h : s.Alike w fresh s')
    (hbs : ∀ b ∈ bs, b.name ∈ fresh) : (s.declareEach i bs).Alike w fresh s' := by
  induction bs generalizing s with
  | nil => exact h
  | cons b bs ih =>
    have hbs := List.forall_mem_cons.1 hbs
    rw [declareEach_cons]
    split
    · exact ih h hbs.2
    · refine ih (h.modifyScope_left i (fun _ => rfl) fun a name hn => ?_) hbs.2
      exact Scope.find?_bind_of_ne a b fun e => hn (e ▸ hbs.1)

end

end Store

/-! ## Where the runs begin -/

/-- Numbers that are given out after those of `s` stand for the same ones counted from zero. -/
def Renaming.after (s : Store) : Renaming where
  scope i j := i = s.scopes.size + j
  identity i j := i = s.issued + j

theorem Renaming.after_unique (s : Store) : Relator.BiUnique (after s).scope :=
  ⟨fun _ _ _ hi hj => hi.trans hj.symm, fun _ _ _ hi hj => Nat.add_left_cancel (hi.symm.trans hj)⟩

theorem Renaming.global_le_after (s : Store) : global s {} ≤ after s := by
  constructor
  · rintro i j ⟨rfl, rfl⟩
    rfl
  · rintro i j ⟨k, -, rfl, rfl⟩
    show s.issued + k = s.issued + (0 + k)
    rw [Nat.zero_add]

/-- The next global scope of any machine is like that of a machine without other scopes. -/
theorem Store.pushGlobal_alike (s : Store) (fresh : List String) :
    s.pushGlobal.Alike (.after s) fresh Script.singleGlobal.store where
  unique := Renaming.after_unique s
  lt_size_iff := by
    rintro _ j rfl
    rw [size_pushGlobal]
    exact Nat.add_lt_add_iff_left
  scopes := by
    rintro _ j rfl
    cases j with
    | zero =>
      have hrenamed := ((s.pushGlobal_renamed {}).scopes s.scopes.size 0 (.inl ⟨rfl, rfl⟩)).mono
        (Renaming.global_le_after s)
      exact ⟨hrenamed.ancestors, fun name _ => hrenamed.bindings name⟩
    | succ j =>
      have hle : s.pushGlobal.scopes.size ≤ s.scopes.size + (j + 1) := by
        rw [size_pushGlobal]
        exact Nat.add_le_add_left (Nat.le_add_left 1 j) _
      rw [scope_of_size_le _ hle, scope_of_size_le _ (Nat.le_add_left 1 j)]
      exact ⟨.nil, fun _ _ => .none⟩
  next k := by
    show s.pushGlobal.scopes.size + k = s.scopes.size + (1 + k)
    rw [size_pushGlobal, Nat.add_assoc]
  next_identity k := Nat.add_assoc s.issued NativeOp.standard.length k
  avoids := Script.singleGlobal_avoids fresh

/-- A machine with one more global scope, in which the bindings are declared.  Nothing was printed
yet. -/
def Machine.withGlobal (m : Machine) (extras : List Binding) : Machine where
  store := m.store.pushGlobal.declareEach m.store.scopes.size extras
  held := m.held

theorem Machine.withGlobal_alike (m : Machine) (extras : List Binding) :
    (m.withGlobal extras).Alike (.after m.store) (extras.map (·.name)) (m.withGlobal extras).store
      Script.singleGlobal where
  stores := (m.store.pushGlobal_alike _).declareEach fun _ => List.mem_map_of_mem
  spares := .refl _ _ _
  output := rfl

/-! ## Programs -/

/-- What `c` does in a global scope with more bindings is what it does without them, and it leaves
the bindings as they are. -/
structure Eval.Overlooks (extras : List Binding) (m : Machine) (c : ScopeId → Eval Value) : Prop
    where
  alike : Script.EndsAlike (.after m.store) (extras.map (·.name))
    ((c m.store.scopes.size).finish (m.withGlobal extras)) ((c 0).finish Script.singleGlobal)
  kept : ∀ b ∈ extras, (((c m.store.scopes.size).finish (m.withGlobal extras)).2.store.scope
    m.store.scopes.size).find? b.name = extras.find? (·.name == b.name)

theorem Eval.Overlooks.of_follows {extras : List Binding} {m : Machine} {c : ScopeId → Eval Value}
    (hbuiltin : ∀ b ∈ extras, b.name ∉ builtinNames)
    (h : FollowsValue (.after m.store) (extras.map (·.name)) (m.withGlobal extras).store
      (c m.store.scopes.size) (c 0)) : Overlooks extras m c := by
  have hends := h _ _ (m.withGlobal_alike extras)
  refine ⟨.of_endsAlike hends, fun b hb => ?_⟩
  have hsize : m.store.scopes.size < m.store.pushGlobal.scopes.size :=
    Nat.lt_of_lt_of_eq (Nat.lt_succ_self _) m.store.size_pushGlobal.symm
  have hspares := hends.finish.2.spares.bindings m.store.scopes.size b.name
    (Nat.lt_of_lt_of_eq hsize (Store.size_declareEach _ _ _).symm)
    (.inl (List.mem_map_of_mem hb))
  rw [hspares]
  show ((m.store.pushGlobal.declareEach m.store.scopes.size extras).scope _).find? b.name = _
  rw [Store.find?_declareEach hsize, m.store.find?_pushGlobal_eq_none (hbuiltin b hb),
    Option.none_or]

/-- A program that mentions none of the names overlooks the bindings, whatever their values are, in
the scope where they were declared and in a new scope inside it. -/
theorem Program.overlooks (setting : Setting) (program : Program) (m : Machine)
    {extras : List Binding} (hprogram : ∀ b ∈ extras, b.name ∉ Stmt.allNames program)
    (hbuiltin : ∀ b ∈ extras, b.name ∉ builtinNames) :
    Eval.Overlooks extras m (program.run setting) ∧
      Eval.Overlooks extras m fun scope => Eval.child scope >>= program.run setting := by
  have hdisjoint : (Stmt.allNames program).Disjoint (extras.map (·.name)) := by
    intro name hmem hname
    obtain ⟨b, hb, rfl⟩ := List.mem_map.1 hname
    exact hprogram b hb hmem
  have hrun {p p' : ScopeId} (hp : (Renaming.after m.store).scope p p') :
      Eval.FollowsValue (.after m.store) (extras.map (·.name)) (m.withGlobal extras).store
        (program.run setting p) (program.run setting p') :=
    Eval.stmts_follow (Eval.callsWithin_follow _ _ _ setting.host setting.depth) hp
      ⟨.null, trivial⟩ program hdisjoint
  have hroot : (Renaming.after m.store).scope m.store.scopes.size 0 := rfl
  exact ⟨.of_follows hbuiltin (hrun hroot),
    .of_follows hbuiltin ((Eval.child_follows hroot).bind fun _ _ => hrun)⟩

/-- A property of the name `secret` is no mention of a variable. -/
def Program.readingSecret : Program :=
  let member : Expr := .dot (.object [.field "secret" (.string "a" 2) 2] 2) (.name "secret" 2) 2
  [.function "same" ["x"] [.expr (.name "x" 1) 1] 1,
    .expr (.call (.name "print" 2) [.call (.name "same" 2) [member] 2] 2) 2]

/-- A constant, and a function that reads it in the second scope. -/
def secretBindings : List Binding :=
  [⟨"secret", .string "s", true⟩,
    ⟨"spy", .function ⟨9, "spy", [], [.expr (.name "secret" 1) 1], 1⟩, false⟩]

theorem Program.readingSecret_overlooks :
    Eval.Overlooks secretBindings Script.singleGlobal (readingSecret.run { depth := 2 }) ∧
      ((readingSecret.run { depth := 2 } 1).finish
        (Script.singleGlobal.withGlobal secretBindings)).2.output = #["a"] :=
  ⟨(Program.overlooks { depth := 2 } readingSecret Script.singleGlobal (by decide) (by decide)).1,
    rfl⟩

end ScopeScript
