import ScopeScript.Proofs.Eval.Hosts
import ScopeScript.Proofs.Separation.Reach

/-!
# Calls do not disturb the activations that wait for them

Nothing leads to the frame of a call until a function is declared in it.  So none of the calls that
are made before, at whatever depth, changes the bindings of the frame: a run that is stopped at the
first call that does is the run itself (`function_sparing`).
-/

namespace ScopeScript.Eval

variable {α β : Type}

open Classical in
/-- Stops a computation that does not leave the scope `F` as it was. -/
noncomputable def sparing (F : ScopeId) (c : Eval α) : Eval α := fun m =>
  if (machineAfter (c m)).store.scope F = m.store.scope F then c m
  else .error .depth (machineAfter (c m))

/-- Calls nested at most `n` deep, each of which must leave the scope `F` as it was.  There are no
functions of the embedding program. -/
noncomputable def callsSparing (F : ScopeId) : Nat → Calls
  | 0 => callsWithin Host.stopping 0
  | n + 1 =>
    { function := fun opts f arguments line =>
        sparing F (Eval.function (callsSparing F n) opts f arguments line)
      native := (callsWithin Host.stopping (n + 1)).native }

theorem sparing_of_eq {F : ScopeId} {c : Eval α} {m : Machine}
    (h : (machineAfter (c m)).store.scope F = m.store.scope F) : sparing F c m = c m :=
  if_pos h

theorem sparing_approximates (F : ScopeId) (c : Eval α) : Approximates (sparing F c) c := by
  intro m
  by_cases h : (machineAfter (c m)).store.scope F = m.store.scope F
  · exact .inl (sparing_of_eq h)
  · exact .inr ⟨_, if_neg h⟩

theorem Approximates.trans {c d e : Eval α} (h : Approximates c d) (h' : Approximates d e) :
    Approximates c e := by
  intro m
  rcases h m with hc | hc
  · rw [hc]
    exact h' m
  · exact .inr hc

theorem callsSparing_approximate (F : ScopeId) (host : Host) (n : Nat) :
    CallsApproximate (callsSparing F n) (callsWithin host n) := by
  induction n with
  | zero => exact callsWithin_approximate host (Nat.le_refl 0)
  | succ n ih =>
    refine ⟨fun opts f arguments line => ?_,
      (callsWithin_approximate host (Nat.le_refl (n + 1))).native⟩
    exact (sparing_approximates F _).trans (ih.functionCall opts f arguments line)

/-- Outside the hidden scopes nothing changes them. -/
theorem Mirrors.sparing {w : Renaming} {F F' : ScopeId} (hw : w.hidden = some (F, F'))
    {V : Renaming → α → β → Prop} {c : Eval α} {d : Eval β} {m m' : Machine}
    (hs : m.store.Renamed w m'.store) (h : Mirrors w False V c d m m') :
    Mirrors w False V (Eval.sparing F c) d m m' := by
  have hkept {w' : Renaming} {n n' : Machine} (hm : Moves w False m m' w' n n') :
      n.store.scope F = m.store.scope F := by
    refine hm.stores.left.scopes F (hs.lt_size F F' (.inr ⟨trivial, hw⟩)).1 ?_
    rintro ⟨j, hj | ⟨hin, -⟩⟩
    · exact (hs.hidden F F' hw).1 j hj
    · exact hin
  rcases h.ends with ⟨a, n, b, n', w₁, hc, hd, hmoves, hv⟩ | ⟨e, n, n', w₁, hc, hd, hmoves⟩
  · have hsame : Eval.sparing F c m = c m := sparing_of_eq (by rw [hc]; exact hkept hmoves)
    exact .of_ok (hsame.trans hc) hd hmoves hv
  · have hsame : Eval.sparing F c m = c m := sparing_of_eq (by rw [hc]; exact hkept hmoves)
    exact .of_error (hsame.trans hc) hd hmoves

theorem callsSparing_mirror (F F' : ScopeId) (host : Host) (n : Nat) :
    CallsMirror (some (F, F')) (callsSparing F n) (callsWithin host n) := by
  induction n with
  | zero =>
    exact ⟨fun _ _ _ _ _ _ _ _ _ _ hs _ _ => .throw hs _, fun _ _ _ _ _ _ _ _ _ _ hs _ => .throw hs _⟩
  | succ n ih =>
    refine ⟨fun opts f f' arguments arguments' line w m m' hw hs hf ha => ?_,
      fun op arguments arguments' scope scope' w m m' hop hw hs ha =>
        native_mirrors Host.stopping host _ _ hop hs ha scope scope'⟩
    exact (function_mirrors ih hw hs hf ha line).sparing hw hs

/-- A call of a function whose body declares no functions: every call that it makes leaves its frame
as it was. -/
theorem function_sparing {host : Host} {n : Nat} {opts : Options} {m : Machine}
    (hs : m.store.Sound) {f : Closure} (hf : (Value.function f).Sound m.store)
    {arguments : List Value} (ha : ∀ v ∈ arguments, v.Sound m.store) {line : Nat}
    (hbody : ∀ s ∈ f.body, s.isFunction = false)
    (hends : ∀ m', function (callsWithin host n) opts f arguments line m ≠ .error .depth m') :
    function (callsSparing m.store.scopes.size n) opts f arguments line m =
      function (callsWithin host n) opts f arguments line m := by
  let F := m.store.scopes.size
  let w : Renaming := { m.store.all with hidden := some (F, F) }
  have hle : m.store.all ≤ w := ⟨fun _ _ => id, fun _ _ => id⟩
  have hparent : m.store.all.scope f.scope f.scope :=
    ⟨rfl, hf.scopes _ (List.mem_singleton_self _)⟩
  let m₁ : Machine := { m with store := m.store.pushChild f.scope }
  have hrun : Running (some (F, F)) True F F w m₁ m₁ :=
    ⟨rfl, .inr ⟨trivial, rfl⟩, hs.renamed_all.pushChild_hidden hparent⟩
  have harguments : List.Forall₂ (Value.Renamed w) arguments arguments :=
    List.forall₂_same.2 fun v hv => (ha v hv).renamed_all.mono hle
  have hmirror : Mirrors w True Value.Renamed
      (do
        bindParams F line f.params arguments
        stmts (callsSparing F n) opts F .null f.body)
      (do
        bindParams F line f.params arguments
        stmts (callsWithin host n) opts F .null f.body) m₁ m₁ := by
    have hcalls := callsSparing_mirror F F host n
    refine (bindParams_mirrors hcalls hrun line f.params harguments).bind
      fun w₂ _ _ n₂ n₂' hm₂ _ => ?_
    refine stmts_mirrors hcalls (hrun.after hm₂) (fun s hmem hfn => ?_) .null
    rw [hbody s hmem] at hfn
    cases hfn
  rcases (callsSparing_approximate F host n).functionCall opts f arguments line m with he | ⟨k, he⟩
  · exact he
  · -- The guarded run was stopped, so the run itself was stopped in the same way.
    exfalso
    have hleft : (do
        bindParams F line f.params arguments
        stmts (callsSparing F n) opts F .null f.body : Eval Value) m₁ = .error .depth k := he
    rcases hmirror.ends with ⟨_, _, _, _, _, hc, -⟩ | ⟨_, _, _, _, hc, hd, -⟩
    · cases hleft.symm.trans hc
    · cases hleft.symm.trans hc
      exact hends _ hd

end ScopeScript.Eval
