import ScopeScript.Proofs.Run

/-!
# Computations in turn

Statements and the properties of an object are evaluated in turn, each on the machine that the one
before it left:

    InTurn run as m bs m'     all of `as` ended, with the values `bs`
    StopsAt run as m e m'     one of them stopped with `e`, and none after it was run

One or the other is what a run of statements (`stmts_inTurn`) or properties (`fields_inTurn`) is.
-/

namespace ScopeScript.Eval

variable {α β : Type}

/-! ## All and some -/

/-- Each of `as` was run once, from left to right, and ended. -/
inductive InTurn (run : α → Eval β) : List α → Machine → List β → Machine → Prop
  | nil {m : Machine} : InTurn run [] m [] m
  | cons {a : α} {as : List α} {b : β} {bs : List β} {m m₁ m' : Machine}
    (first : run a m = .ok b m₁) (rest : InTurn run as m₁ bs m') : InTurn run (a :: as) m (b :: bs) m'

/-- Those before some `a` ended, and `a` stopped. -/
def StopsAt (run : α → Eval β) (as : List α) (m : Machine) (e : Halt) (m' : Machine) : Prop :=
  ∃ before a after bs m₁,
    as = before ++ a :: after ∧ InTurn run before m bs m₁ ∧ run a m₁ = .error e m'

section Turns

variable {run : α → Eval β} {a : α} {as : List α} {b : β} {e : Halt}
  {m m₁ m' : Machine}

theorem StopsAt.head (h : run a m = .error e m') : StopsAt run (a :: as) m e m' :=
  ⟨[], a, as, [], m, rfl, .nil, h⟩

theorem StopsAt.tail (h : run a m = .ok b m₁) (hrest : StopsAt run as m₁ e m') :
    StopsAt run (a :: as) m e m' := by
  obtain ⟨before, c, after, bs, m₂, rfl, hbefore, hc⟩ := hrest
  exact ⟨a :: before, c, after, b :: bs, m₂, rfl, .cons h hbefore, hc⟩

end Turns

/-! ## Statements and properties -/

/-- A first step whose value and machine are kept at hand. -/
theorem Ensures.bind_cases {c : Eval α} {f : α → Eval β} {m : Machine} {Q : β → Machine → Prop}
    {E : Halt → Machine → Prop} (hok : ∀ a m₁, c m = .ok a m₁ → Ensures (f a) m₁ Q E)
    (herror : ∀ e m', c m = .error e m' → E e m') : Ensures (c >>= f) m Q E := by
  refine .bind ?_
  unfold Ensures
  cases hc : c m with
  | ok a m₁ => exact hok a m₁ hc
  | error e m' => exact herror e m' hc

section Evaluation

variable (calls : Calls) (opts : Options) (scope : ScopeId)

theorem stmts_inTurn (last : Value) (ss : List Stmt) (m : Machine) :
    Ensures (stmts calls opts scope last ss) m
      (fun v m' => ∃ vs, InTurn (stmt calls opts scope) ss m vs m' ∧ v = vs.getLastD last)
      (StopsAt (stmt calls opts scope) ss m) := by
  induction ss generalizing last m with
  | nil => exact ensures_pure ⟨[], .nil, rfl⟩
  | cons s ss ih =>
    refine .bind_cases (fun v m₁ hs => ?_) fun e m' => .head
    refine (ih v m₁).mono ?_ fun e m' => .tail hs
    rintro w m' ⟨vs, hvs, rfl⟩
    exact ⟨v :: vs, .cons hs hvs, List.getLastD_cons.symm⟩

theorem fields_inTurn (ps : List Property) (m : Machine) :
    Ensures (fields calls opts scope ps) m
      (fun pairs m' => ∃ vs, InTurn (field calls opts scope) ps m vs m' ∧
        pairs = (ps.map (·.key)).zip vs)
      (StopsAt (field calls opts scope) ps m) := by
  induction ps generalizing m with
  | nil => exact ensures_pure ⟨[], .nil, rfl⟩
  | cons p ps ih =>
    refine .bind_cases (fun v m₁ hp => ?_) fun e m' => .head
    refine .bind ((ih m₁).mono ?_ fun e m' => .tail hp)
    rintro pairs m' ⟨vs, hvs, rfl⟩
    exact ensures_pure ⟨v :: vs, .cons hp hvs, rfl⟩

end Evaluation

end ScopeScript.Eval
