import Mathlib.Logic.Function.Basic
import ScopeScript.Proofs.Separation.Evaluation
import ScopeScript.Script

/-!
# Two global scopes side by side

Requests to run scripts in one of two global scopes are served one after another, in any order.
Nothing leads from the one scope to the other, and nothing comes to do so: each request is answered
as if only the requests to its own scope had been made, in a machine that has no other scope.

    serve roots requests m     the answers to all requests, in turn

The numbers of functions and scopes in the answers are different ones; one renaming takes them to
those of the machine with a single scope.
-/

namespace ScopeScript

/-! ## Requests -/

inductive Outcome.Renamed (w : Renaming) : Outcome → Outcome → Prop
  | value {v v' : Value} (h : v.Renamed w v') : Renamed w (.value v) (.value v')
  | failed (e : ScriptError) : Renamed w (.failed e) (.failed e)
  | tooDeep : Renamed w .tooDeep .tooDeep

theorem Outcome.Renamed.mono {w w' : Renaming} (hw : w ≤ w') {o o' : Outcome}
    (h : o.Renamed w o') : o.Renamed w' o' := by
  cases h with
  | value h => exact .value (h.mono hw)
  | failed e => exact .failed e
  | tooDeep => exact .tooDeep

theorem Eval.Mirrors.finish {w : Renaming} {inside : Prop} {c d : Eval Value} {m m' : Machine}
    (h : Mirrors w inside Value.Renamed c d m m') :
    ∃ w', Moves w inside m m' w' (c.finish m).2 (d.finish m').2 ∧
      (c.finish m).1.Renamed w' (d.finish m').1 := by
  unfold EvalIn.finish EStateM.run
  rcases h.ends with ⟨a, n, b, n', w₁, hc, hd, hmoves, hv⟩ | ⟨e, n, n', w₁, hc, hd, hmoves⟩
  · rw [hc, hd]
    exact ⟨w₁, hmoves, .value hv⟩
  · rw [hc, hd]
    cases e with
    | fault f => exact ⟨w₁, hmoves, .failed _⟩
    | depth => exact ⟨w₁, hmoves, .tooDeep⟩

namespace Script

/-- A script to run in one of two scopes. -/
structure Request where
  side : Bool
  setting : Setting
  source : String

/-- How a request ended, and what it printed. -/
structure Answer where
  side : Bool
  outcome : Outcome
  printed : Array String

structure Answer.Renamed (w : Renaming) (a a' : Answer) : Prop where
  side : a.side = a'.side
  outcome : a.outcome.Renamed w a'.outcome
  printed : a.printed = a'.printed

def serve (roots : Bool → ScopeId) : List Request → Machine → List Answer
  | [], _ => []
  | r :: rs, m =>
    let (outcome, m') := runIn r.setting r.source (roots r.side) { m with output := #[] }
    ⟨r.side, outcome, m'.output⟩ :: serve roots rs m'

/-! ## One request -/

/-- The same script in scopes that are paired. -/
theorem runIn_mirrors {w : Renaming} {m m' : Machine} (hs : m.store.Renamed w m'.store)
    (hw : w.hidden = none) {p p' : ScopeId} (hp : w.scope p p') (setting : Setting)
    (source : String) :
    ∃ w', Eval.Moves w False m m' w' (runIn setting source p m).2 (runIn setting source p' m').2 ∧
      (runIn setting source p m).1.Renamed w' (runIn setting source p' m').1 := by
  unfold runIn
  cases Program.ofText source with
  | error e => exact ⟨w, .refl hs, .failed e⟩
  | ok program =>
    have hrun : Eval.Running none False p p' w m m' := ⟨hw, .inl hp, hs⟩
    have hmirror : Eval.Mirrors w False Value.Renamed (program.run setting p)
        (program.run setting p') m m' :=
      Eval.stmts_mirrors (Eval.callsWithin_mirror none setting.host setting.depth) hrun
        (fun _ _ _ => hp) .null
    exact hmirror.finish

/-! ## Two scopes -/

/-- The machine `m` holds what the machines `alone` hold, apart from each other. -/
structure Apart (roots : Bool → ScopeId) (w : Bool → Renaming) (m : Machine)
    (alone : Bool → Machine) : Prop where
  hidden : ∀ b, (w b).hidden = none
  root : ∀ b, (w b).scope (roots b) 0
  renamed : ∀ b, m.store.Renamed (w b) (alone b).store
  disjoint : ∀ b c i j k, b ≠ c → (w b).scope i j → ¬ (w c).scope i k

/-- A step on one side is no step on the other. -/
theorem Apart.step {roots : Bool → ScopeId} {w : Bool → Renaming} {m n n' : Machine}
    {alone : Bool → Machine} (h : Apart roots w m alone) {b : Bool} {w' : Renaming}
    (hm : Store.Moves (w b) False m.store (alone b).store w' n.store n'.store) :
    Apart roots (Function.update w b w') n (Function.update alone b n') := by
  have hother (c : Bool) (hc : c ≠ b) : n.store.Renamed (w c) (alone c).store := by
    refine (h.renamed c).of_kept hm.left (.refl (fun _ => False) _) ?_ fun _ _ _ => id
    rintro i i' (hi | ⟨-, hi⟩) ⟨j, hj | ⟨hin, -⟩⟩
    · exact h.disjoint c b i i' j hc hi hj
    · exact hin
    · rw [h.hidden c] at hi
      cases hi
    · exact hin
  have hnew (c : Bool) (hc : c ≠ b) (i j k : ScopeId) (hi : w'.scope i j) : ¬ (w c).scope i k := by
    intro hk
    rcases hm.fresh i j hi with hi | ⟨hi, -⟩
    · exact h.disjoint c b i k j hc hk hi
    · exact Nat.not_lt.2 hi ((h.renamed c).lt_size i k (.inl hk)).1
  constructor
  · intro c
    by_cases hc : c = b
    · subst hc
      rw [Function.update_self]
      exact hm.hidden.trans (h.hidden c)
    · rw [Function.update_of_ne hc]
      exact h.hidden c
  · intro c
    by_cases hc : c = b
    · subst hc
      rw [Function.update_self]
      exact hm.le.1 _ _ (h.root c)
    · rw [Function.update_of_ne hc]
      exact h.root c
  · intro c
    by_cases hc : c = b
    · subst hc
      rw [Function.update_self, Function.update_self]
      exact hm.renamed
    · rw [Function.update_of_ne hc, Function.update_of_ne hc]
      exact hother c hc
  · intro c d i j k hcd hi hk
    by_cases hc : c = b
    · subst hc
      rw [Function.update_self] at hi
      rw [Function.update_of_ne (Ne.symm hcd)] at hk
      exact hnew d (Ne.symm hcd) i j k hi hk
    · rw [Function.update_of_ne hc] at hi
      by_cases hd : d = b
      · subst hd
        rw [Function.update_self] at hk
        exact hnew c hc i k j hk hi
      · rw [Function.update_of_ne hd] at hk
        exact h.disjoint c d i j k hcd hi hk

/-- The requests of one side are answered as if there were no others. -/
theorem Apart.serve_mirrors {roots : Bool → ScopeId} {w : Bool → Renaming} {m : Machine}
    {alone : Bool → Machine} (h : Apart roots w m alone) (requests : List Request) (side : Bool) :
    ∃ w', w side ≤ w' ∧ Relator.BiUnique w'.scope ∧ Relator.BiUnique w'.identity ∧
      List.Forall₂ (Answer.Renamed w') ((serve roots requests m).filter (·.side == side))
        (serve (fun _ => 0) (requests.filter (·.side == side)) (alone side)) := by
  induction requests generalizing w m alone with
  | nil =>
    exact ⟨w side, (w side).le_refl, (h.renamed side).unique, (h.renamed side).identities, .nil⟩
  | cons r requests ih =>
    let start : Machine := { m with output := #[] }
    let start' : Machine := { alone r.side with output := #[] }
    have hstart : start.store.Renamed (w r.side) start'.store := h.renamed r.side
    obtain ⟨w₁, hmoves, hout⟩ :=
      runIn_mirrors hstart (h.hidden r.side) (h.root r.side) r.setting r.source
    obtain ⟨w', hle, hscope, hidentity, hanswers⟩ := ih (h.step hmoves.stores)
    obtain ⟨texts, hprinted, hprinted'⟩ := hmoves.printed
    refine ⟨w', ?_, hscope, hidentity, ?_⟩
    · by_cases hr : side = r.side
      · subst hr
        rw [Function.update_self] at hle
        exact Renaming.le_trans hmoves.stores.le hle
      · rwa [Function.update_of_ne hr] at hle
    · by_cases hr : r.side = side
      · subst hr
        rw [Function.update_self] at hle hanswers
        simp only [serve, List.filter_cons, beq_self_eq_true, if_true]
        exact .cons ⟨rfl, hout.mono hle, hprinted.trans hprinted'.symm⟩ hanswers
      · rw [Function.update_of_ne (Ne.symm hr)] at hanswers
        simpa [serve, List.filter_cons, hr] using hanswers

end Script

/-! ## Global scopes -/

/-- Bindings of the same names in the same order. -/
theorem Scope.Renamed.of_forall₂ {w : Renaming} {a a' : Scope}
    (ha : List.Forall₂ w.scope a.ancestors a'.ancestors)
    (hb : List.Forall₂ (fun b b' => b.name = b'.name ∧ b.Renamed w b') a.bindings a'.bindings) :
    a.Renamed w a' := by
  refine ⟨ha, fun name => ?_⟩
  unfold Scope.find?
  generalize a.bindings = bs at hb ⊢
  generalize a'.bindings = bs' at hb ⊢
  induction hb with
  | nil => exact .none
  | @cons b b' bs bs' hbb _ ih =>
    rw [List.find?_cons, List.find?_cons, hbb.1]
    split
    · exact .some hbb.2
    · exact ih

/-- The next global scopes of two stores, with their native functions. -/
def Renaming.global (s s' : Store) : Renaming where
  scope i j := i = s.scopes.size ∧ j = s'.scopes.size
  identity i j := ∃ k, k < NativeOp.standard.length ∧ i = s.issued + k ∧ j = s'.issued + k

namespace Store

/-- Global scopes are the same but for numbers. -/
theorem pushGlobal_renamed (s s' : Store) :
    s.pushGlobal.Renamed (.global s s') s'.pushGlobal where
  unique := ⟨fun _ _ _ hi hj => hi.1.trans hj.1.symm, fun _ _ _ hi hj => hi.2.trans hj.2.symm⟩
  identities := by
    constructor
    · rintro i i' j ⟨k, -, rfl, rfl⟩ ⟨k', -, rfl, h⟩
      rw [Nat.add_left_cancel h]
    · rintro i j j' ⟨k, -, rfl, rfl⟩ ⟨k', -, h, rfl⟩
      rw [Nat.add_left_cancel h]
  hidden _ _ hi := by cases hi
  lt_size := by
    rintro i i' (⟨rfl, rfl⟩ | ⟨-, hi⟩)
    · rw [size_pushGlobal, size_pushGlobal]
      exact ⟨Nat.lt_succ_self _, Nat.lt_succ_self _⟩
    · cases hi
  scopes := by
    rintro i i' (⟨rfl, rfl⟩ | ⟨-, hi⟩)
    · rw [scope_pushGlobal, scope_pushGlobal]
      have hnative (k : Nat) (hk : k < NativeOp.standard.length) (name : String) (op : NativeOp)
          (hop : ∀ key, op ≠ .hosted key) :
          (Value.native ⟨s.issued + k, name, op⟩).Renamed (.global s s')
            (.native ⟨s'.issued + k, name, op⟩) :=
        .native ⟨⟨k, hk, rfl, rfl⟩, rfl, rfl, hop⟩
      refine .of_forall₂ .nil ?_
      refine .cons ⟨rfl, hnative 1 (by decide) _ _ (fun _ => nofun), rfl⟩ ?_
      refine .cons ⟨rfl, hnative 0 (by decide) _ _ (fun _ => nofun), rfl⟩ ?_
      exact .cons ⟨rfl, .null, rfl⟩ (.cons ⟨rfl, .boolean false, rfl⟩
        (.cons ⟨rfl, .boolean true, rfl⟩ .nil))
    · cases hi
  issued := by
    rintro i i' ⟨k, hk, rfl, rfl⟩
    exact ⟨Nat.add_lt_add_left hk _, Nat.add_lt_add_left hk _⟩

end Store

namespace Script

/-- A machine with two more global scopes. -/
def withGlobals (m : Machine) : Machine := { m with store := m.store.pushGlobal.pushGlobal }

/-- The global scopes of `withGlobals m`. -/
def globalRoots (m : Machine) : Bool → ScopeId
  | false => m.store.scopes.size
  | true => m.store.pushGlobal.scopes.size

/-- A machine with a global scope only. -/
def singleGlobal : Machine := { store := Store.pushGlobal {} }

theorem apart_globals (m : Machine) :
    ∃ w, Apart (globalRoots m) w (withGlobals m) fun _ => singleGlobal := by
  refine ⟨fun b => .global (if b then m.store.pushGlobal else m.store) {}, fun b => ?_, fun b => ?_,
    fun b => ?_, fun b c i j k hbc => ?_⟩
  · cases b <;> rfl
  · cases b <;> exact ⟨rfl, rfl⟩
  · cases b with
    | true => exact Store.pushGlobal_renamed m.store.pushGlobal {}
    | false =>
      have hkept : m.store.pushGlobal.KeepsOutside (fun _ => False)
          m.store.pushGlobal.pushGlobal :=
        ⟨Nat.le_of_lt (Store.size_pushGlobal m.store.pushGlobal ▸ Nat.lt_succ_self _),
          Nat.le_add_right _ _, fun i hi _ => Store.scope_push_of_lt _ hi⟩
      exact (Store.pushGlobal_renamed m.store {}).of_kept hkept (.refl (fun _ => False) _)
        (fun _ _ _ => id) fun _ _ _ => id
  · rintro ⟨rfl, -⟩ ⟨hi, -⟩
    have hne : m.store.pushGlobal.scopes.size ≠ m.store.scopes.size := by
      rw [Store.size_pushGlobal]
      exact Nat.succ_ne_self _
    cases b with
    | true =>
      cases c with
      | true => exact hbc rfl
      | false => exact hne hi
    | false =>
      cases c with
      | true => exact hne hi.symm
      | false => exact hbc rfl

/-- Requests to two global scopes of one machine, in any order, are answered like the requests to
each of them alone. -/
theorem serve_globals (m : Machine) (requests : List Request) (side : Bool) :
    ∃ w : Renaming, Relator.BiUnique w.scope ∧ Relator.BiUnique w.identity ∧
      List.Forall₂ (Answer.Renamed w)
        ((serve (globalRoots m) requests (withGlobals m)).filter (·.side == side))
        (serve (fun _ => 0) (requests.filter (·.side == side)) singleGlobal) := by
  obtain ⟨w, hw⟩ := apart_globals m
  obtain ⟨w', -, hanswers⟩ := hw.serve_mirrors requests side
  exact ⟨w', hanswers⟩

end Script

end ScopeScript
