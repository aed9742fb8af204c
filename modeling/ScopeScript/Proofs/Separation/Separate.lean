import ScopeScript.Proofs.Separation.Activations
import ScopeScript.Proofs.Separation.Roots

/-!
# Scopes are separate

What an evaluation does depends on what it can reach and changes nothing else.  So scopes between
which nothing leads do not take part in each other's evaluation: two global scopes of one machine,
and the frames of calls that are still running.
-/

namespace ScopeScript.Eval

/-- In a sound store, and every reachable store is sound, an evaluation changes no scope that it
cannot reach, and brings none into reach.  Calls spare the frames of the activations that wait for
them, up to the first declaration of a function there.  In stores that are the same, up to a
renaming, as far as the evaluation reaches, it has the same results, output and errors.  Scripts
that are run in two global scopes in turn do what they do in one of them alone. -/
theorem scopes_separate (host : Host) (n : Nat) (opts : Options) :
    (∀ s : Store, s.Reachable → s.Sound) ∧
    (∀ m : Machine, m.store.Sound →
      (∀ env e, env < m.store.scopes.size →
        EndsWithin m.store (· = env) (expr (callsWithin host n) opts env e m)) ∧
      ∀ f arguments line, (Value.function f).Sound m.store → (∀ v ∈ arguments, v.Sound m.store) →
        EndsWithin m.store (CallReach f arguments)
          ((callsWithin host n).function opts f arguments line m) ∧
        ∀ before, before <+: f.body → (∀ s ∈ before, s.isFunction = false) →
          let activation (calls : Calls) :=
            function calls opts { f with body := before } arguments line m
          (∀ m', activation (callsWithin host n) ≠ .error .depth m') →
            activation (callsSparing m.store.scopes.size n) = activation (callsWithin host n)) ∧
    (∀ (w : Renaming) (m m' : Machine), m.store.Renamed w m'.store →
      (∀ env env' e, w.scope env env' →
        Mirrors w False Value.Renamed (expr (callsWithin host n) opts env e)
          (expr (callsWithin host n) opts env' e) m m') ∧
      ∀ f f' arguments arguments' line, f.Renamed w f' →
        List.Forall₂ (Value.Renamed w) arguments arguments' →
          Mirrors w False Value.Renamed ((callsWithin host n).function opts f arguments line)
            ((callsWithin host n).function opts f' arguments' line) m m') ∧
    ∀ (m : Machine) (requests : List Script.Request) (side : Bool),
      ∃ w : Renaming, Relator.BiUnique w.scope ∧ Relator.BiUnique w.identity ∧
        List.Forall₂ (Script.Answer.Renamed w)
          ((Script.serve (Script.globalRoots m) requests (Script.withGlobals m)).filter
            (·.side == side))
          (Script.serve (fun _ => 0) (requests.filter (·.side == side)) Script.singleGlobal) := by
  refine ⟨fun s hs => hs.sound, fun m hm => ⟨fun env e henv => expr_endsWithin hm henv e, ?_⟩, ?_,
    Script.serve_globals⟩
  · intro f arguments line hf ha
    refine ⟨function_endsWithin hm hf ha line, ?_⟩
    intro before _ hbefore activation hends
    exact function_sparing hm (f := { f with body := before }) ⟨hf.scopes, hf.known⟩ ha hbefore hends
  · intro w m m' hs
    constructor
    · intro env env' e henv
      have hrun : Running w.hidden False env env' w m m' := ⟨rfl, .inl henv, hs⟩
      exact expr_mirrors (callsWithin_mirror w.hidden host n) hrun e
    · intro f f' arguments arguments' line hf ha
      exact (callsWithin_mirror w.hidden host n).function opts f f' arguments arguments' line w m m'
        rfl hs hf ha

/-- `print(type_of(x))` -/
def printTypeOf : Expr :=
  .call (.name "print" 1) [.call (.name "type_of" 1) [.name "x" 1] 1] 1

/-- `fn show(x) { print(type_of(x)) }`, declared in the first scope -/
def showTypeOf : Closure := ⟨0, "show", ["x"], [.expr printTypeOf 1], 0⟩

/-- The same call in a machine with one global scope and in the second one of another machine. -/
theorem scopes_separate_showTypeOf :
    let call (scope : ScopeId) (identity : Identity) :=
      (callsWithin .none 2).function {} { showTypeOf with scope, identity } [.string "a"] 1
    (∃ m', call 0 0 Script.singleGlobal = .ok .null m' ∧ m'.output = #["string"]) ∧
      EndsWithin Script.singleGlobal.store (CallReach showTypeOf [.string "a"])
        (call 0 0 Script.singleGlobal) ∧
      function (callsSparing 1 2) {} showTypeOf [.string "a"] 1 Script.singleGlobal =
        function (callsWithin .none 2) {} showTypeOf [.string "a"] 1 Script.singleGlobal ∧
      Mirrors (.global (Store.pushGlobal {}) {}) False Value.Renamed (call 1 2) (call 0 0)
        (Script.withGlobals {}) Script.singleGlobal := by
  intro call
  obtain ⟨hreachable, hframe, hmirror, -⟩ := scopes_separate .none 2 {}
  have hsound : Script.singleGlobal.store.Sound := hreachable _ (.global .empty)
  have hf : (Value.function showTypeOf).Sound Script.singleGlobal.store := by
    have hknown : showTypeOf.identity < Script.singleGlobal.store.issued := by decide
    refine ⟨fun i hi => ?_, hknown⟩
    obtain rfl := List.mem_singleton.1 hi
    decide
  have ha : ∀ v ∈ [Value.string "a"], v.Sound Script.singleGlobal.store := by
    intro v hv
    obtain rfl := List.mem_singleton.1 hv
    exact ⟨fun i => nofun, trivial⟩
  obtain ⟨hwithin, hspared⟩ := (hframe _ hsound).2 showTypeOf [.string "a"] 1 hf ha
  refine ⟨⟨_, rfl, rfl⟩, hwithin, ?_, ?_⟩
  · refine hspared _ (List.prefix_refl _) (by decide) ?_
    rintro m' ⟨⟩
  · refine (hmirror _ _ _ (Store.pushGlobal_renamed (Store.pushGlobal {}) {})).2 _ _ _ _ 1 ?_ ?_
    · exact ⟨⟨0, by decide, rfl, rfl⟩, rfl, rfl, rfl, rfl, rfl⟩
    · exact .cons (.string "a") .nil

end ScopeScript.Eval
