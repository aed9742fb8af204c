import ScopeScript.Proofs.Eval.Hosts
import ScopeScript.Proofs.Fresh.Start
import ScopeScript.Proofs.Layout.Joining

/-!
# A call evaluates an expression where it stands

A *thunk* is a function without parameters whose body is one expression.  Its call evaluates the
expression in a scope without bindings inside the scope of the declaration, so the expression reads
and writes the variables as they are at the time of the call:

    program; fn t() { e }; later; t()     ends like     program; later; e

for every name `t` that is fresh.  The thunk is one function more and the frame of its call one
scope more, so what is made after them has numbers that are one higher (`Renaming.skipping`).  And
the call is one call more, so `e` is evaluated with one nested call less.
-/

namespace ScopeScript

def Stmt.thunk (name : String) (e : Expr) (line : Nat) : Stmt :=
  .function name [] [.expr e line] line

/-- The call of a thunk. -/
def Stmt.force (name : String) (line : Nat) : Stmt := .expr (.call (.name name line) [] line) line

/-! ## One number more -/

/-- The numbers from `n` on are one higher. -/
def skip (n i : Nat) : Nat := if i < n then i else i + 1

theorem skip_of_lt {n i : Nat} (h : i < n) : skip n i = i := if_pos h

theorem skip_of_le {n i : Nat} (h : n ≤ i) : skip n i = i + 1 := if_neg (Nat.not_lt.2 h)

theorem skip_ne (n i : Nat) : n ≠ skip n i := by
  unfold skip
  split <;> omega

theorem skip_injective (n : Nat) : Function.Injective (skip n) := by
  intro i j h
  unfold skip at h
  split at h <;> split at h <;> omega

theorem skip_lt_succ_iff (n i : Nat) : skip n i < n + 1 ↔ i < n := by
  unfold skip
  split <;> omega

namespace Renaming

/-- The function `own` is one more. -/
def skippingFunction (own : Identity) : Renaming where
  scope := Eq
  identity i j := i = skip own j

/-- The scope `frame` and the function `own` are one more. -/
def skipping (frame : ScopeId) (own : Identity) : Renaming where
  scope i j := i = skip frame j
  identity i j := i = skip own j

theorem skipping_unique (frame : ScopeId) (own : Identity) :
    Relator.BiUnique (skipping frame own).scope :=
  ⟨fun _ _ _ hi hj => hi.trans hj.symm, fun _ _ _ hi hj => skip_injective frame (hi.symm.trans hj)⟩

end Renaming

namespace Value

variable {w w' : Renaming}

mutual

/-- Only the scopes that a value leads to count. -/
theorem Renamed.transfer {v v' : Value} (h : v.Renamed w v')
    (hidentity : ∀ i j, w.identity i j → w'.identity i j)
    (hscope : ∀ i ∈ v.scopes, ∀ j, w.scope i j → w'.scope i j) : v.Renamed w' v' := by
  match h with
  | .null => exact .null
  | .number x => exact .number x
  | .boolean b => exact .boolean b
  | .string s => exact .string s
  | .object hes => exact .object (hes.transfer hidentity hscope)
  | .function h =>
    exact .function ⟨hidentity _ _ h.identity, h.name, h.params, h.body,
      hscope _ (List.mem_singleton_self _) _ h.scope⟩
  | .native h => exact .native ⟨hidentity _ _ h.identity, h.name, h.op, h.standard⟩

theorem EntriesRenamed.transfer {es es' : List (String × Value)} (h : EntriesRenamed w es es')
    (hidentity : ∀ i j, w.identity i j → w'.identity i j)
    (hscope : ∀ i ∈ entriesScopes es, ∀ j, w.scope i j → w'.scope i j) :
    EntriesRenamed w' es es' := by
  match h with
  | .nil => exact .nil
  | .cons hv hes =>
    exact .cons (hv.transfer hidentity fun i hi => hscope i (List.mem_append_left _ hi))
      (hes.transfer hidentity fun i hi => hscope i (List.mem_append_right _ hi))

end

end Value

section Frame

variable {own : Identity} {fresh : List String}

/-- Scopes that are the same by number are so when the next number is skipped. -/
theorem Store.Sound.scopes_skipping {s : Store} (hs : s.Sound) {s' : Store}
    (hsize : s.scopes.size = s'.scopes.size)
    (h : ∀ i, (s.scope i).Alike (.skippingFunction own) fresh (s'.scope i)) {i i' : ScopeId}
    (hi : (Renaming.skipping s.scopes.size own).scope i i') :
    (s.scope i).Alike (.skipping s.scopes.size own) fresh (s'.scope i') := by
  have hstep (j : ScopeId) (hj : j < s.scopes.size) (j' : ScopeId) (he : j = j') :
      j = skip s.scopes.size j' := by
    subst he
    exact (skip_of_lt hj).symm
  obtain rfl : i = skip s.scopes.size i' := hi
  by_cases hlt : i' < s.scopes.size
  · rw [skip_of_lt hlt]
    refine ⟨?_, fun name hn => ?_⟩
    · have hancestors := (h i').ancestors
      refine List.forall₂_iff_get.2 ⟨hancestors.length_eq, fun n hn hn' => ?_⟩
      exact hstep _ (hs.ancestors i' _ (List.get_mem _ _)) _ (hancestors.get hn hn')
    · have hname := (h i').bindings name hn
      have hsound := hs.values i' name
      generalize (s.scope i').find? name = x at hname hsound ⊢
      generalize (s'.scope i').find? name = x' at hname ⊢
      cases hname with
      | none => exact .none
      | some hb =>
        refine .some ⟨hb.value.transfer (fun _ _ => id) fun j hj j' he => ?_, hb.constant⟩
        exact hstep j ((hsound _ rfl).scopes j hj) j' he
  · have hle := Nat.not_lt.1 hlt
    rw [skip_of_le hle, s.scope_of_size_le (Nat.le_succ_of_le hle),
      s'.scope_of_size_le (hsize ▸ hle)]
    exact ⟨.nil, fun _ _ => .none⟩

theorem Store.Alike.size_eq {s s' : Store} (h : s.Alike (.skippingFunction own) fresh s') :
    s.scopes.size = s'.scopes.size := by
  refine Nat.le_antisymm (Nat.not_lt.1 fun hlt => ?_) (Nat.not_lt.1 fun hlt => ?_)
  · exact Nat.lt_irrefl _ ((h.lt_size_iff _ _ rfl).1 hlt)
  · exact Nat.lt_irrefl _ ((h.lt_size_iff _ _ rfl).2 hlt)

/-- A frame on the left only. -/
theorem Store.Alike.frame {s s' : Store} (h : s.Alike (.skippingFunction own) fresh s')
    (hs : s.Sound) (q : ScopeId) :
    (s.pushChild q).Alike (.skipping s.scopes.size own) fresh s' := by
  have hsize : (s.pushChild q).scopes.size = s.scopes.size + 1 := size_push s _
  constructor
  · exact Renaming.skipping_unique _ _
  · rintro i i' rfl
    rw [hsize, skip_lt_succ_iff, h.size_eq]
  · intro i i' hi
    have hne : i ≠ s.scopes.size := fun e => skip_ne s.scopes.size i' (e.symm.trans hi)
    have hscope : (s.pushChild q).scope i = s.scope i := by
      rcases Nat.lt_or_gt_of_ne hne with hlt | hgt
      · exact scope_push_of_lt s hlt
      · rw [s.scope_of_size_le (Nat.le_of_lt hgt), scope_of_size_le]
        rwa [hsize]
    rw [hscope]
    exact hs.scopes_skipping h.size_eq (fun i => h.scopes i i rfl) hi
  · intro k
    have hle : s.scopes.size ≤ s'.scopes.size + k := h.size_eq ▸ Nat.le_add_right _ _
    show (s.pushChild q).scopes.size + k = skip s.scopes.size (s'.scopes.size + k)
    rw [skip_of_le hle, hsize, h.size_eq, Nat.add_right_comm]
  · exact h.next_identity
  · exact h.avoids

end Frame

/-! ## Declaring and calling a thunk -/

namespace Eval

/-- The function that a thunk declares in the first scope. -/
def thunkClosure (own : Identity) (name : String) (e : Expr) (line : Nat) : Closure :=
  ⟨own, name, [], [.expr e line], 0⟩

/-- What the call of a thunk evaluates: the expression, with one nested call less. -/
def forced (options : Options) (e : Expr) : Nat → Eval Value
  | 0 => throw .depth
  | n + 1 => expr (callsWithin Host.none n) options 0 e

variable {options : Options} {name : String} {e : Expr} {line : Nat}

/-- One identity is handed out on the left. -/
theorem skipping_issued {start : Store} {m : Machine} (hm : m.Alike .same [name] start m)
    (hs : m.store.Sound) : ({ m.store with issued := m.store.issued + 1 } : Store).Alike
      (.skippingFunction m.store.issued) [name] m.store := by
  have hunique : Relator.BiUnique (Renaming.skippingFunction m.store.issued).scope :=
    Renaming.same_unique
  refine hs.alike_self ?_ hunique ?_ (fun _ => rfl) (fun i => ?_) hm.stores.avoids
  · exact ⟨fun _ _ h => h.1, fun i j h => h.1.trans (skip_of_lt (h.1 ▸ h.2)).symm⟩
  · rintro i _ rfl
    exact Iff.rfl
  · show m.store.issued + 1 + i = skip m.store.issued (m.store.issued + i)
    rw [skip_of_le (Nat.le_add_right _ _), Nat.add_right_comm]

theorem stmt_thunk (options : Options) {start : Store} {m : Machine} (hm : m.Alike .same [name] start m)
    (hs : m.store.Sound) (hlt : 0 < m.store.scopes.size)
    (hunbound : (m.store.scope 0).find? name = none) (c : Calls) (e : Expr) (line : Nat) :
    ∃ n, stmt c options 0 (Stmt.thunk name e line) m = .ok .null n ∧
      n.Alike (.skippingFunction m.store.issued) [name] n.store m ∧ 0 < n.store.scopes.size ∧
      (n.store.scope 0).find? name =
        some ⟨name, .function (thunkClosure m.store.issued name e line), true⟩ := by
  let k : Machine := { m with store := { m.store with issued := m.store.issued + 1 } }
  have hk : k.Alike (.skippingFunction m.store.issued) [name] k.store m :=
    ⟨skipping_issued hm hs, .refl _ _ _, rfl⟩
  obtain ⟨n, hn, halike, hsize, hself, -⟩ := declare_fresh hk hlt (List.mem_singleton_self name)
    hunbound (.function (thunkClosure m.store.issued name e line)) true line
  refine ⟨n, ?_, halike, hsize ▸ hlt, hself⟩
  show (freshIdentity >>= fun i =>
    declare 0 name (.function (thunkClosure i name e line)) true line >>= fun _ =>
      Pure.pure Value.null) m = .ok .null n
  rw [bind_apply]
  show (declare 0 name (.function (thunkClosure m.store.issued name e line)) true line >>= fun _ =>
    Pure.pure Value.null) k = .ok .null n
  rw [bind_apply, hn]
  rfl

/-- The call is made in an empty scope inside the first one. -/
theorem stmt_force {own : Identity} {k : Machine}
    (hbound : (k.store.scope 0).find? name =
      some ⟨name, .function (thunkClosure own name e line), true⟩) (c : Calls) (line' : Nat) :
    stmt c options 0 (Stmt.force name line') k =
      c.function options (thunkClosure own name e line) [] line' k := by
  have hread : lookup 0 name line' k = .ok (.function (thunkClosure own name e line)) k :=
    lookup_own hbound line'
  simp only [stmt, Stmt.force, expr, exprs, pure_bind]
  rw [bind_apply, hread]
  rfl

theorem function_thunk (c : Calls) (own : Identity) (line' : Nat) (k : Machine) :
    function c options (thunkClosure own name e line) [] line' k =
      expr c options k.store.scopes.size e { k with store := k.store.pushChild 0 } := by
  show (child 0 >>= fun frame => bindParams frame line' [] [] >>= fun _ =>
    stmts c options frame .null [.expr e line]) k = _
  rw [bind_apply, child_apply]
  simp only [bindParams, stmts, stmt, pure_bind, bind_pure]

/-- A run in a fresh machine. -/
theorem globalRun_endsWithin (n : Nat) (options : Options) (program : Program) :
    EndsWithin Script.singleGlobal.store (· = 0)
      (stmts (callsWithin Host.none n) options 0 .null program Script.singleGlobal) :=
  stmts_endsWithin Script.singleGlobal_sound Nat.one_pos program

/-- How the program up to the call ends, with the thunk and without it. -/
inductive ThunkReady (own : Identity) (name : String) (e : Expr) (line : Nat) :
    EStateM.Result Halt Machine Value → EStateM.Result Halt Machine Value → Prop
  | ok {v v' : Value} {k k' : Machine}
      (hk : k.Alike (.skippingFunction own) [name] k.store k')
      (hbound : (k.store.scope 0).find? name =
        some ⟨name, .function (thunkClosure own name e line), true⟩)
      (hlt : 0 < k.store.scopes.size) : ThunkReady own name e line (.ok v k) (.ok v' k')
  | error (halt : Halt) {k k' : Machine}
      (hscopes : ∀ i, (k.store.scope i).Alike (.skippingFunction own) [name] (k'.store.scope i))
      (hsize : k.store.scopes.size = k'.store.scopes.size) (houtput : k.output = k'.output) :
      ThunkReady own name e line (.error halt k) (.error halt k')

theorem thunkReady (n : Nat) (options : Options) {program later : Program} {name : String}
    (hprogram : name ∉ Stmt.allNames program) (hlater : name ∉ Stmt.allNames later)
    (hbuiltin : name ∉ builtinNames) (e : Expr) (line : Nat) :
    ∃ own, ThunkReady own name e line
      (stmts (callsWithin Host.none n) options 0 .null (program ++ Stmt.thunk name e line :: later)
        Script.singleGlobal)
      (stmts (callsWithin Host.none n) options 0 .null (program ++ later) Script.singleGlobal) := by
  have hprogram' : (Stmt.allNames program).Disjoint [name] := List.disjoint_singleton.2 hprogram
  have hlater' : (Stmt.allNames later).Disjoint [name] := List.disjoint_singleton.2 hlater
  have hbefore := stmts_alike_self n options hprogram'
  have hsound := (globalRun_endsWithin n options program).sound
  rw [stmts_append, stmts_append, bind_apply, bind_apply]
  cases hrun : stmts (callsWithin Host.none n) options 0 .null program Script.singleGlobal with
  | error halt m =>
    rw [hrun] at hbefore hsound
    cases hbefore with
    | error _ hm =>
      exact ⟨m.store.issued, .error halt (fun i => (skipping_issued hm hsound).scopes i i rfl) rfl rfl⟩
  | ok v m =>
    rw [hrun] at hbefore hsound
    cases hbefore with
    | ok hm _ =>
      obtain ⟨hmlt, hunbound⟩ := hm.unbound (List.mem_singleton_self name) hbuiltin
      obtain ⟨k, hk, halike, hklt, hbound⟩ := stmt_thunk options hm hsound hmlt hunbound
        (callsWithin Host.none n) e line
      refine ⟨m.store.issued, ?_⟩
      dsimp only
      rw [stmts, bind_apply, hk]
      dsimp only
      by_cases hnil : later = []
      · subst hnil
        exact .ok halike hbound hklt
      · rw [stmts_of_ne_nil (callsWithin Host.none n) options 0 v .null hnil]
        have hlaterEnds : EndsAlike (.skippingFunction m.store.issued) [name] k.store
            (Value.Alike _ [name]) (stmts (callsWithin Host.none n) options 0 .null later k)
            (stmts (callsWithin Host.none n) options 0 .null later m) :=
          stmts_follow (callsWithin_follow _ [name] k.store .none n)
            (rfl : (Renaming.skippingFunction m.store.issued).scope 0 0) ⟨.null, trivial⟩ later
            hlater' _ _ halike
        generalize stmts (callsWithin Host.none n) options 0 .null later k = r at hlaterEnds ⊢
        generalize stmts (callsWithin Host.none n) options 0 .null later m = r' at hlaterEnds ⊢
        cases hlaterEnds with
        | ok hn _ =>
          refine .ok hn.restart ?_ (Nat.lt_of_lt_of_le hklt hn.spares.size_le)
          rw [hn.spares.bindings 0 name hklt (.inl (List.mem_singleton_self name)), hbound]
        | error halt hn =>
          exact .error halt (fun i => hn.stores.scopes i i rfl) hn.stores.size_eq hn.output

/-- A call of the thunk does what its expression does in the scope of the declaration. -/
theorem force_endsAlike {own : Identity} {k k' : Machine}
    (hk : k.Alike (.skippingFunction own) [name] k.store k') (hs : k.store.Sound)
    (hbound : (k.store.scope 0).find? name =
      some ⟨name, .function (thunkClosure own name e line), true⟩)
    (hlt : 0 < k.store.scopes.size) (he : name ∉ e.names) (n : Nat) (line' : Nat) :
    Script.EndsAlike (.skipping k.store.scopes.size own) [name]
      ((stmt (callsWithin Host.none n) options 0 (Stmt.force name line')).finish k)
      ((forced options e n).finish k') := by
  cases n with
  | zero =>
    have hleft : stmt (callsWithin Host.none 0) options 0 (Stmt.force name line') k = .error .depth k :=
      stmt_force hbound _ line'
    exact .of_error hleft rfl hk.output fun i i' hi =>
      hs.scopes_skipping hk.stores.size_eq (fun i => hk.stores.scopes i i rfl) hi
  | succ n =>
    let F := k.store.scopes.size
    let k₁ : Machine := { k with store := k.store.pushChild 0 }
    have hleft : stmt (callsWithin Host.none (n + 1)) options 0 (Stmt.force name line') k =
        expr (callsWithin Host.none n) options F e k₁ :=
      (stmt_force hbound _ line').trans (function_thunk _ own line' k)
    have hk₁ : k₁.Alike (.skipping F own) [name] k₁.store k' :=
      ⟨hk.stores.frame hs 0, .refl _ _ _, hk.output⟩
    have hsize : k₁.store.scopes.size = F + 1 := Store.size_push _ _
    have hplace : Store.Place (.skipping F own) k₁.store F 0 := by
      refine .frame (hsize ▸ Nat.lt_succ_self F) (fun j => skip_ne F j) ?_
        (hsize ▸ Nat.lt_succ_of_lt hlt) (skip_of_lt hlt).symm
      have hroot : k₁.store.scope 0 = k.store.scope 0 := Store.scope_push_of_lt _ hlt
      rw [show k₁.store.scope F = { ancestors := k.store.chain 0 } from Store.scope_push_self _ _,
        Store.chain, Store.chain, hroot]
    have hends : EndsAlike (.skipping F own) [name] k₁.store (Value.Alike _ [name])
        (expr (callsWithin Host.none n) options F e k₁) (expr (callsWithin Host.none n) options 0 e k') :=
      expr_follows (callsWithin_follow _ _ _ .none n) hplace e (List.disjoint_singleton.2 he) k₁ k' hk₁
    rw [← hleft] at hends
    exact .of_endsAlike hends

end Eval

/-! ## Runs -/

theorem Eval.Approximates.finish_eq {c d : Eval Value} (h : Approximates c d) {m : Machine}
    (hc : (c.finish m).1 ≠ .tooDeep) : c.finish m = d.finish m := by
  rcases h m with he | ⟨m', he⟩
  · exact finish_congr he
  · refine absurd ?_ hc
    unfold EvalIn.finish EStateM.run
    rw [he]

theorem Outcome.Renamed.ne_tooDeep {w : Renaming} {o o' : Outcome} (h : o.Renamed w o')
    (ho : o ≠ .tooDeep) : o' ≠ .tooDeep := by
  cases h with
  | value h => exact nofun
  | failed e => exact nofun
  | tooDeep => exact absurd rfl ho

namespace Program

variable {options : Options} {program later : Program} {name : String} {e : Expr}

/-- A program that declares a thunk, goes on, and calls it. -/
def throughThunk (program later : Program) (name : String) (e : Expr) (line line' : Nat) : Program :=
  program ++ Stmt.thunk name e line :: later ++ [Stmt.force name line']

/-- The program with the expression in place of the call, which has one nested call less. -/
theorem throughThunk_endsAlike (n : Nat) (options : Options)
    (hprogram : name ∉ Stmt.allNames program) (hlater : name ∉ Stmt.allNames later)
    (he : name ∉ e.names) (hbuiltin : name ∉ builtinNames) (line line' : Nat) :
    ∃ frame own, Script.EndsAlike (.skipping frame own) [name]
      ((Eval.stmts (callsWithin Host.none n) options 0 .null
        (throughThunk program later name e line line')).finish Script.singleGlobal)
      ((Eval.stmts (callsWithin Host.none n) options 0 .null (program ++ later) >>= fun _ =>
        Eval.forced options e n).finish Script.singleGlobal) := by
  obtain ⟨own, hready⟩ := Eval.thunkReady n options hprogram hlater hbuiltin e line
  have hsound :=
    (Eval.globalRun_endsWithin n options (program ++ Stmt.thunk name e line :: later)).sound
  rw [throughThunk, Eval.stmts_append]
  generalize hc : Eval.stmts (callsWithin Host.none n) options 0 .null
    (program ++ Stmt.thunk name e line :: later) = c at hready hsound ⊢
  generalize Eval.stmts (callsWithin Host.none n) options 0 .null (program ++ later) = d at hready ⊢
  cases hleft : c Script.singleGlobal with
  | error halt k =>
    rw [hleft] at hready hsound
    cases hright : d Script.singleGlobal with
    | ok v k' =>
      rw [hright] at hready
      cases hready
    | error halt' k' =>
      rw [hright] at hready
      cases hready with
      | error _ hscopes hsize houtput =>
        have hstopped : (c >>= fun v =>
            Eval.stmts (callsWithin Host.none n) options 0 v [Stmt.force name line'])
              Script.singleGlobal = .error halt k := by
          rw [Eval.bind_apply, hleft]
        have hstopped' : (d >>= fun _ => Eval.forced options e n) Script.singleGlobal =
            .error halt k' := by
          rw [Eval.bind_apply, hright]
        exact ⟨k.store.scopes.size, own, .of_error hstopped hstopped' houtput
          fun i i' hi => hsound.scopes_skipping hsize hscopes hi⟩
  | ok v k =>
    rw [hleft] at hready hsound
    cases hright : d Script.singleGlobal with
    | error halt' k' =>
      rw [hright] at hready
      cases hready
    | ok v' k' =>
      rw [hright] at hready
      cases hready with
      | ok hk hbound hlt =>
        refine ⟨k.store.scopes.size, own, ?_⟩
        have hlast : (c >>= fun v =>
            Eval.stmts (callsWithin Host.none n) options 0 v [Stmt.force name line'])
              Script.singleGlobal =
            Eval.stmt (callsWithin Host.none n) options 0 (Stmt.force name line') k := by
          rw [Eval.bind_apply, hleft]
          simp only [Eval.stmts, bind_pure]
        have hlast' : (d >>= fun _ => Eval.forced options e n) Script.singleGlobal =
            Eval.forced options e n k' := by
          rw [Eval.bind_apply, hright]
        rw [Eval.finish_congr hlast, Eval.finish_congr hlast']
        exact Eval.force_endsAlike hk hsound hbound hlt he n line'

/-- The expression after the program. -/
theorem stmts_direct (n : Nat) (line' : Nat) :
    Eval.stmts (callsWithin Host.none n) options 0 .null (program ++ later ++ [.expr e line']) =
      Eval.stmts (callsWithin Host.none n) options 0 .null (program ++ later) >>= fun _ =>
        Eval.expr (callsWithin Host.none n) options 0 e := by
  rw [Eval.stmts_append]
  simp only [Eval.stmts, Eval.stmt, bind_pure]

open Eval in
theorem forced_approximates (options : Options) (e : Expr) (n : Nat) :
    Approximates (forced options e n) (expr (callsWithin Host.none n) options 0 e) := by
  cases n with
  | zero => exact fun m => .inr ⟨m, rfl⟩
  | succ n =>
    have hdeeper : CallsApproximate (callsWithin Host.none n) (callsWithin Host.none (n + 1)) :=
      callsWithin_deeper (fun _ _ _ => rfl) (Nat.le_succ n)
    exact expr_respects (hdeeper.respects options 0).toRespectsExpr e

/-- In a fresh global scope, the call of a thunk whose name is fresh does what its expression does
in its place: the two runs end with the same value but for numbers, or with the same fault, print
the same, and leave the same bindings but for the name of the thunk.  This holds whenever one of the
two ends at all, if the run with the thunk may nest calls once more. -/
theorem thunk_in_place (depth : Nat) (options : Options) (program later : Program) (e : Expr)
    {name : String} (hprogram : name ∉ Stmt.allNames program)
    (hlater : name ∉ Stmt.allNames later) (he : name ∉ e.names) (hbuiltin : name ∉ builtinNames)
    (line line' : Nat) :
    let run (depth : Nat) (p : Program) :=
      (Program.run { depth, options } p 0).finish Script.singleGlobal
    let through := throughThunk program later name e line line'
    let direct := program ++ later ++ [.expr e line']
    ((run depth through).1 ≠ .tooDeep →
      ∃ frame own, Script.EndsAlike (.skipping frame own) [name] (run depth through)
        (run depth direct)) ∧
    ((run depth direct).1 ≠ .tooDeep →
      ∃ frame own, Script.EndsAlike (.skipping frame own) [name] (run (depth + 1) through)
        (run depth direct)) := by
  intro run through direct
  have hthrough (n : Nat) := throughThunk_endsAlike n options hprogram hlater he hbuiltin line line'
  constructor
  · intro hends
    obtain ⟨frame, own, halike⟩ := hthrough depth
    refine ⟨frame, own, ?_⟩
    have happrox := (Eval.Approximates.refl (Eval.stmts (callsWithin Host.none depth) options 0 .null
      (program ++ later))).bind fun _ => forced_approximates options e depth
    rw [← stmts_direct depth line'] at happrox
    rw [happrox.finish_eq (halike.outcome.ne_tooDeep hends)] at halike
    exact halike
  · intro hends
    obtain ⟨frame, own, halike⟩ := hthrough (depth + 1)
    refine ⟨frame, own, ?_⟩
    have hdeeper : Eval.CallsApproximate (callsWithin Host.none depth) (callsWithin Host.none (depth + 1)) :=
      Eval.callsWithin_deeper (fun _ _ _ => rfl) (Nat.le_succ depth)
    have happrox := (Eval.stmts_respects (hdeeper.respects options 0) .null (program ++ later)).bind
      fun _ => Eval.Approximates.refl (Eval.expr (callsWithin Host.none depth) options 0 e)
    rw [← stmts_direct depth line'] at happrox
    have hforced : Eval.forced options e (depth + 1) =
        Eval.expr (callsWithin Host.none depth) options 0 e := rfl
    rw [hforced, ← happrox.finish_eq hends] at halike
    exact halike

/-- `let x = "a";  fn t() { print(x, y) };  x = "b"; let y = "c";  t()` prints what `x` and `y` are
at the time of the call. -/
theorem thunk_in_place_print :
    let before : Program := [.declare "x" false (some (.string "a" 1)) 1]
    let later : Program :=
      [.expr (.assign (.name "x" 3) (.string "b" 3) 3) 3,
        .declare "y" false (some (.string "c" 3)) 3]
    let e : Expr := .call (.name "print" 2) [.name "x" 2, .name "y" 2] 2
    let run (p : Program) := (Program.run { depth := 2 } p 0).finish Script.singleGlobal
    let through := throughThunk before later "t" e 2 4
    (run through).2.output = #["b c"] ∧
      ∃ frame own, Script.EndsAlike (.skipping frame own) ["t"] (run through)
        (run (before ++ later ++ [.expr e 4])) := by
  intro before later e run through
  refine ⟨rfl, (thunk_in_place 2 {} before later e (by decide) (by decide) (by decide) (by decide)
    2 4).1 ?_⟩
  exact fun h => nomatch (show Outcome.value .null = .tooDeep from h)

/-- A built-in name occurs in neither program, but no function can be declared with it. -/
theorem thunk_named_print :
    let e : Expr := .string "a" 1
    let run (p : Program) := (Program.run {} p 0).finish Script.singleGlobal
    let through := throughThunk [] [] "print" e 1 1
    let direct : Program := [.expr e 1]
    "print" ∉ Stmt.allNames direct ∧
      (run through).1 = .failed (.fault ⟨.duplicateDeclaration "print", 1⟩) ∧
      (run direct).1 = .value (.string "a") ∧
      ¬ ∃ w, (run through).1.Renamed w (run direct).1 := by
  intro e run through direct
  have hthrough : (run through).1 = .failed (.fault ⟨.duplicateDeclaration "print", 1⟩) := rfl
  have hdirect : (run direct).1 = .value (.string "a") := rfl
  refine ⟨by decide, hthrough, hdirect, ?_⟩
  rintro ⟨w, h⟩
  rw [hthrough, hdirect] at h
  cases h

end Program

end ScopeScript
