import ScopeScript.Session
import ScopeScript.Proofs.Links.Evaluation

/-!
# Links of every reachable heap

An embedding program and the native functions that it defines may make scopes, declare, assign,
clear, release, capture and evaluate in any order, and go on after a failure.  Every heap that it can
reach is whole, and all parents stay as they are from then on.

So the way from a scope outwards ends: `Walk h name i visited r` goes from parent to parent until a
scope binds `name`.  Along the way it meets no scope twice, and where it ends is the owner that
`lookup` and `assign` use (`reached_links`).
-/

namespace ScopeScript

/-! ## Native functions of a session -/

namespace Reflection

open Eval

variable {h : Heap} {scope : ScopeId} {arguments : List Value} {name : String}

theorem gives_error {message : String} : Gives (.error message) h := nofun

/-- The value holds no function. -/
theorem gives_ok {v : Value} (hv : v.scopes = []) : Gives (.ok v) h := by
  rintro w ⟨⟩ i hi
  rw [hv] at hi
  cases hi

theorem withName_acts {f : String → EvalIn Heap (Except String Value)}
    (hf : ∀ name, Acts (f name) h Gives) : Acts (withName arguments f) h Gives := by
  unfold withName
  split
  · exact hf _
  · exact acts_pure gives_error

theorem update_acts {c : EvalIn Heap (Except ScopeError Unit)}
    (hc : Acts c h fun _ _ => True) : Acts (update name c) h Gives := by
  refine hc.bind fun result h' _ _ => ?_
  cases result with
  | ok u => exact acts_pure (gives_ok rfl)
  | error e => exact acts_pure gives_error

/-- The value after the name, null if there is none. -/
theorem in_headD_tail (ha : ∀ v ∈ arguments, v.In h) : (arguments.tail.headD .null).In h := by
  match arguments with
  | [] | [_] => exact nofun
  | _ :: v :: _ => exact ha v (List.mem_cons_of_mem _ List.mem_cons_self)

theorem apply_acts : CallbackIn.Acts apply := by
  intro calls hcalls arguments scope h hs harguments
  unfold apply
  split
  · next f rest =>
    have hf : Stands h f.scope :=
      ⟨hs.whole, harguments (.function f) List.mem_cons_self f.scope (List.mem_singleton_self _)⟩
    have hrest : ∀ v ∈ rest, v.In h := fun v hv => harguments v (List.mem_cons_of_mem _ hv)
    have hcall := hcalls.function {} f rest 0 h hf hrest
    unfold Acts Ensures at hcall ⊢
    rw [tryCatch_apply, map_eq_pure_bind, bind_apply]
    cases hr : calls.function {} f rest 0 h with
    | ok v h' =>
      rw [hr] at hcall
      refine ⟨hcall.1, ?_⟩
      rintro w ⟨⟩
      exact hcall.2
    | error e h' =>
      rw [hr] at hcall
      cases e with
      | fault f => exact ⟨hcall, gives_error⟩
      | depth => exact hcall
  · next n rest =>
    exact hcalls.native n.op rest scope h hs fun v hv => harguments v (List.mem_cons_of_mem _ hv)
  · exact acts_pure gives_error

theorem get_acts {f : Heap → EvalIn Heap (Except String Value)} (hf : Acts (f h) h Gives) :
    Acts (get >>= f) h Gives := hf

theorem tryLookup_acts {scope : ScopeId} {name : String}
    {f : Except ScopeError Value → EvalIn Heap (Except String Value)}
    (hf : Acts (f (h.lookup scope name)) h Gives) :
    Acts (HasScopes.lookup scope name >>= f) h Gives := hf

theorem table_acts : ∀ entry ∈ table, CallbackIn.Acts entry.2 := by
  simp only [table, List.forall_mem_cons, List.not_mem_nil, false_implies, implies_true, and_true]
  refine ⟨?peek, ?poke, ?define, ?own, ?clear, ?describe, ?capture, ?fail, ?count, ?collect, ?equal,
    apply_acts⟩
  all_goals intro calls _ arguments scope h hs harguments
  case peek =>
    refine withName_acts fun name => tryLookup_acts ?_
    cases hv : h.lookup scope name with
    | ok v =>
      refine acts_pure ?_
      rintro w ⟨⟩
      exact hs.whole.value_in hv
    | error e => exact acts_pure gives_error
  case poke =>
    exact withName_acts fun name => update_acts (tryAssign_acts hs (in_headD_tail harguments))
  case define =>
    exact withName_acts fun name => update_acts (tryDeclare_acts hs (in_headD_tail harguments))
  case own => exact withName_acts fun name => get_acts (acts_pure (gives_ok rfl))
  case clear =>
    exact ⟨.single (.clear hs.live) (.of_modifyCell h scope (fun _ => rfl) fun _ => rfl), gives_ok rfl⟩
  case describe => exact acts_pure (gives_ok rfl)
  case capture =>
    exact ⟨.single (.hold hs.live) (.of_cells_eq rfl (Nat.le_refl _)), gives_ok rfl⟩
  case fail => exact acts_pure gives_error
  case count => exact acts_pure (gives_ok rfl)
  case collect =>
    refine acts_pure ?_
    rintro w ⟨⟩
    refine Value.in_ofList fun e he => ?_
    obtain ⟨⟨v, i⟩, hv, rfl⟩ := List.mem_map.1 he
    exact harguments v (List.fst_mem_of_mem_zipIdx hv)
  case equal =>
    unfold equal
    split
    · exact acts_pure (gives_ok rfl)
    · exact acts_pure (gives_ok rfl)

theorem host_acts : HostIn.Acts host := by
  intro key
  unfold host
  cases hkey : (table (σ := Heap)).lookup key with
  | none =>
    intro calls _ arguments scope h _ _
    exact acts_pure gives_error
  | some callback =>
    obtain ⟨before, after, htable, -⟩ := List.lookup_eq_some_iff.1 hkey
    have hmem : (key, callback) ∈ table := by
      rw [htable]
      exact List.mem_append_right before List.mem_cons_self
    exact table_acts (key, callback) hmem

end Reflection

/-! ## Reachable heaps -/

/-- One evaluation, which may fail.  It starts from live scopes and values that lead to live scopes,
and native functions of the embedding program that it calls act. -/
inductive Evaluation (h : Heap) : Heap → Prop
  | expr {setting : SettingIn Heap} (hhost : setting.host.Acts) {scope : ScopeId}
      (hscope : h.Live scope) (e : Expr) :
      Evaluation h (Eval.machineAfter (Eval.expr setting.calls setting.options scope e h))
  | program {setting : SettingIn Heap} (hhost : setting.host.Acts) {scope : ScopeId}
      (hscope : h.Live scope) (program : Program) :
      Evaluation h (Eval.machineAfter (program.run setting scope h))
  | script {setting : SettingIn Heap} (hhost : setting.host.Acts) {scope : ScopeId}
      (hscope : h.Live scope) (source : String) :
      Evaluation h (Script.runIn setting source scope h).2
  | function {setting : SettingIn Heap} (hhost : setting.host.Acts) {f : Closure}
      (hf : (Value.function f).In h) {arguments : List Value}
      (harguments : ∀ v ∈ arguments, v.In h) (line : Nat) :
      Evaluation h
        (Eval.machineAfter (setting.calls.function setting.options f arguments line h))
  | native {setting : SettingIn Heap} (hhost : setting.host.Acts) (op : NativeOp)
      {arguments : List Value} (harguments : ∀ v ∈ arguments, v.In h) {scope : ScopeId}
      (hscope : h.Live scope) :
      Evaluation h (Eval.machineAfter (setting.calls.native op arguments scope h))

/-- Operations and evaluations in any order. -/
abbrev Reaches : Heap → Heap → Prop :=
  Relation.ReflTransGen fun h h' => Operation h h' ∨ Evaluation h h'

theorem EvalIn.finish_snd {σ : Type} (c : EvalIn σ Value) (m : σ) :
    (c.finish m).2 = Eval.machineAfter (c m) := by
  unfold EvalIn.finish EStateM.run
  cases c m with
  | ok v m' => rfl
  | error e m' => cases e <;> rfl

theorem Evaluation.leads {h h' : Heap} (hw : h.Whole) (he : Evaluation h h') : Leads h h' := by
  have hprogram {setting : SettingIn Heap} (hhost : setting.host.Acts) {scope : ScopeId}
      (hscope : h.Live scope) (program : Program) :
      Leads h (Eval.machineAfter (program.run setting scope h)) :=
    (Eval.stmts_acts (hhost.callsWithin _) program ⟨hw, hscope⟩).leads
  cases he with
  | expr hhost hscope e => exact (Eval.expr_acts (hhost.callsWithin _) e ⟨hw, hscope⟩).leads
  | program hhost hscope program => exact hprogram hhost hscope program
  | @script setting hhost scope hscope source =>
    unfold Script.runIn
    cases Program.ofText source with
    | error e => exact .refl h
    | ok program =>
      dsimp only
      rw [EvalIn.finish_snd]
      exact hprogram hhost hscope program
  | function hhost hf harguments line =>
    have hscope := hf _ (List.mem_singleton_self _)
    exact ((hhost.callsWithin _).function _ _ _ line h ⟨hw, hscope⟩ harguments).leads
  | native hhost op harguments hscope =>
    exact ((hhost.callsWithin _).native op _ _ h ⟨hw, hscope⟩ harguments).leads

/-- Nothing but operations happens. -/
theorem Reaches.operations {h h' : Heap} (hw : h.Whole) (hr : Reaches h h') :
    Relation.ReflTransGen Operation h h' := by
  induction hr with
  | refl => exact .refl
  | tail _ hstep ih =>
    rcases hstep with ho | he
    · exact ih.tail ho
    · exact ih.trans (he.leads (whole_of_operations hw ih).1).operations

/-! ## The way outwards -/

namespace Heap

/-- From the scope `i`, going from parent to parent until a scope binds `name`, the scopes `visited`
are met; the last of them is the result if it binds the name. -/
inductive Walk (h : Heap) (name : String) : ScopeId → List ScopeId → Option ScopeId → Prop
  | found {i : ScopeId} (hown : h.hasOwn i name = true) : Walk h name i [i] (some i)
  | outward {i p : ScopeId} {visited : List ScopeId} {result : Option ScopeId}
      (hown : h.hasOwn i name = false) (hp : h.parent? i = some p)
      (hw : Walk h name p visited result) : Walk h name i (i :: visited) result
  | missing {i : ScopeId} (hown : h.hasOwn i name = false) (hp : h.parent? i = none) :
      Walk h name i [i] none

/-- There is only one way to go. -/
theorem Walk.unique {h : Heap} {name : String} {i : ScopeId} {visited visited' : List ScopeId}
    {result result' : Option ScopeId} (hw : h.Walk name i visited result)
    (hw' : h.Walk name i visited' result') : visited' = visited ∧ result' = result := by
  induction hw generalizing visited' result' with
  | found hown =>
    cases hw' with
    | found => exact ⟨rfl, rfl⟩
    | outward hn | missing hn =>
      rw [hown] at hn
      cases hn
  | outward hown hp _ ih =>
    cases hw' with
    | found hn =>
      rw [hown] at hn
      cases hn
    | outward _ hp' hw' =>
      obtain rfl := Option.some.inj (hp.symm.trans hp')
      obtain ⟨rfl, rfl⟩ := ih hw'
      exact ⟨rfl, rfl⟩
    | missing _ hp' => cases hp.symm.trans hp'
  | missing hown hp =>
    cases hw' with
    | found hn =>
      rw [hown] at hn
      cases hn
    | outward _ hp' _ => cases hp.symm.trans hp'
    | missing => exact ⟨rfl, rfl⟩

namespace Whole

variable {h : Heap} {i : ScopeId}

/-- As many steps as the number of the scope says are enough: the way ends at the owner, and the
scopes that it meets get older. -/
theorem exists_walkWithin (hw : h.Whole) (name : String) {n : Nat} (hn : i < n) :
    ∃ visited, h.Walk name i visited (h.resolveWithin name n i) ∧
      visited.Pairwise (· > ·) ∧ ∀ j ∈ visited, j ≤ i := by
  induction n generalizing i with
  | zero => cases hn
  | succ n ih =>
    unfold resolveWithin
    cases hown : h.hasOwn i name with
    | true => exact ⟨[i], .found hown, List.pairwise_singleton _ _, by simp⟩
    | false =>
      cases hp : h.parent? i with
      | none => exact ⟨[i], .missing hown hp, List.pairwise_singleton _ _, by simp⟩
      | some p =>
        have hlt := hw.parent_lt i p hp
        obtain ⟨visited, hwalk, holder, hle⟩ :=
          ih (Nat.lt_of_lt_of_le hlt (Nat.le_of_lt_succ hn))
        refine ⟨i :: visited, .outward hown hp hwalk, List.pairwise_cons.2 ⟨fun j hj => ?_, holder⟩,
          fun j hj => ?_⟩
        · exact Nat.lt_of_le_of_lt (hle j hj) hlt
        · rcases List.mem_cons.1 hj with rfl | hj
          · exact Nat.le_refl _
          · exact Nat.le_trans (hle j hj) (Nat.le_of_lt hlt)

theorem exists_walk (hw : h.Whole) (name : String) (i : ScopeId) :
    ∃ visited, h.Walk name i visited (h.resolve i name) ∧ visited.Pairwise (· > ·) := by
  obtain ⟨visited, hwalk, holder, -⟩ := hw.exists_walkWithin name (Nat.lt_succ_self i)
  exact ⟨visited, hwalk, holder⟩

end Whole

end Heap

/-- Whatever an embedding program and its native functions do, scopes stay in order: a name that is
marked as a constant has a value in the same scope; the parents of live scopes, functions and handles
refer to live scopes; a parent is older than its child and remains its parent.  So the way outwards
from any scope ends, at the owner of the name, and goes to an older scope with every step. -/
theorem reached_links {h : Heap} (hr : Reaches {} h) :
    (∀ i, ∀ name ∈ (h.cell i).constants, h.hasOwn i name = true) ∧
    (∀ i p, h.parent? i = some p → p < i ∧ p < h.cells.size ∧ (h.Live i → h.Live p)) ∧
    (∀ i, ∀ v ∈ (h.cell i).values, ∀ j ∈ v.scopes, h.Live j) ∧
    (∀ i ∈ h.held, h.Live i) ∧
    (∀ h', Reaches h h' → ∀ i < h.cells.size,
      i < h'.cells.size ∧ h'.parent? i = h.parent? i) ∧
    ∀ i name, ∃ visited, h.Walk name i visited (h.resolve i name) ∧ visited.Nodup ∧
      visited.Pairwise (· > ·) ∧
      ∀ visited' result, h.Walk name i visited' result →
        visited' = visited ∧ result = h.resolve i name := by
  have hwhole : h.Whole := (whole_of_operations .empty (hr.operations .empty)).1
  refine ⟨hwhole.marked, fun i p hp => ?_, hwhole.values, hwhole.held, fun h' hr' i hi => ?_,
    fun i name => ?_⟩
  · have hlt := hwhole.parent_lt i p hp
    exact ⟨hlt, Nat.lt_trans hlt (Heap.lt_size_of_parent? hp), fun hi => hwhole.parent i hi p hp⟩
  · obtain ⟨-, hlinks⟩ := whole_of_operations hwhole (hr'.operations hwhole)
    exact ⟨Nat.lt_of_lt_of_le hi hlinks.size_le, hlinks.parent i hi⟩
  · obtain ⟨visited, hwalk, holder⟩ := hwhole.exists_walk name i
    exact ⟨visited, hwalk, holder.imp Nat.ne_of_gt, holder, fun visited' result hw =>
      hwalk.unique hw⟩

/-- `fn f(x) { const y = f  define("z", y)  capture()  clear() }  f("a")` -/
def clearingProgram : Program :=
  [.function "f" ["x"]
      [.declare "y" true (some (.name "f" 1)) 1,
        .expr (.call (.name "define" 1) [.string "z" 1, .name "y" 1] 1) 1,
        .expr (.call (.name "capture" 1) [] 1) 1,
        .expr (.call (.name "clear" 1) [] 1) 1] 1,
    .expr (.call (.name "f" 1) [.string "a" 1] 1) 1]

/-- A root scope with three functions of a session. -/
def reflectingHeap : Heap where
  cells := #[
    { bindings := .ofList [("define", .native ⟨0, "define", .hosted "define"⟩),
        ("capture", .native ⟨1, "capture", .hosted "capture"⟩),
        ("clear", .native ⟨2, "clear", .hosted "clear"⟩)]
      constants := ["clear", "capture", "define"] }]
  issued := 3

theorem reaches_reflectingHeap : Reaches {} reflectingHeap := by
  have hdefine (name : String) (n : Native) {h h' : Heap} (hr : Reaches {} h)
      (hlive : h.Live 0)
      (hd : ({ h with issued := h.issued + 1 } : Heap).declare 0 name (.native n) true = .ok h') :
      Reaches {} h' :=
    have hn : (Value.native n).In { h with issued := h.issued + 1 } := nofun
    (hr.tail (.inl (.issue h))).tail (.inl (.declare hlive hn hd))
  have hroot : Reaches {} { cells := #[{}] } := .single (.inl (.root {}))
  have h₀ := hdefine "define" ⟨0, "define", .hosted "define"⟩ hroot ⟨Nat.one_pos, rfl⟩ rfl
  have h₁ := hdefine "capture" ⟨1, "capture", .hosted "capture"⟩ h₀ ⟨Nat.one_pos, rfl⟩ rfl
  exact hdefine "clear" ⟨2, "clear", .hosted "clear"⟩ h₁ ⟨Nat.one_pos, rfl⟩ rfl

/-- The frame of a call, captured and then cleared from within the call: it outlives the call, and
no mark is left in it. -/
theorem reached_links_clearing :
    let h := Eval.machineAfter
      (clearingProgram.run { host := Reflection.host, depth := 2 } 0 reflectingHeap)
    Reaches {} h ∧ h.held = #[1] ∧ (h.cell 1).freed = false ∧ (h.cell 1).constants = [] ∧
      h.parent? 1 = some 0 ∧
      ∃ visited, h.Walk "define" 1 visited (h.resolve 1 "define") ∧ visited.Nodup := by
  intro h
  have hh : Reaches {} h := reaches_reflectingHeap.tail
    (.inr (.program Reflection.host_acts ⟨Nat.one_pos, rfl⟩ clearingProgram))
  obtain ⟨-, -, -, -, -, hwalk⟩ := reached_links hh
  obtain ⟨visited, hvisited, hnodup, -⟩ := hwalk 1 "define"
  refine ⟨hh, ?_, ?_, ?_, ?_, visited, hvisited, hnodup⟩
  · decide +kernel
  · decide +kernel
  · decide +kernel
  · decide +kernel

end ScopeScript
