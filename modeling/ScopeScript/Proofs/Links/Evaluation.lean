import ScopeScript.Proofs.Eval.Carried
import ScopeScript.Proofs.Links.Operations

/-!
# Evaluation goes on by operations

On a whole heap, whatever evaluation does is done by operations, one after the other, whether it
succeeds or fails; no scope is freed that was live when it began, and the functions in the value that
it gives were declared in live scopes (`Acts`).  A call releases and drops its own frame, which was
made since.

A native function of the embedding program can do anything to the heap.  `HostIn.Acts` asks that it
does it by operations too, when it is called from a live scope.  It may make calls, for it is given a
way of making them that acts in turn.
-/

namespace ScopeScript

namespace Eval

variable {α β : Type}

/-- A run of `c` on `h` makes operations, and a value that it ends with is as `Q` says. -/
def Acts (c : EvalIn Heap α) (h : Heap) (Q : α → Heap → Prop) : Prop :=
  Ensures c h (fun a h' => Leads h h' ∧ Q a h') fun _ h' => Leads h h'

/-- The scope is a live one of a whole heap. -/
structure Stands (h : Heap) (scope : ScopeId) : Prop where
  whole : h.Whole
  live : h.Live scope

/-! ## Rules -/

section Rules

variable {c : EvalIn Heap α} {f : α → EvalIn Heap β} {h h' : Heap} {P Q : α → Heap → Prop}
  {R : β → Heap → Prop} {scope : ScopeId}

theorem Stands.leads (hs : Stands h scope) (hl : Leads h h') : Stands h' scope :=
  ⟨hl.whole hs.whole, hl.live _ hs.live⟩

theorem Acts.bind (hc : Acts c h P) (hf : ∀ a h', Leads h h' → P a h' → Acts (f a) h' R) :
    Acts (c >>= f) h R := by
  refine Ensures.bind (hc.mono (fun a h' ha => ?_) fun _ _ => id)
  exact (hf a h' ha.1 ha.2).mono (fun b n hb => ⟨ha.1.trans hb.1, hb.2⟩) fun _ n hn => ha.1.trans hn

theorem Acts.leads (hc : Acts c h Q) : Leads h (machineAfter (c h)) := by
  unfold Acts Ensures at hc
  cases hr : c h with
  | ok a h' =>
    rw [hr] at hc
    exact hc.1
  | error e h' =>
    rw [hr] at hc
    exact hc

theorem acts_pure {a : α} (ha : Q a h) : Acts (pure a) h Q := ⟨.refl h, ha⟩

theorem acts_throw {e : Halt} : Acts (throw e) h Q := Leads.refl h

theorem acts_fault {cause : FaultCause} {line : Nat} : Acts (fault cause line) h Q := acts_throw

end Rules

/-! ## Steps -/

section Steps

variable {h : Heap} {scope : ScopeId} {name : String} {value : Value} {line : Nat}

theorem lookup_acts (hw : h.Whole) : Acts (lookup scope name line) h Value.In := by
  unfold Acts Ensures
  rw [Heap.lookup_apply]
  cases hv : h.lookup scope name with
  | ok v => exact ⟨.refl h, hw.value_in hv⟩
  | error e => exact .refl h

/-- A change of the heap that is an operation if it succeeds. -/
theorem tryHeap_acts {f : Heap → Except ScopeError Heap}
    (hf : ∀ h', f h = .ok h' → Operation h h' ∧ h.Grows h') :
    Acts (Heap.tryHeap f) h fun _ _ => True := by
  unfold Acts Ensures
  rw [Heap.tryHeap_apply]
  cases hr : f h with
  | ok h' => exact ⟨.single (hf h' hr).1 (hf h' hr).2, trivial⟩
  | error e => exact ⟨.refl h, trivial⟩

theorem ofScope_acts {result : Except ScopeError Unit} :
    Acts (ofScope name line result) h fun _ _ => True := by
  cases result with
  | ok u => exact acts_pure trivial
  | error e => exact acts_fault

theorem tryAssign_acts (hs : Stands h scope) (hv : value.In h) :
    Acts (Heap.tryHeap (·.assign scope name value)) h fun _ _ => True := by
  refine tryHeap_acts fun h' hh => ⟨.assign hs.live hv hh, ?_⟩
  obtain ⟨j, -, -, rfl⟩ := Heap.assign_eq_ok hh
  exact .of_modifyCell h j (fun _ => rfl) fun _ => rfl

theorem tryDeclare_acts (hs : Stands h scope) (hv : value.In h) {constant : Bool} :
    Acts (Heap.tryHeap (·.declare scope name value constant)) h fun _ _ => True := by
  refine tryHeap_acts fun h' hh => ⟨.declare hs.live hv hh, ?_⟩
  obtain ⟨-, rfl⟩ := Heap.declare_eq_ok_iff.1 hh
  exact .of_modifyCell h scope (fun _ => rfl) fun _ => rfl

theorem freshIdentity_acts : Acts freshIdentity h fun _ _ => True :=
  ⟨.single (.issue h) (.of_cells_eq rfl (Nat.le_succ _)), trivial⟩

end Steps

/-! ## Expressions and statements -/

/-- The value that a native function gives, if it gives one, is of the heap. -/
def Gives (r : Except String Value) (h : Heap) : Prop := ∀ v, r = .ok v → v.In h

/-- Calls from live scopes make operations. -/
structure CallsAct (c : CallsIn Heap) : Prop where
  function : ∀ opts f arguments line h, Stands h f.scope → (∀ v ∈ arguments, v.In h) →
    Acts (c.function opts f arguments line) h Value.In
  native : ∀ op arguments scope h, Stands h scope → (∀ v ∈ arguments, v.In h) →
    Acts (c.native op arguments scope) h Gives

/-- Runs in a live scope of a whole heap. -/
def acting (scope : ScopeId) : Invariant Heap where
  World := Heap
  Leads := Leads
  Fits h v := v.In h
  Runs h V c := Stands h scope → Acts c h fun a h' => V h' a

section Statements

variable {c : CallsIn Heap} {opts : Options} {scope : ScopeId} {h : Heap}

theorem CallsAct.carries (hc : CallsAct c) (opts : Options) (scope : ScopeId) :
    CarriesStmt (acting scope) c opts scope {} where
  pure ha _ := acts_pure ha
  bind hx hf hs := (hx hs).bind fun a h' hl ha => hf h' a hl ha (hs.leads hl)
  fault _ _ _ _ := acts_fault
  mono hl hv := hv.mono hl.live
  null := nofun
  number _ := nofun
  string _ := nofun
  get key ho := Value.in_property ho key
  ofList := Value.in_ofList
  lookup _ hs := lookup_acts hs.whole
  shorthand _ hs := lookup_acts hs.whole
  assign _ hv hs := (tryAssign_acts hs hv).bind fun _ _ _ _ => ofScope_acts
  function _ hf hvs hs :=
    hc.function _ _ _ _ _ ⟨hs.whole, hf _ (List.mem_singleton_self _)⟩ hvs
  native _ hvs hs := hc.native _ _ _ _ hs hvs
  declare _ _ hv hs := (tryDeclare_acts hs hv).bind fun _ _ _ _ => ofScope_acts
  newFunction _ hs := by
    refine freshIdentity_acts.mono ?_ fun _ _ hl => hl
    rintro i h' ⟨hl, -⟩
    refine ⟨hl, fun j hj => ?_⟩
    rw [List.mem_singleton.1 hj]
    exact hl.live _ hs.live

theorem expr_acts (hc : CallsAct c) (e : Expr) (hs : Stands h scope) :
    Acts (expr c opts scope e) h Value.In :=
  expr_carried (hc.carries opts scope).toCarries Code.all_inherits.toInheritsExpr e trivial hs

theorem stmts_acts (hc : CallsAct c) (ss : List Stmt) (hs : Stands h scope) :
    Acts (stmts c opts scope .null ss) h Value.In :=
  stmts_carried (hc.carries opts scope) Code.all_inherits (fun _ _ => trivial) nofun hs

/-! ## Calls -/

/-- A frame that was made since the heap was `h` is released and dropped. -/
theorem inFrame_acts {h₁ : Heap} {frame : ScopeId} (hw : h.Whole) (hl : Leads h h₁)
    (hframe : h.cells.size ≤ frame) (hlive : h₁.Live frame) {bindParams : EvalIn Heap Unit}
    {body : EvalIn Heap Value}
    (hbody : Acts (do bindParams; body : EvalIn Heap Value) h₁ Value.In) :
    Ensures (HasScopes.inFrame frame bindParams body) h₁ (fun v h' => Leads h h' ∧ v.In h')
      fun _ h' => Leads h h' := by
  have hup {vs : List Value} {h₂ h₃ : Heap} (hl₂ : Leads h₁ h₂) (hup : h₂.GivesUp frame vs h₃) :
      Leads h h₃ := by
    have hbefore := hl.trans hl₂
    refine ⟨?_, ((hbefore.grows hw).leaves hframe hup.leaves).live⟩
    cases hup with
    | dropped => exact hbefore.operations.tail (.drop h₂ frame vs)
    | released =>
      have hreleased := hbefore.operations.tail
        (.release (hl₂.live _ hlive) vs (1 + h₂.held.count frame))
      exact hreleased.tail (.drop _ frame vs)
  unfold Acts Ensures at hbody
  unfold Ensures
  obtain ⟨v, h₂, h₃, hrun, hend, hgives⟩ | ⟨e, h₂, h₃, hrun, hend, hgives⟩ :=
    Heap.inFrame_ends frame bindParams body h₁
  · rw [hrun] at hbody
    rw [hend]
    obtain ⟨hl₂, hv⟩ := hbody
    exact ⟨hup hl₂ hgives, hv.leaves hgives.leaves (List.mem_singleton_self v)⟩
  · rw [hrun] at hbody
    rw [hend]
    exact hup hbody hgives

theorem function_acts (hc : CallsAct c) {f : Closure} {arguments : List Value} {line : Nat}
    (hs : Stands h f.scope) (harguments : ∀ v ∈ arguments, v.In h) :
    Acts (function c opts f arguments line) h Value.In := by
  let frame := h.cells.size
  let h₁ := h.push { parent := some f.scope }
  have hl : Leads h h₁ := .single (.child hs.live) (.of_push h _)
  have hs₁ : Stands h₁ frame := ⟨hl.whole hs.whole, h.live_push rfl⟩
  have hbody : Acts (do bindParams frame line f.params arguments; stmts c opts frame .null f.body :
      EvalIn Heap Value) h₁ Value.In := by
    have hparams : Acts (bindParams frame line f.params arguments) h₁ fun _ _ => True :=
      bindParams_carried (hc.carries opts frame) trivial f.params (fun _ _ => trivial)
        (fun v hv => (harguments v hv).mono hl.live) hs₁
    exact hparams.bind fun _ h₂ hl₂ _ => stmts_acts hc f.body (hs₁.leads hl₂)
  have hcall := inFrame_acts hs.whole hl (Nat.le_refl _) hs₁.live hbody
  unfold Ensures at hcall
  unfold Acts Ensures
  exact hcall

end Statements

end Eval

/-! ## Hosts -/

/-- A native function of the embedding program goes on by operations, and gives a value of the heap.
It may call functions, which do so in turn. -/
def CallbackIn.Acts (callback : CallbackIn Heap) : Prop :=
  ∀ calls, Eval.CallsAct calls → ∀ arguments scope h, Eval.Stands h scope →
    (∀ v ∈ arguments, v.In h) → Eval.Acts (callback calls arguments scope) h Eval.Gives

def HostIn.Acts (host : HostIn Heap) : Prop := ∀ key, CallbackIn.Acts (host key)

theorem HostIn.Acts.callsWithin {host : HostIn Heap} (hh : host.Acts) (n : Nat) :
    Eval.CallsAct (callsWithin host n) := by
  induction n with
  | zero => exact ⟨fun _ _ _ _ _ _ _ => Eval.acts_throw, fun _ _ _ _ _ _ => Eval.acts_throw⟩
  | succ n ih =>
    refine ⟨fun opts f arguments line h hf harguments => Eval.function_acts ih hf harguments,
      fun op arguments scope h hs harguments => ?_⟩
    cases op with
    | print =>
      refine ⟨.single (.output h _) (.of_cells_eq rfl (Nat.le_refl _)), ?_⟩
      rintro v ⟨⟩
      exact nofun
    | typeOf =>
      refine Eval.acts_pure fun v hv => ?_
      obtain ⟨s, rfl⟩ := NativeOp.typeName_eq_ok hv
      exact nofun
    | hosted key => exact hh key _ ih arguments scope h hs harguments

end ScopeScript
