import ScopeScript.Proofs.Run
import ScopeScript.Proofs.Fresh.Stores

/-!
# Evaluation does not see fresh names

Code that does not mention the fresh names does the same in stores that are alike but for them:
`c.Follows d` says that from every two such machines both computations end alike, with results that
`V` relates or stopped with the same error.

    expr_follows        an expression, in scopes that are in the same place
    function_follows    a call; its frames are paired
    callsWithin_follow  calls of any depth, by induction on the depth

The renaming and the names are fixed, so a step is all that has to be looked at: sequences of steps
follow each other if their steps do.
-/

namespace ScopeScript

structure Machine.Alike (w : Renaming) (fresh : List String) (start : Store) (m m' : Machine) :
    Prop where
  stores : m.store.Alike w fresh m'.store
  spares : start.Spares w fresh m.store
  output : m.output = m'.output

namespace Eval

variable {α β γ δ : Type} {w : Renaming} {fresh : List String} {start : Store}

inductive EndsAlike (w : Renaming) (fresh : List String) (start : Store) (V : α → γ → Prop) :
    EStateM.Result Halt Machine α → EStateM.Result Halt Machine γ → Prop
  | ok {a : α} {b : γ} {n n' : Machine} (hn : n.Alike w fresh start n') (hv : V a b) :
      EndsAlike w fresh start V (.ok a n) (.ok b n')
  | error (e : Halt) {n n' : Machine} (hn : n.Alike w fresh start n') :
      EndsAlike w fresh start V (.error e n) (.error e n')

/-- From machines that are alike both computations end alike. -/
def Follows (w : Renaming) (fresh : List String) (start : Store) (V : α → γ → Prop) (c : Eval α)
    (d : Eval γ) : Prop :=
  ∀ m m' : Machine, m.Alike w fresh start m' → EndsAlike w fresh start V (c m) (d m')

/-- Computations of values. -/
abbrev FollowsValue (w : Renaming) (fresh : List String) (start : Store) : Eval Value → Eval Value →
    Prop :=
  Follows w fresh start (Value.Alike w fresh)

/-! ## Sequences -/

namespace Follows

variable {V : α → γ → Prop} {W : β → δ → Prop} {c : Eval α} {d : Eval γ}

theorem bind {f : α → Eval β} {g : γ → Eval δ} (h : Follows w fresh start V c d)
    (hf : ∀ a b, V a b → Follows w fresh start W (f a) (g b)) :
    Follows w fresh start W (c >>= f) (d >>= g) := by
  intro m m' hm
  have hc := h m m' hm
  rw [bind_apply, bind_apply]
  generalize c m = r at hc ⊢
  generalize d m' = r' at hc ⊢
  cases hc with
  | ok hn hv => exact hf _ _ hv _ _ hn
  | error e hn => exact .error e hn

theorem pure {a : α} {b : γ} (h : V a b) : Follows w fresh start V (Pure.pure a) (Pure.pure b) :=
  fun _ _ hm => .ok hm h

theorem throw (e : Halt) : Follows w fresh start V (throw e) (throw e) :=
  fun _ _ hm => .error e hm

theorem fault (cause : FaultCause) (line : Nat) :
    Follows w fresh start V (fault cause line) (fault cause line) :=
  .throw _

end Follows

/-! ## Steps -/

section Steps

variable {p p' : ScopeId} {name : String} {v v' : Value}

theorem lookup_follows (hp : Store.Place w start p p') (hn : name ∉ fresh) (line : Nat) :
    FollowsValue w fresh start (lookup p name line) (lookup p' name line) := by
  intro m m' hm
  have hlookup := hm.stores.lookup hm.spares hp hn
  rw [lookup_apply, lookup_apply]
  generalize m.store.lookup p name = x at hlookup ⊢
  generalize m'.store.lookup p' name = x' at hlookup ⊢
  cases hlookup with
  | ok hv => exact .ok hm hv
  | error e => exact .error _ hm

/-- Operations on scopes that keep the stores alike, or both fail. -/
theorem tryStore_follows {f f' : Store → Except ScopeError Store} (name : String) (line : Nat)
    (h : ∀ s s' : Store, s.Alike w fresh s' → start.Spares w fresh s →
      SameExcept (Store.Alike.Written w fresh start) (f s) (f' s')) :
    Follows w fresh start (fun _ _ => True) (tryStore f >>= ofScope name line)
      (tryStore f' >>= ofScope name line) := by
  intro m m' hm
  have hstep := h _ _ hm.stores hm.spares
  rw [ofTryStore_apply, ofTryStore_apply]
  generalize f m.store = x at hstep ⊢
  generalize f' m'.store = x' at hstep ⊢
  cases hstep with
  | ok hs => exact .ok ⟨hs.1, hs.2, hm.output⟩ trivial
  | error e => exact .error _ hm

theorem declare_follows (hp : w.scope p p') (hn : name ∉ fresh) (hv : v.Alike w fresh v')
    (constant : Bool) (line : Nat) :
    Follows w fresh start (fun _ _ => True) (declare p name v constant line)
      (declare p' name v' constant line) :=
  tryStore_follows name line fun _ _ hs hstart => hs.declare hstart hp hn hv constant

theorem assign_follows (hp : Store.Place w start p p') (hn : name ∉ fresh)
    (hv : v.Alike w fresh v') (line : Nat) :
    Follows w fresh start (fun _ _ => True) (assign p name v line) (assign p' name v' line) :=
  tryStore_follows name line fun _ _ hs hstart => hs.assign hstart hp hn hv

theorem child_follows (hp : w.scope p p') :
    Follows w fresh start w.scope (child p) (child p') :=
  fun _ _ hm => .ok ⟨hm.stores.pushChild hp, hm.spares.push _, hm.output⟩ (hm.stores.next 0)

theorem freshIdentity_follows : Follows w fresh start w.identity freshIdentity freshIdentity :=
  fun _ _ hm => .ok ⟨hm.stores.freshIdentity, hm.spares.freshIdentity, hm.output⟩
    (hm.stores.next_identity 0)

theorem print_follows (text : String) :
    Follows w fresh start (fun _ _ => True) (print text) (print text) :=
  fun _ _ hm => .ok ⟨hm.stores, hm.spares, congrArg (·.push text) hm.output⟩ trivial

end Steps

/-! ## Expressions -/

/-- Calls of functions that avoid the fresh names follow each other. -/
structure CallsFollow (w : Renaming) (fresh : List String) (start : Store) (c d : Calls) : Prop where
  function : ∀ opts f f' arguments arguments' line,
    (Value.function f).Alike w fresh (.function f') →
    List.Forall₂ (Value.Alike w fresh) arguments arguments' →
    FollowsValue w fresh start (c.function opts f arguments line)
      (d.function opts f' arguments' line)
  native : ∀ op arguments arguments' scope scope', (∀ key, op ≠ .hosted key) →
    List.Forall₂ (Value.Alike w fresh) arguments arguments' →
    Follows w fresh start (SameExcept (Value.Alike w fresh)) (c.native op arguments scope)
      (d.native op arguments' scope')

/-- Code that does not mention the fresh names. -/
def avoiding (fresh : List String) : Code where
  expr e := e.names.Disjoint fresh
  field p := p.names.Disjoint fresh
  stmt s := s.names.Disjoint fresh
  binds name := name ∉ fresh

theorem avoiding_inherits (fresh : List String) : (avoiding fresh).InheritsStmt where
  binary he := ⟨(List.disjoint_append_left.1 he).1, (List.disjoint_append_left.1 he).2, trivial⟩
  assign he := ⟨(List.disjoint_append_left.1 he).2, trivial⟩
  call he := ⟨Expr.disjoint_allNames_iff.1 (List.disjoint_append_left.1 he).2,
    (List.disjoint_append_left.1 he).1, trivial⟩
  dot he := ⟨he, trivial, .inr ⟨trivial, trivial⟩⟩
  index he := ⟨(List.disjoint_append_left.1 he).1, (List.disjoint_append_left.1 he).2, trivial⟩
  object he := Property.disjoint_allNames_iff.1 he
  field he := he
  declare {name _ value _} hs := by
    cases value with
    | none => exact ⟨trivial, List.singleton_disjoint.1 hs, nofun⟩
    | some e =>
      obtain ⟨hname, he⟩ := List.disjoint_cons_left.1 hs
      exact ⟨trivial, hname, fun _ h => Option.some.inj h ▸ he⟩
  function hs := ⟨trivial, (List.disjoint_cons_left.1 hs).1⟩
  exprStmt hs := hs

def following (w : Renaming) (fresh : List String) (start : Store) : Coupling Machine Machine where
  World := Unit
  Leads _ _ := True
  Fits _ := Value.Alike w fresh
  Runs _ V c d := Follows w fresh start (V ()) c d

section Expressions

variable {c d : Calls} {opts : Options} {p p' : ScopeId}

theorem CallsFollow.couples (hc : CallsFollow w fresh start c d) (hp : Store.Place w start p p')
    (opts : Options) : Couples (following w fresh start) c d opts p p' (avoiding fresh) {} where
  pure := .pure
  bind hx hf := hx.bind fun a b => hf () a b trivial
  fault := .fault
  mono _ hv := hv
  looksLike hv := hv.renamed.looksLike
  null := ⟨.null, trivial⟩
  number x := ⟨.number x, trivial⟩
  string s := ⟨.string s, trivial⟩
  get key ho := Value.Alike.get ho key
  ofList hes := Value.EntriesAlike.ofList hes
  lookup he := lookup_follows hp (List.singleton_disjoint.1 he) _
  shorthand he := lookup_follows hp (List.singleton_disjoint.1 he) _
  assign he hv :=
    assign_follows hp (List.singleton_disjoint.1 (List.disjoint_append_left.1 he).1) hv _
  function hf hvs := hc.function opts _ _ _ _ _ hf hvs
  native := by
    rintro _ n n' vs vs' ⟨⟨⟩, -⟩ hvs
    next hn =>
      rw [← hn.op]
      exact ⟨hn.name.symm, hc.native n.op vs vs' p p' hn.standard hvs⟩

theorem CallsFollow.couplesStmt (hc : CallsFollow w fresh start c d) (hp : w.scope p p')
    (opts : Options) :
    CouplesStmt (following w fresh start) c d opts p p' (avoiding fresh) {} where
  toCouples := hc.couples (.paired hp) opts
  declare hname hv := declare_follows hp hname hv _ _
  newFunction {_ name params body _} hs := by
    have havoids := List.disjoint_append_left.1 (List.disjoint_cons_left.1 hs).2
    intro m m' hm
    have hfresh := freshIdentity_follows m m' hm
    generalize freshIdentity m = r at hfresh ⊢
    generalize freshIdentity m' = r' at hfresh ⊢
    cases hfresh with
    | ok hn hi =>
      refine .ok hn ⟨.function ⟨hi, rfl, rfl, ?_, hp⟩, ?_⟩
      · exact body.map_id.symm
      · exact ⟨havoids.1, by rw [List.map_id]; exact havoids.2⟩
    | error e hn => exact .error e hn

theorem expr_follows (hc : CallsFollow w fresh start c d) (hp : Store.Place w start p p') (e : Expr)
    (he : e.names.Disjoint fresh) :
    FollowsValue w fresh start (expr c opts p e) (expr d opts p' e) :=
  expr_coupled (hc.couples hp opts) (avoiding_inherits fresh).toInheritsExpr Relining.same_keeps e he
    (w := ())

/-! ## Statements -/

theorem stmts_follow (hc : CallsFollow w fresh start c d) (hp : w.scope p p') {last last' : Value}
    (hlast : last.Alike w fresh last') (ss : List Stmt) (hss : (Stmt.allNames ss).Disjoint fresh) :
    FollowsValue w fresh start (stmts c opts p last ss) (stmts d opts p' last' ss) :=
  stmts_coupled_same (hc.couplesStmt hp opts) (avoiding_inherits fresh)
    (Stmt.disjoint_allNames_iff.1 hss) (w := ()) hlast

/-! ## Calls -/

theorem bindParams_follows (hc : CallsFollow w fresh start c d) (hp : w.scope p p') (line : Nat)
    (params : List String) (hparams : params.Disjoint fresh) {arguments arguments' : List Value}
    (ha : List.Forall₂ (Value.Alike w fresh) arguments arguments') :
    Follows w fresh start (fun _ _ => True) (bindParams p line params arguments)
      (bindParams p' line params arguments') :=
  bindParams_coupled (hc.couplesStmt hp {}) line params (fun _ hx => hparams hx) (w := ()) ha

theorem function_follows (hc : CallsFollow w fresh start c d) {f f' : Closure}
    (hf : (Value.function f).Alike w fresh (.function f')) {arguments arguments' : List Value}
    (ha : List.Forall₂ (Value.Alike w fresh) arguments arguments') (line : Nat) :
    FollowsValue w fresh start (function c opts f arguments line)
      (function d opts f' arguments' line) := by
  obtain ⟨hr, havoids⟩ := hf
  cases hr with
  | function hr =>
    unfold function
    rw [hr.params, hr.body]
    refine (child_follows hr.scope).bind fun frame frame' hframe => ?_
    refine (bindParams_follows hc hframe line f'.params havoids.1 ha).bind fun _ _ _ => ?_
    exact stmts_follow hc hframe ⟨.null, trivial⟩ f'.body havoids.2

theorem native_follows (host : Host) (calls calls' : Calls) {op : NativeOp}
    (hop : ∀ key, op ≠ .hosted key) {arguments arguments' : List Value}
    (ha : List.Forall₂ (Value.Alike w fresh) arguments arguments') (scope scope' : ScopeId) :
    Follows w fresh start (SameExcept (Value.Alike w fresh)) (op.run host calls arguments scope)
      (op.run host calls' arguments' scope') := by
  cases op with
  | print =>
    show Follows w fresh start (SameExcept (Value.Alike w fresh))
      (print (Value.displayAll arguments) >>= fun _ => Pure.pure (.ok .null))
      (print (Value.displayAll arguments') >>= fun _ => Pure.pure (.ok .null))
    rw [Value.displayAll_eq (Value.Alike.renamed_all ha)]
    exact (print_follows _).bind fun _ _ _ => .pure (.ok ⟨.null, trivial⟩)
  | typeOf => exact .pure (Value.Alike.typeName ha)
  | hosted key => exact absurd rfl (hop key)

theorem callsWithin_follow (w : Renaming) (fresh : List String) (start : Store) (host : Host)
    (n : Nat) : CallsFollow w fresh start (callsWithin host n) (callsWithin host n) := by
  induction n with
  | zero => exact ⟨fun _ _ _ _ _ _ _ _ => .throw _, fun _ _ _ _ _ _ _ => .throw _⟩
  | succ n ih =>
    exact ⟨fun opts f f' arguments arguments' line hf ha => function_follows ih hf ha line,
      fun op arguments arguments' scope scope' hop ha => native_follows host _ _ hop ha scope scope'⟩

end Expressions

end Eval

end ScopeScript
