import ScopeScript.Proofs.Eval.Operations

/-!
# What evaluation carries along

An `Invariant` has worlds, which are what is known at some point of a run: it says which worlds one
leads to, which values fit a world, and how a computation runs from it.  If the steps of evaluation
run as it says (`Carries`) then so does the evaluation of every expression, whatever it is made of:

    I.Runs w I.Fits (expr calls opts scope e)      (expr_carried)

and that of statements if declarations run so, too (`stmts_carried`).  An invariant may ask
something of the code, which the parts of the code then inherit.
-/

namespace ScopeScript.Eval

structure Invariant (σ : Type) where
  World : Type
  Leads : World → World → Prop
  Fits : World → Value → Prop
  /-- From a world on, the computation ends in a world that it leads to, with a result as it has to
  be there. -/
  Runs : ∀ {α : Type}, World → (World → α → Prop) → EvalIn σ α → Prop

/-! ## Code -/

/-- The code that an invariant is about, the names that it declares, and the lines that may be
blamed. -/
structure Code where
  expr : Expr → Prop := fun _ => True
  field : Property → Prop := fun _ => True
  stmt : Stmt → Prop := fun _ => True
  binds : String → Prop := fun _ => True
  line : Nat → Prop := fun _ => True
  /-- Something else than a name may follow a dot. -/
  unnamed : Prop := True

namespace Code

/-- The parts of an expression are among the code. -/
structure InheritsExpr (code : Code) : Prop where
  binary : ∀ {l op r line}, code.expr (.binary l op r line) →
    code.expr l ∧ code.expr r ∧ code.line line
  assign : ∀ {t e line}, code.expr (.assign t e line) → code.expr e ∧ code.line line
  call : ∀ {f es line}, code.expr (.call f es line) →
    (∀ e ∈ es, code.expr e) ∧ code.expr f ∧ code.line line
  dot : ∀ {o p line}, code.expr (.dot o p line) → code.expr o ∧ code.line line ∧
    ((∃ name k, p = .name name k) ∨ code.unnamed ∧ code.line p.line)
  index : ∀ {o k line}, code.expr (.index o k line) → code.expr o ∧ code.expr k ∧ code.line line
  object : ∀ {ps line}, code.expr (.object ps line) → ∀ p ∈ ps, code.field p
  field : ∀ {key e line}, code.field (.field key e line) → code.expr e

/-- So are the parts of a statement, but for the body of a function. -/
structure InheritsStmt (code : Code) : Prop extends InheritsExpr code where
  declare : ∀ {name constant value line}, code.stmt (.declare name constant value line) →
    code.line line ∧ code.binds name ∧ ∀ e, value = some e → code.expr e
  function : ∀ {name params body line}, code.stmt (.function name params body line) →
    code.line line ∧ code.binds name
  exprStmt : ∀ {e line}, code.stmt (.expr e line) → code.expr e

theorem stmt_inherits (P : Stmt → Prop) : InheritsStmt { stmt := P } where
  binary _ := ⟨trivial, trivial, trivial⟩
  assign _ := ⟨trivial, trivial⟩
  call _ := ⟨fun _ _ => trivial, trivial, trivial⟩
  dot _ := ⟨trivial, trivial, .inr ⟨trivial, trivial⟩⟩
  index _ := ⟨trivial, trivial, trivial⟩
  object _ _ _ := trivial
  field _ := trivial
  declare _ := ⟨trivial, trivial, fun _ _ => trivial⟩
  function _ := ⟨trivial, trivial⟩
  exprStmt _ := trivial

theorem all_inherits : InheritsStmt {} := stmt_inherits _

end Code

variable {σ : Type} [HasScopes σ]

/-! ## Expressions -/

/-- The steps of expressions in `scope` keep the invariant. -/
structure Carries (I : Invariant σ) (calls : CallsIn σ) (opts : Options) (scope : ScopeId)
    (code : Code) : Prop where
  pure : ∀ {α : Type} {w} {V : I.World → α → Prop} {a : α}, V w a → I.Runs w V (pure a)
  bind : ∀ {α β : Type} {w} {V : I.World → α → Prop} {U : I.World → β → Prop} {c : EvalIn σ α}
    {f : α → EvalIn σ β}, I.Runs w V c → (∀ w' a, I.Leads w w' → V w' a → I.Runs w' U (f a)) →
      I.Runs w U (c >>= f)
  /-- Names that are not declared are left to `lookup` and `assign`. -/
  fault : ∀ {α : Type} {w} {V : I.World → α → Prop} {cause line}, code.line line →
    (∀ name, cause ≠ .undeclared name) → (cause = .unsupported .propertyName → code.unnamed) →
      I.Runs w V (fault cause line)
  mono : ∀ {w w' v}, I.Leads w w' → I.Fits w v → I.Fits w' v
  null : ∀ {w}, I.Fits w .null
  number : ∀ {w} x, I.Fits w (.number x)
  string : ∀ {w} s, I.Fits w (.string s)
  get : ∀ {w o} key, I.Fits w (.object o) → I.Fits w ((o.get? key).getD .null)
  ofList : ∀ {w pairs}, (∀ e ∈ pairs, I.Fits w e.2) → I.Fits w (.object (.ofList pairs))
  lookup : ∀ {w name line}, code.expr (.name name line) →
    I.Runs w I.Fits (lookup scope name line)
  shorthand : ∀ {w key line}, code.field (.shorthand key line) →
    I.Runs w I.Fits (Eval.lookup scope key line)
  assign : ∀ {w name k e line v}, code.expr (.assign (.name name k) e line) → I.Fits w v →
    I.Runs w (fun _ _ => True) (assign scope name v line)
  function : ∀ {w f vs line}, code.line line → I.Fits w (.function f) → (∀ v ∈ vs, I.Fits w v) →
    I.Runs w I.Fits (calls.function opts f vs line)
  native : ∀ {w n vs}, I.Fits w (.native n) → (∀ v ∈ vs, I.Fits w v) →
    I.Runs w (fun w' r => ∀ v, r = .ok v → I.Fits w' v) (calls.native n.op vs scope)

section Expressions

variable {I : Invariant σ} {calls : CallsIn σ} {opts : Options} {scope : ScopeId} {code : Code}

namespace Carries

variable {w : I.World} {v : Value} {line : Nat}

theorem receiver (h : Carries I calls opts scope code) (hline : code.line line)
    (hv : I.Fits w v) : I.Runs w (fun w o => I.Fits w (.object o)) (receiver v line) := by
  cases v with
  | object o => exact h.pure hv
  | _ => exact h.fault hline nofun nofun

theorem propertyKey (h : Carries I calls opts scope code) (hline : code.line line) :
    I.Runs w (fun _ _ => True) (ofCause line v.propertyKey) := by
  cases hk : v.propertyKey with
  | ok key => exact h.pure trivial
  | error cause =>
    rw [Value.propertyKey_eq_error hk]
    exact h.fault hline nofun nofun

/-- Arithmetic gives numbers or null. -/
theorem operation (h : Carries I calls opts scope code) (hline : code.line line) {op : BinaryOp}
    {l r : Value} : I.Runs w I.Fits (ofCause line (op.onValues opts l r)) := by
  cases hop : op.onValues opts l r with
  | ok v =>
    obtain ⟨x, rfl⟩ | rfl := BinaryOp.onValues_eq_ok hop
    · exact h.pure (h.number x)
    · exact h.pure h.null
  | error cause =>
    obtain rfl | ⟨-, rfl⟩ := BinaryOp.onValues_eq_error hop
    · exact h.fault hline nofun nofun
    · exact h.fault hline nofun nofun

theorem callValue (h : Carries I calls opts scope code) (hline : code.line line)
    (hv : I.Fits w v) {vs : List Value} (hvs : ∀ v ∈ vs, I.Fits w v) :
    I.Runs w I.Fits (callValue calls opts scope v vs line) := by
  cases v with
  | function f => exact h.function hline hv hvs
  | native n =>
    refine h.bind (h.native hv hvs) fun w' r _ hr => ?_
    cases r with
    | ok v => exact h.pure (hr v rfl)
    | error message => exact h.fault hline nofun nofun
  | _ => exact h.fault hline nofun nofun

end Carries

mutual

theorem expr_carried (h : Carries I calls opts scope code) (hcode : code.InheritsExpr) (e : Expr)
    (he : code.expr e) {w : I.World} : I.Runs w I.Fits (expr calls opts scope e) := by
  match e with
  | .number value _ => exact h.pure (h.number value)
  | .string value _ => exact h.pure (h.string value)
  | .name name line => exact h.lookup he
  | .binary left op right line =>
    obtain ⟨hl, hr, hline⟩ := hcode.binary he
    exact h.bind (expr_carried h hcode left hl) fun w₁ l _ _ =>
      h.bind (expr_carried h hcode right hr) fun w₂ r _ _ => h.operation hline
  | .assign target value line =>
    obtain ⟨hv, hline⟩ := hcode.assign he
    refine h.bind (expr_carried h hcode value hv) fun w₁ v _ hv => ?_
    cases target with
    | name name _ => exact h.bind (h.assign he hv) fun w₂ _ h₂ _ => h.pure (h.mono h₂ hv)
    | _ => exact h.fault hline nofun nofun
  | .call callee arguments line =>
    obtain ⟨ha, hf, hline⟩ := hcode.call he
    refine h.bind (exprs_carried h hcode arguments ha) fun w₁ vs _ hvs => ?_
    refine h.bind (expr_carried h hcode callee hf) fun w₂ f h₂ hf => ?_
    exact h.callValue hline hf fun v hv => h.mono h₂ (hvs v hv)
  | .dot object property line =>
    obtain ⟨ho, hline, hp⟩ := hcode.dot he
    refine h.bind (expr_carried h hcode object ho) fun w₁ v _ hv => ?_
    refine h.bind (h.receiver hline hv) fun w₂ o _ ho => ?_
    cases property with
    | name name _ => exact h.pure (h.get name ho)
    | _ =>
      obtain ⟨hunnamed, hline⟩ := hp.resolve_left nofun
      exact h.fault hline nofun fun _ => hunnamed
  | .index object key line =>
    obtain ⟨ho, hk, hline⟩ := hcode.index he
    refine h.bind (expr_carried h hcode object ho) fun w₁ v _ hv => ?_
    refine h.bind (h.receiver hline hv) fun w₂ o _ ho => ?_
    refine h.bind (expr_carried h hcode key hk) fun w₃ k h₃ _ => ?_
    exact h.bind (h.propertyKey hline) fun w₄ key h₄ _ =>
      h.pure (h.get key (h.mono h₄ (h.mono h₃ ho)))
  | .object properties _ =>
    exact h.bind (fields_carried h hcode properties (hcode.object he)) fun w₁ pairs _ hpairs =>
      h.pure (h.ofList hpairs)

theorem exprs_carried (h : Carries I calls opts scope code) (hcode : code.InheritsExpr)
    (es : List Expr) (hes : ∀ e ∈ es, code.expr e) {w : I.World} :
    I.Runs w (fun w vs => ∀ v ∈ vs, I.Fits w v) (exprs calls opts scope es) := by
  match es with
  | [] => exact h.pure nofun
  | e :: es =>
    obtain ⟨he, hes⟩ := List.forall_mem_cons.1 hes
    refine h.bind (expr_carried h hcode e he) fun w₁ v _ hv => ?_
    exact h.bind (exprs_carried h hcode es hes) fun w₂ vs h₂ hvs =>
      h.pure (List.forall_mem_cons.2 ⟨h.mono h₂ hv, hvs⟩)

theorem field_carried (h : Carries I calls opts scope code) (hcode : code.InheritsExpr)
    (p : Property) (hp : code.field p) {w : I.World} :
    I.Runs w I.Fits (field calls opts scope p) := by
  match p with
  | .shorthand key line => exact h.shorthand hp
  | .field _ value _ => exact expr_carried h hcode value (hcode.field hp)

theorem fields_carried (h : Carries I calls opts scope code) (hcode : code.InheritsExpr)
    (ps : List Property) (hps : ∀ p ∈ ps, code.field p) {w : I.World} :
    I.Runs w (fun w pairs => ∀ e ∈ pairs, I.Fits w e.2) (fields calls opts scope ps) := by
  match ps with
  | [] => exact h.pure nofun
  | p :: ps =>
    obtain ⟨hp, hps⟩ := List.forall_mem_cons.1 hps
    refine h.bind (field_carried h hcode p hp) fun w₁ v _ hv => ?_
    exact h.bind (fields_carried h hcode ps hps) fun w₂ pairs h₂ hpairs =>
      h.pure (List.forall_mem_cons.2 ⟨h.mono h₂ hv, hpairs⟩)

end

end Expressions

/-! ## Statements -/

/-- The steps of statements keep the invariant as well. -/
structure CarriesStmt (I : Invariant σ) (calls : CallsIn σ) (opts : Options) (scope : ScopeId)
    (code : Code) : Prop extends Carries I calls opts scope code where
  declare : ∀ {w name v constant line}, code.line line → code.binds name → I.Fits w v →
    I.Runs w (fun _ _ => True) (declare scope name v constant line)
  newFunction : ∀ {w name params body line}, code.stmt (.function name params body line) →
    I.Runs w (fun w i => I.Fits w (.function ⟨i, name, params, body, scope⟩)) freshIdentity

section Statements

variable {I : Invariant σ} {calls : CallsIn σ} {opts : Options} {scope : ScopeId} {code : Code}

theorem stmt_carried (h : CarriesStmt I calls opts scope code) (hcode : code.InheritsStmt)
    {s : Stmt} (hs : code.stmt s) {w : I.World} : I.Runs w I.Fits (stmt calls opts scope s) := by
  cases s with
  | declare name constant value line =>
    obtain ⟨hline, hname, he⟩ := hcode.declare hs
    have hdeclare {w : I.World} {v : Value} (hv : I.Fits w v) :
        I.Runs w I.Fits (do Eval.declare scope name v constant line; return v) :=
      h.bind (h.declare hline hname hv) fun w₁ _ h₁ _ => h.pure (h.mono h₁ hv)
    cases value with
    | none => exact hdeclare h.null
    | some e =>
      exact h.bind (expr_carried h.toCarries hcode.toInheritsExpr e (he e rfl)) fun w₁ v _ =>
        hdeclare
  | function name params body line =>
    obtain ⟨hline, hname⟩ := hcode.function hs
    exact h.bind (h.newFunction hs) fun w₁ identity _ hf =>
      h.bind (h.declare hline hname hf) fun w₂ _ _ _ => h.pure h.null
  | expr e line =>
    exact expr_carried h.toCarries hcode.toInheritsExpr e (hcode.exprStmt hs)

theorem stmts_carried (h : CarriesStmt I calls opts scope code) (hcode : code.InheritsStmt)
    {ss : List Stmt} (hss : ∀ s ∈ ss, code.stmt s) {w : I.World} {last : Value}
    (hlast : I.Fits w last) : I.Runs w I.Fits (stmts calls opts scope last ss) := by
  induction ss generalizing w last with
  | nil => exact h.pure hlast
  | cons s ss ih =>
    obtain ⟨hs, hss⟩ := List.forall_mem_cons.1 hss
    exact h.bind (stmt_carried h hcode hs) fun w₁ v _ hv => ih hss hv

theorem bindParams_carried (h : CarriesStmt I calls opts scope code) {line : Nat}
    (hline : code.line line) (params : List String) (hparams : ∀ x ∈ params, code.binds x)
    {w : I.World} {vs : List Value}
    (hvs : ∀ v ∈ vs, I.Fits w v) :
    I.Runs w (fun _ _ => True) (bindParams scope line params vs) := by
  induction params generalizing w vs with
  | nil => exact h.pure trivial
  | cons p ps ih =>
    obtain ⟨hp, hps⟩ := List.forall_mem_cons.1 hparams
    have hhead : I.Fits w (vs.headD .null) := by
      cases vs with
      | nil => exact h.null
      | cons v vs => exact hvs v List.mem_cons_self
    exact h.bind (h.declare hline hp hhead) fun w₁ _ h₁ _ =>
      ih hps fun v hv => h.mono h₁ (hvs v (List.mem_of_mem_tail hv))

end Statements

end ScopeScript.Eval
