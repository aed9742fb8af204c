import Mathlib.Data.List.Forall2
import ScopeScript.Proofs.Eval.Carried

/-!
# Two evaluations side by side

A `Coupling` relates two runs, on machines that may be of different types.  Its worlds are what is
known of both machines at some point: a world says which values of the one run go with which of the
other (`Fits`), and how two computations run from it.  If the steps of evaluation run as it says
(`Couples`) then so does the evaluation of every expression:

    I.Runs w I.Fits (expr c opts p e) (expr d opts p' (ρ.expr e))     (expr_coupled)

and that of statements if declarations run so, too (`stmts_coupled`).  The second run may be in
another scope, call functions in another way, and have other lines in its code (`Relining`).
-/

namespace ScopeScript

/-! ## Values that look the same -/

/-- What a program sees of a value, but for what is inside an object. -/
structure Value.LooksLike (v' v : Value) : Prop where
  type : v'.type = v.type
  number? : v'.number? = v.number?
  propertyKey : v'.propertyKey = v.propertyKey
  display : v'.display = v.display

/-- Both end with related results, or both fail in the same way. -/
inductive SameExcept {ε α β : Type} (R : α → β → Prop) : Except ε α → Except ε β → Prop
  | ok {a : α} {b : β} (h : R a b) : SameExcept R (.ok a) (.ok b)
  | error (e : ε) : SameExcept R (.error e) (.error e)

theorem SameExcept.imp {ε α β : Type} {R S : α → β → Prop} {x : Except ε α} {y : Except ε β}
    (h : SameExcept R x y) (hS : ∀ a b, x = .ok a → y = .ok b → R a b → S a b) :
    SameExcept S x y := by
  cases h with
  | ok hab => exact .ok (hS _ _ rfl rfl hab)
  | error e => exact .error e

/-- Arithmetic looks at the types and the numbers of its operands. -/
theorem BinaryOp.onValues_looksLike {opts : Options} {op : BinaryOp} {l l' r r' : Value}
    (hl : l'.LooksLike l) (hr : r'.LooksLike r) :
    op.onValues opts l' r' = op.onValues opts l r := by
  rw [onValues_eq_match, onValues_eq_match, hl.number?, hr.number?, hl.type, hr.type]

/-! ## Code with other lines -/

def Expr.IsName (e : Expr) : Prop := ∃ name line, e = .name name line

/-- How the code of the second run comes from that of the first. -/
structure Relining where
  expr : Expr → Expr := id
  field : Property → Property := id
  stmt : Stmt → Stmt := id
  line : Nat → Nat := id

/-- Nothing but lines is changed. -/
structure Relining.Keeps (ρ : Relining) : Prop where
  number : ∀ x line, ρ.expr (.number x line) = .number x (ρ.line line)
  string : ∀ s line, ρ.expr (.string s line) = .string s (ρ.line line)
  name : ∀ name line, ρ.expr (.name name line) = .name name (ρ.line line)
  binary : ∀ l op r line, ρ.expr (.binary l op r line) =
    .binary (ρ.expr l) op (ρ.expr r) (ρ.line line)
  assign : ∀ t e line, ρ.expr (.assign t e line) = .assign (ρ.expr t) (ρ.expr e) (ρ.line line)
  call : ∀ f es line, ρ.expr (.call f es line) = .call (ρ.expr f) (es.map ρ.expr) (ρ.line line)
  dot : ∀ o p line, ρ.expr (.dot o p line) = .dot (ρ.expr o) (ρ.expr p) (ρ.line line)
  index : ∀ o k line, ρ.expr (.index o k line) = .index (ρ.expr o) (ρ.expr k) (ρ.line line)
  object : ∀ ps line, ρ.expr (.object ps line) = .object (ps.map ρ.field) (ρ.line line)
  unnamed : ∀ e, ¬ e.IsName → ¬ (ρ.expr e).IsName
  exprLine : ∀ e, (ρ.expr e).line = ρ.line e.line
  shorthand : ∀ key line, ρ.field (.shorthand key line) = .shorthand key (ρ.line line)
  field : ∀ key e line, ρ.field (.field key e line) = .field key (ρ.expr e) (ρ.line line)
  declare : ∀ name constant value line, ρ.stmt (.declare name constant value line) =
    .declare name constant (value.map ρ.expr) (ρ.line line)
  function : ∀ name params body line, ρ.stmt (.function name params body line) =
    .function name params (body.map ρ.stmt) (ρ.line line)
  exprStmt : ∀ e line, ρ.stmt (.expr e line) = .expr (ρ.expr e) (ρ.line line)

theorem Relining.same_keeps : Keeps {} where
  number _ _ := rfl
  string _ _ := rfl
  name _ _ := rfl
  binary _ _ _ _ := rfl
  assign _ _ _ := rfl
  call f es line := congrArg (Expr.call f · line) es.map_id.symm
  dot _ _ _ := rfl
  index _ _ _ := rfl
  object ps line := congrArg (Expr.object · line) ps.map_id.symm
  unnamed _ h := h
  exprLine _ := rfl
  shorthand _ _ := rfl
  field _ _ _ := rfl
  declare name constant value line :=
    congrArg (Stmt.declare name constant · line) (congrFun Option.map_id value).symm
  function name params body line := congrArg (Stmt.function name params · line) body.map_id.symm
  exprStmt _ _ := rfl

namespace Eval

structure Coupling (σ τ : Type) where
  World : Type
  Leads : World → World → Prop
  Fits : World → Value → Value → Prop
  /-- From a world on, both computations end in a world that it leads to, with results as they have
  to be there, or both are stopped in the same way. -/
  Runs : ∀ {α γ : Type}, World → (World → α → γ → Prop) → EvalIn σ α → EvalIn τ γ → Prop

variable {σ τ : Type} [HasScopes σ] [HasScopes τ]

section Unnamed

variable {calls : CallsIn σ} {opts : Options} {scope : ScopeId} {e : Expr}

theorem expr_assign_unnamed (he : ¬ e.IsName) (value : Expr) (line : Nat) :
    expr calls opts scope (.assign e value line) =
      (expr calls opts scope value >>= fun _ => fault .invalidTarget line) := by
  cases e with
  | name name k => exact absurd ⟨name, k, rfl⟩ he
  | _ => rfl

theorem expr_dot_unnamed (he : ¬ e.IsName) (object : Expr) (line : Nat) :
    expr calls opts scope (.dot object e line) =
      (expr calls opts scope object >>= fun v => receiver v line >>= fun _ =>
        fault (.unsupported .propertyName) e.line) := by
  cases e with
  | name name k => exact absurd ⟨name, k, rfl⟩ he
  | _ => rfl

end Unnamed

/-! ## Expressions -/

/-- The steps of expressions, in `p` and in `p'`, go together. -/
structure Couples (I : Coupling σ τ) (c : CallsIn σ) (d : CallsIn τ) (opts : Options)
    (p p' : ScopeId) (code : Code) (ρ : Relining) : Prop where
  pure : ∀ {α γ : Type} {w} {V : I.World → α → γ → Prop} {a b}, V w a b →
    I.Runs w V (pure a) (pure b)
  bind : ∀ {α β γ δ : Type} {w} {V : I.World → α → γ → Prop} {U : I.World → β → δ → Prop}
    {x : EvalIn σ α} {y : EvalIn τ γ} {f : α → EvalIn σ β} {g : γ → EvalIn τ δ}, I.Runs w V x y →
      (∀ w' a b, I.Leads w w' → V w' a b → I.Runs w' U (f a) (g b)) →
        I.Runs w U (x >>= f) (y >>= g)
  fault : ∀ {α γ : Type} {w} {V : I.World → α → γ → Prop} cause line,
    I.Runs w V (fault cause line) (fault cause (ρ.line line))
  mono : ∀ {w w' v v'}, I.Leads w w' → I.Fits w v v' → I.Fits w' v v'
  looksLike : ∀ {w v v'}, I.Fits w v v' → v'.LooksLike v
  null : ∀ {w}, I.Fits w .null .null
  number : ∀ {w} x, I.Fits w (.number x) (.number x)
  string : ∀ {w} s, I.Fits w (.string s) (.string s)
  get : ∀ {w o o'} key, I.Fits w (.object o) (.object o') →
    I.Fits w ((o.get? key).getD .null) ((o'.get? key).getD .null)
  ofList : ∀ {w es es'}, List.Forall₂ (fun e e' => e.1 = e'.1 ∧ I.Fits w e.2 e'.2) es es' →
    I.Fits w (.object (.ofList es)) (.object (.ofList es'))
  lookup : ∀ {w name line}, code.expr (.name name line) →
    I.Runs w I.Fits (lookup p name line) (lookup p' name (ρ.line line))
  shorthand : ∀ {w key line}, code.field (.shorthand key line) →
    I.Runs w I.Fits (Eval.lookup p key line) (Eval.lookup p' key (ρ.line line))
  assign : ∀ {w name k e line v v'}, code.expr (.assign (.name name k) e line) → I.Fits w v v' →
    I.Runs w (fun _ _ _ => True) (assign p name v line) (assign p' name v' (ρ.line line))
  function : ∀ {w f f' vs vs' line}, I.Fits w (.function f) (.function f') →
    List.Forall₂ (I.Fits w) vs vs' →
      I.Runs w I.Fits (c.function opts f vs line) (d.function opts f' vs' (ρ.line line))
  native : ∀ {w n n' vs vs'}, I.Fits w (.native n) (.native n') → List.Forall₂ (I.Fits w) vs vs' →
    n'.name = n.name ∧
      I.Runs w (fun w => SameExcept (I.Fits w)) (c.native n.op vs p) (d.native n'.op vs' p')

section Expressions

variable {I : Coupling σ τ} {c : CallsIn σ} {d : CallsIn τ} {opts : Options} {p p' : ScopeId}
  {code : Code} {ρ : Relining}

namespace Couples

variable {w : I.World} {v v' : Value} {line : Nat}

theorem ofCause (h : Couples I c d opts p p' code ρ) {α : Type} {V : I.World → α → α → Prop}
    {x y : Except FaultCause α} (hxy : y = x) (hok : ∀ a, x = .ok a → V w a a) :
    I.Runs w V (ofCause line x) (ofCause (ρ.line line) y) := by
  subst hxy
  cases y with
  | ok a => exact h.pure (hok a rfl)
  | error cause => exact h.fault cause line

theorem receiver (h : Couples I c d opts p p' code ρ) (hv : I.Fits w v v') :
    I.Runs w (fun w o o' => I.Fits w (.object o) (.object o')) (receiver v line)
      (receiver v' (ρ.line line)) := by
  have htype := (h.looksLike hv).type
  cases v <;> cases v' <;> cases htype
  case object.object.refl => exact h.pure hv
  all_goals exact h.fault _ line

theorem operation (h : Couples I c d opts p p' code ρ) {op : BinaryOp} {l l' r r' : Value}
    (hl : I.Fits w l l') (hr : I.Fits w r r') :
    I.Runs w I.Fits (Eval.ofCause line (op.onValues opts l r))
      (Eval.ofCause (ρ.line line) (op.onValues opts l' r')) := by
  refine h.ofCause (BinaryOp.onValues_looksLike (h.looksLike hl) (h.looksLike hr)) fun v hv => ?_
  obtain ⟨x, rfl⟩ | rfl := BinaryOp.onValues_eq_ok hv
  · exact h.number x
  · exact h.null

theorem callValue (h : Couples I c d opts p p' code ρ) (hv : I.Fits w v v') {vs vs' : List Value}
    (hvs : List.Forall₂ (I.Fits w) vs vs') :
    I.Runs w I.Fits (callValue c opts p v vs line) (callValue d opts p' v' vs' (ρ.line line)) := by
  have hlooks := h.looksLike hv
  have htype := hlooks.type
  have hother : I.Runs w I.Fits (Eval.fault (.invalidCallee v.type v.display) line)
      (Eval.fault (.invalidCallee v'.type v'.display) (ρ.line line)) := by
    rw [hlooks.type, hlooks.display]
    exact h.fault _ line
  cases v <;> cases v' <;> cases htype
  case function.function.refl => exact h.function hv hvs
  case native.native.refl n n' =>
    obtain ⟨hname, hnative⟩ := h.native hv hvs
    refine h.bind hnative fun w' r r' _ hr => ?_
    cases hr with
    | ok hv => exact h.pure hv
    | error message =>
      show I.Runs w' I.Fits (Eval.fault (.native n.name message) line)
        (Eval.fault (.native n'.name message) (ρ.line line))
      rw [hname]
      exact h.fault _ line
  all_goals exact hother

end Couples

mutual

theorem expr_coupled (h : Couples I c d opts p p' code ρ) (hcode : code.InheritsExpr)
    (hρ : ρ.Keeps) (e : Expr) (he : code.expr e) {w : I.World} :
    I.Runs w I.Fits (expr c opts p e) (expr d opts p' (ρ.expr e)) := by
  match e with
  | .number value line =>
    rw [hρ.number]
    exact h.pure (h.number value)
  | .string value line =>
    rw [hρ.string]
    exact h.pure (h.string value)
  | .name name line =>
    rw [hρ.name]
    exact h.lookup he
  | .binary left op right line =>
    obtain ⟨hl, hr, -⟩ := hcode.binary he
    rw [hρ.binary]
    refine h.bind (expr_coupled h hcode hρ left hl) fun w₁ l l' _ hl => ?_
    exact h.bind (expr_coupled h hcode hρ right hr) fun w₂ r r' h₂ hr =>
      h.operation (h.mono h₂ hl) hr
  | .assign target value line =>
    have hvalue := fun w => expr_coupled h hcode hρ value (hcode.assign he).1 (w := w)
    rw [hρ.assign]
    by_cases htarget : target.IsName
    · obtain ⟨name, k, rfl⟩ := htarget
      rw [hρ.name]
      exact h.bind (hvalue w) fun w₁ v v' _ hv => h.bind (h.assign he hv) fun w₂ _ _ h₂ _ =>
        h.pure (h.mono h₂ hv)
    · rw [expr_assign_unnamed htarget, expr_assign_unnamed (hρ.unnamed target htarget)]
      exact h.bind (hvalue w) fun w₁ _ _ _ _ => h.fault _ line
  | .call callee arguments line =>
    obtain ⟨ha, hf, -⟩ := hcode.call he
    rw [hρ.call]
    refine h.bind (exprs_coupled h hcode hρ arguments ha) fun w₁ vs vs' _ hvs => ?_
    refine h.bind (expr_coupled h hcode hρ callee hf) fun w₂ f f' h₂ hf => ?_
    exact h.callValue hf (hvs.imp fun _ _ => h.mono h₂)
  | .dot object property line =>
    have hobject := fun w => expr_coupled h hcode hρ object (hcode.dot he).1 (w := w)
    rw [hρ.dot]
    by_cases hproperty : property.IsName
    · obtain ⟨name, k, rfl⟩ := hproperty
      rw [hρ.name]
      exact h.bind (hobject w) fun w₁ v v' _ hv => h.bind (h.receiver hv) fun w₂ o o' _ ho =>
        h.pure (h.get name ho)
    · rw [expr_dot_unnamed hproperty, expr_dot_unnamed (hρ.unnamed property hproperty),
        hρ.exprLine]
      exact h.bind (hobject w) fun w₁ v v' _ hv => h.bind (h.receiver hv) fun w₂ _ _ _ _ =>
        h.fault _ property.line
  | .index object key line =>
    obtain ⟨ho, hk, -⟩ := hcode.index he
    rw [hρ.index]
    refine h.bind (expr_coupled h hcode hρ object ho) fun w₁ v v' _ hv => ?_
    refine h.bind (h.receiver hv) fun w₂ o o' _ ho => ?_
    refine h.bind (expr_coupled h hcode hρ key hk) fun w₃ k k' h₃ hk => ?_
    have hkey : I.Runs w₃ (fun _ => Eq) (ofCause line k.propertyKey)
        (ofCause (ρ.line line) k'.propertyKey) :=
      h.ofCause (h.looksLike hk).propertyKey fun _ _ => rfl
    refine h.bind hkey fun w₄ x x' h₄ hx => ?_
    subst hx
    exact h.pure (h.get x (h.mono h₄ (h.mono h₃ ho)))
  | .object properties line =>
    rw [hρ.object]
    exact h.bind (fields_coupled h hcode hρ properties (hcode.object he)) fun w₁ es es' _ hes =>
      h.pure (h.ofList hes)

theorem exprs_coupled (h : Couples I c d opts p p' code ρ) (hcode : code.InheritsExpr)
    (hρ : ρ.Keeps) (es : List Expr) (hes : ∀ e ∈ es, code.expr e) {w : I.World} :
    I.Runs w (fun w => List.Forall₂ (I.Fits w)) (exprs c opts p es)
      (exprs d opts p' (es.map ρ.expr)) := by
  match es with
  | [] => exact h.pure .nil
  | e :: es =>
    obtain ⟨he, hes⟩ := List.forall_mem_cons.1 hes
    refine h.bind (expr_coupled h hcode hρ e he) fun w₁ v v' _ hv => ?_
    exact h.bind (exprs_coupled h hcode hρ es hes) fun w₂ vs vs' h₂ hvs =>
      h.pure (.cons (h.mono h₂ hv) hvs)

theorem field_coupled (h : Couples I c d opts p p' code ρ) (hcode : code.InheritsExpr)
    (hρ : ρ.Keeps) (property : Property) (hp : code.field property) {w : I.World} :
    (ρ.field property).key = property.key ∧
      I.Runs w I.Fits (field c opts p property) (field d opts p' (ρ.field property)) := by
  match property with
  | .shorthand key line =>
    rw [hρ.shorthand]
    exact ⟨rfl, h.shorthand hp⟩
  | .field key value line =>
    rw [hρ.field]
    exact ⟨rfl, expr_coupled h hcode hρ value (hcode.field hp)⟩

theorem fields_coupled (h : Couples I c d opts p p' code ρ) (hcode : code.InheritsExpr)
    (hρ : ρ.Keeps) (ps : List Property) (hps : ∀ p ∈ ps, code.field p) {w : I.World} :
    I.Runs w (fun w => List.Forall₂ fun e e' => e.1 = e'.1 ∧ I.Fits w e.2 e'.2)
      (fields c opts p ps) (fields d opts p' (ps.map ρ.field)) := by
  match ps with
  | [] => exact h.pure .nil
  | property :: ps =>
    obtain ⟨hp, hps⟩ := List.forall_mem_cons.1 hps
    have hproperty := fun w => field_coupled h hcode hρ property hp (w := w)
    refine h.bind (hproperty w).2 fun w₁ v v' _ hv => ?_
    exact h.bind (fields_coupled h hcode hρ ps hps) fun w₂ es es' h₂ hes =>
      h.pure (.cons ⟨(hproperty w).1.symm, h.mono h₂ hv⟩ hes)

end

end Expressions

/-! ## Statements -/

/-- So do the steps of statements. -/
structure CouplesStmt (I : Coupling σ τ) (c : CallsIn σ) (d : CallsIn τ) (opts : Options)
    (p p' : ScopeId) (code : Code) (ρ : Relining) : Prop extends
    Couples I c d opts p p' code ρ where
  declare : ∀ {w name v v' constant line}, code.binds name → I.Fits w v v' →
    I.Runs w (fun _ _ _ => True) (declare p name v constant line)
      (declare p' name v' constant (ρ.line line))
  newFunction : ∀ {w name params body line}, code.stmt (.function name params body line) →
    I.Runs w (fun w i i' => I.Fits w (.function ⟨i, name, params, body, p⟩)
      (.function ⟨i', name, params, body.map ρ.stmt, p'⟩)) freshIdentity freshIdentity

section Statements

variable {I : Coupling σ τ} {c : CallsIn σ} {d : CallsIn τ} {opts : Options} {p p' : ScopeId}
  {code : Code} {ρ : Relining}

theorem stmt_coupled (h : CouplesStmt I c d opts p p' code ρ) (hcode : code.InheritsStmt)
    (hρ : ρ.Keeps) {s : Stmt} (hs : code.stmt s) {w : I.World} :
    I.Runs w I.Fits (stmt c opts p s) (stmt d opts p' (ρ.stmt s)) := by
  cases s with
  | declare name constant value line =>
    obtain ⟨-, hname, he⟩ := hcode.declare hs
    have hdeclare {w : I.World} {v v' : Value} (hv : I.Fits w v v') :
        I.Runs w I.Fits (do Eval.declare p name v constant line; return v)
          (do Eval.declare p' name v' constant (ρ.line line); return v') :=
      h.bind (h.declare hname hv) fun w₁ _ _ h₁ _ => h.pure (h.mono h₁ hv)
    rw [hρ.declare]
    cases value with
    | none => exact hdeclare h.null
    | some e =>
      exact h.bind (expr_coupled h.toCouples hcode.toInheritsExpr hρ e (he e rfl))
        fun w₁ v v' _ => hdeclare
  | function name params body line =>
    rw [hρ.function]
    exact h.bind (h.newFunction hs) fun w₁ i i' _ hf =>
      h.bind (h.declare (hcode.function hs).2 hf) fun w₂ _ _ _ _ => h.pure h.null
  | expr e line =>
    rw [hρ.exprStmt]
    exact expr_coupled h.toCouples hcode.toInheritsExpr hρ e (hcode.exprStmt hs)

theorem stmts_coupled (h : CouplesStmt I c d opts p p' code ρ) (hcode : code.InheritsStmt)
    (hρ : ρ.Keeps) {ss : List Stmt} (hss : ∀ s ∈ ss, code.stmt s) {w : I.World}
    {last last' : Value} (hlast : I.Fits w last last') :
    I.Runs w I.Fits (stmts c opts p last ss) (stmts d opts p' last' (ss.map ρ.stmt)) := by
  induction ss generalizing w last last' with
  | nil => exact h.pure hlast
  | cons s ss ih =>
    obtain ⟨hs, hss⟩ := List.forall_mem_cons.1 hss
    exact h.bind (stmt_coupled h hcode hρ hs) fun w₁ v v' _ hv => ih hss hv

/-- The same statements on both sides. -/
theorem stmts_coupled_same (h : CouplesStmt I c d opts p p' code {}) (hcode : code.InheritsStmt)
    {ss : List Stmt} (hss : ∀ s ∈ ss, code.stmt s) {w : I.World} {last last' : Value}
    (hlast : I.Fits w last last') :
    I.Runs w I.Fits (stmts c opts p last ss) (stmts d opts p' last' ss) := by
  have hcoupled := stmts_coupled h hcode Relining.same_keeps hss hlast
  have hsame : ss.map ({} : Relining).stmt = ss := ss.map_id
  rwa [hsame] at hcoupled

theorem bindParams_coupled (h : CouplesStmt I c d opts p p' code ρ) (line : Nat)
    (params : List String) (hparams : ∀ x ∈ params, code.binds x) {w : I.World}
    {vs vs' : List Value} (hvs : List.Forall₂ (I.Fits w) vs vs') :
    I.Runs w (fun _ _ _ => True) (bindParams p line params vs)
      (bindParams p' (ρ.line line) params vs') := by
  induction params generalizing w vs vs' with
  | nil => exact h.pure trivial
  | cons x params ih =>
    obtain ⟨hx, hparams⟩ := List.forall_mem_cons.1 hparams
    have hhead : I.Fits w (vs.headD .null) (vs'.headD .null) := by
      cases hvs with
      | nil => exact h.null
      | cons hv _ => exact hv
    have htail : List.Forall₂ (I.Fits w) vs.tail vs'.tail := by
      cases hvs with
      | nil => exact .nil
      | cons _ hvs => exact hvs
    exact h.bind (h.declare hx hhead) fun w₁ _ _ h₁ _ => ih hparams (htail.imp fun _ _ => h.mono h₁)

end Statements

end Eval

end ScopeScript
