import ScopeScript.Proofs.Run
import ScopeScript.Proofs.Eval.Operations

/-!
# Properties that evaluation inherits from its steps

Evaluation is put together from a few steps: reading and assigning a name, an arithmetic operation,
a call, a fault.  A relation between computations that holds of these steps and of sequences holds
of the evaluation of every expression (`expr_respects`); if it also holds of declarations, it holds
of the evaluation of statements (`stmts_respects`).  The two sides may make calls in different
ways and under different options.
-/

namespace ScopeScript.Eval

/-- `R` holds of the steps that an expression in `scope` is evaluated by. -/
structure RespectsExpr (R : ∀ {α : Type}, Eval α → Eval α → Prop) (c d : Calls)
    (opts opts' : Options) (scope : ScopeId) : Prop where
  pure : ∀ {α : Type} (a : α), R (pure a) (pure a)
  bind : ∀ {α β : Type} {x y : Eval α} {f g : α → Eval β},
    R x y → (∀ a, R (f a) (g a)) → R (x >>= f) (y >>= g)
  /-- Operands of the wrong type are left to `operation`. -/
  fault : ∀ {α : Type} (cause : FaultCause) (line : Nat), cause.isMismatch = false →
    R (fault cause line : Eval α) (fault cause line)
  lookup : ∀ name line, R (lookup scope name line) (lookup scope name line)
  assign : ∀ name value line, R (assign scope name value line) (assign scope name value line)
  operation : ∀ op l r line,
    R (ofCause line (BinaryOp.onValues opts op l r)) (ofCause line (BinaryOp.onValues opts' op l r))
  function : ∀ f arguments line, R (c.function opts f arguments line) (d.function opts' f arguments line)
  native : ∀ op arguments, R (c.native op arguments scope) (d.native op arguments scope)

/-- `R` also holds of the steps of statements. -/
structure RespectsStmt (R : ∀ {α : Type}, Eval α → Eval α → Prop) (c d : Calls)
    (opts opts' : Options) (scope : ScopeId) : Prop extends
    RespectsExpr R c d opts opts' scope where
  declare : ∀ name value constant line,
    R (declare scope name value constant line) (declare scope name value constant line)
  freshIdentity : R freshIdentity freshIdentity

section Expressions

variable {R : ∀ {α : Type}, Eval α → Eval α → Prop} {c d : Calls} {opts opts' : Options}
  {scope : ScopeId}

theorem RespectsExpr.ofCause (h : RespectsExpr R c d opts opts' scope) {α : Type} (line : Nat)
    (x : Except FaultCause α) (hx : ∀ cause, x = .error cause → cause.isMismatch = false) :
    R (ofCause line x) (ofCause line x) := by
  cases x with
  | ok a => exact h.pure a
  | error cause => exact h.fault cause line (hx cause rfl)

theorem RespectsExpr.receiver (h : RespectsExpr R c d opts opts' scope) (v : Value) (line : Nat) :
    R (receiver v line) (receiver v line) := by
  cases v with
  | object o => exact h.pure o
  | _ => exact h.fault _ line rfl

theorem RespectsExpr.callValue (h : RespectsExpr R c d opts opts' scope) (callee : Value)
    (arguments : List Value) (line : Nat) :
    R (callValue c opts scope callee arguments line)
      (callValue d opts' scope callee arguments line) := by
  cases callee with
  | function f => exact h.function f arguments line
  | native n =>
    refine h.bind (h.native n.op arguments) fun r => ?_
    cases r with
    | ok v => exact h.pure v
    | error message => exact h.fault _ line rfl
  | _ => exact h.fault _ line rfl

mutual

theorem expr_respects (h : RespectsExpr R c d opts opts' scope) (e : Expr) :
    R (expr c opts scope e) (expr d opts' scope e) := by
  match e with
  | .number value _ => exact h.pure _
  | .string value _ => exact h.pure _
  | .name name line => exact h.lookup name line
  | .binary left op right line =>
    exact h.bind (expr_respects h left) fun l =>
      h.bind (expr_respects h right) fun r => h.operation op l r line
  | .assign target value line =>
    refine h.bind (expr_respects h value) fun v => ?_
    cases target with
    | name name _ => exact h.bind (h.assign name v line) fun _ => h.pure v
    | _ => exact h.fault _ line rfl
  | .call callee arguments line =>
    exact h.bind (exprs_respects h arguments) fun vs =>
      h.bind (expr_respects h callee) fun f => h.callValue f vs line
  | .dot object property line =>
    refine h.bind (expr_respects h object) fun v => h.bind (h.receiver v line) fun o => ?_
    cases property with
    | name name _ => exact h.pure _
    | _ => exact h.fault _ _ rfl
  | .index object key line =>
    refine h.bind (expr_respects h object) fun v => h.bind (h.receiver v line) fun o =>
      h.bind (expr_respects h key) fun k => h.bind (h.ofCause line _ fun cause hc => ?_) fun _ =>
        h.pure _
    rw [Value.propertyKey_eq_error hc]
    rfl
  | .object properties _ =>
    exact h.bind (fields_respects h properties) fun _ => h.pure _

theorem exprs_respects (h : RespectsExpr R c d opts opts' scope) (es : List Expr) :
    R (exprs c opts scope es) (exprs d opts' scope es) := by
  match es with
  | [] => exact h.pure _
  | e :: es =>
    exact h.bind (expr_respects h e) fun v =>
      h.bind (exprs_respects h es) fun vs => h.pure _

theorem field_respects (h : RespectsExpr R c d opts opts' scope) (p : Property) :
    R (field c opts scope p) (field d opts' scope p) := by
  match p with
  | .shorthand key line => exact h.lookup key line
  | .field _ value _ => exact expr_respects h value

theorem fields_respects (h : RespectsExpr R c d opts opts' scope) (ps : List Property) :
    R (fields c opts scope ps) (fields d opts' scope ps) := by
  match ps with
  | [] => exact h.pure _
  | p :: ps =>
    exact h.bind (field_respects h p) fun v =>
      h.bind (fields_respects h ps) fun vs => h.pure _

end

theorem stmt_respects (h : RespectsStmt R c d opts opts' scope) (s : Stmt) :
    R (stmt c opts scope s) (stmt d opts' scope s) := by
  have he := h.toRespectsExpr
  cases s with
  | declare name constant value line =>
    have hk (v : Value) : R (do Eval.declare scope name v constant line; return v)
        (do Eval.declare scope name v constant line; return v) :=
      he.bind (h.declare name v constant line) fun _ => he.pure v
    cases value with
    | none => exact hk .null
    | some e => exact he.bind (expr_respects he e) hk
  | function name params body line =>
    exact he.bind h.freshIdentity fun _ => he.bind (h.declare name _ true line) fun _ => he.pure _
  | expr e line => exact expr_respects he e

theorem stmts_respects (h : RespectsStmt R c d opts opts' scope) (last : Value)
    (ss : List Stmt) : R (stmts c opts scope last ss) (stmts d opts' scope last ss) := by
  induction ss generalizing last with
  | nil => exact h.pure last
  | cons s ss ih => exact h.bind (stmt_respects h s) fun v => ih v

theorem bindParams_respects (h : RespectsStmt R c d opts opts' scope) (line : Nat)
    (params : List String) (arguments : List Value) :
    R (bindParams scope line params arguments) (bindParams scope line params arguments) := by
  induction params generalizing arguments with
  | nil => exact h.pure ()
  | cons p ps ih => exact h.bind (h.declare p _ false line) fun _ => ih _

end Expressions

end ScopeScript.Eval
