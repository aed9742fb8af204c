import ScopeScript.Proofs.Arithmetic.Written
import ScopeScript.Proofs.Run

/-!
# What written arithmetic gives

A text that writes a tree gives the number of the tree, unless it divides by zero somewhere.  Then
the first division by zero stops the run, from left to right and operands before their operator,
and the fault names the line of its `/`.

    Written.expr_apply   how the expression of a text evaluates
    run_source           how a run of the whole text ends
-/

namespace ScopeScript.Arithmetic

/-! ## What is expected -/

/-- A `/`, by its line and by the number on its right. -/
structure Division where
  line : Nat
  divisor : Float

/-- Zero of either sign. -/
def Division.byZero (d : Division) : Bool := d.divisor == 0.0

namespace Written

/-- The divisions of a text that starts on `line`, from left to right, operands before operators. -/
def divisions (line : Nat) : Written → List Division
  | literal _ => []
  | group before inner _ => inner.divisions (line + before.feeds)
  | binary left before op after right =>
    let operatorLine := line + left.feeds + before.feeds
    left.divisions line ++ (right.divisions (operatorLine + after.feeds) ++
      if op = .div then [⟨operatorLine, right.tree.number⟩] else [])

def zeroDivision? (line : Nat) (w : Written) : Option Division :=
  (w.divisions line).find? Division.byZero

/-- How a run of a text that starts on `line` should end. -/
def outcome (line : Nat) (w : Written) : Outcome :=
  match w.zeroDivision? line with
  | none => .value (.number w.tree.number)
  | some d => .failed (.fault ⟨.divisionByZero, d.line⟩)

theorem zeroDivision?_binary {left : Written} {before : Gap} {op : BinaryOp} {after : Gap}
    {right : Written} {line operatorLine : Nat}
    (hline : operatorLine = line + left.feeds + before.feeds) :
    (binary left before op after right).zeroDivision? line =
      (left.zeroDivision? line).or ((right.zeroDivision? (operatorLine + after.feeds)).or
        (if op = .div ∧ right.tree.number == 0.0 then some ⟨operatorLine, right.tree.number⟩
          else none)) := by
  subst hline
  unfold zeroDivision?
  rw [divisions, List.find?_append, List.find?_append]
  by_cases hop : op = .div
  · cases hzero : right.tree.number == 0.0 <;> simp [hop, hzero, Division.byZero]
  · simp [hop]

end Written

/-! ## Evaluation -/

theorem ofCause_onValues (opts : Options) (op : BinaryOp) (x y : Float) (line : Nat)
    (m : Machine) :
    Eval.ofCause line (op.onValues opts (.number x) (.number y)) m =
      if op = .div ∧ y == 0.0 then .error (.fault ⟨.divisionByZero, line⟩) m
      else .ok (.number (op.onDoubles x y)) m := by
  cases op with
  | div =>
    by_cases hy : y == 0.0
    · simp only [BinaryOp.onValues, BinaryOp.onNumbers, hy]
      rfl
    · simp only [BinaryOp.onValues, BinaryOp.onNumbers, hy]
      rfl
  | _ => rfl

/-- The first division by zero stops the evaluation; without one it gives the number of the tree. -/
theorem Written.expr_apply (calls : Calls) (opts : Options) (scope : ScopeId) (m : Machine)
    (w : Written) (line : Nat) :
    Eval.expr calls opts scope (w.expr line) m =
      match w.zeroDivision? line with
      | none => .ok (.number w.tree.number) m
      | some d => .error (.fault ⟨.divisionByZero, d.line⟩) m := by
  induction w generalizing line with
  | literal l => rfl
  | group before inner after ih => exact ih (line + before.feeds)
  | binary left before op after right ihl ihr =>
    obtain ⟨operatorLine, hline⟩ : ∃ n, n = line + left.feeds + before.feeds := ⟨_, rfl⟩
    rw [zeroDivision?_binary hline, expr, ← hline]
    show (Eval.expr calls opts scope (left.expr line) >>= _) m = _
    rw [Eval.bind_apply, ihl]
    -- a division by zero on the left comes before all others, one on the right before the operator
    cases left.zeroDivision? line with
    | some d => rfl
    | none =>
      show (Eval.expr calls opts scope (right.expr (operatorLine + after.feeds)) >>= _) m = _
      rw [Eval.bind_apply, ihr, Option.none_or]
      cases right.zeroDivision? (operatorLine + after.feeds) with
      | some d => rfl
      | none =>
        show Eval.ofCause operatorLine (op.onValues opts (.number left.tree.number)
          (.number right.tree.number)) m = _
        rw [ofCause_onValues, Option.none_or]
        by_cases hzero : op = .div ∧ right.tree.number == 0.0
        · rw [if_pos hzero, if_pos hzero]
        · rw [if_neg hzero, if_neg hzero]
          rfl

/-! ## Runs -/

/-- In whatever scope of whatever machine a text that writes a tree is run, it ends as the tree and
the lines say, and changes nothing. -/
theorem run_source (setting : Setting) {w : Written} (hw : w.Parenthesized) (lead trail : Gap) :
    let outcome := w.outcome (1 + lead.feeds)
    (Script.run setting (w.source lead trail)).1 = outcome ∧
      ∀ scope m, Script.runIn setting (w.source lead trail) scope m = (outcome, m) := by
  obtain ⟨line, hprogram⟩ := w.ofText_source hw lead trail
  have hrun (scope : ScopeId) (m : Machine) :
      Script.runIn setting (w.source lead trail) scope m = (w.outcome (1 + lead.feeds), m) := by
    unfold Script.runIn
    rw [hprogram]
    show EvalIn.finish
      (Eval.expr setting.calls setting.options scope (w.expr (1 + lead.feeds)) >>= _) m = _
    unfold EvalIn.finish EStateM.run Written.outcome
    rw [Eval.bind_apply, w.expr_apply]
    cases w.zeroDivision? (1 + lead.feeds) <;> rfl
  exact ⟨congrArg Prod.fst (hrun _ _), hrun⟩

/-! ## A text over three lines -/

def space : Gap := ⟨[' '], List.forall_mem_singleton.2 rfl⟩

def feed : Gap := ⟨['\n'], List.forall_mem_singleton.2 rfl⟩

def digit (c : Char) (hc : c.isDigit) : Written :=
  .literal ⟨[c], none, List.cons_ne_nil c [], List.forall_mem_singleton.2 hc, nofun⟩

def threePoint : Written :=
  .literal ⟨['3'], some [], List.cons_ne_nil _ _, List.forall_mem_singleton.2 rfl, nofun⟩

/-- Two divisions by zero on different lines, the first of them by `-0`. -/
def zeroDivisors : Written :=
  .binary (.binary (digit '8' rfl) space .rem space threePoint) space .sub feed
    (.binary
      (.binary (digit '6' rfl) space .div space
        (.group .none
          (.binary (digit '0' rfl) space .mul space
            (.group .none (.binary (digit '0' rfl) space .sub space (digit '1' rfl)) .none))
          .none))
      feed .div space (digit '0' rfl))

theorem run_source_zeroDivisors :
    let source := "8 % 3. -\n6 / (0 * (0 - 1))\n/ 0"
    let outcome := Outcome.failed (.fault ⟨.divisionByZero, 2⟩)
    zeroDivisors.source .none .none = source ∧ zeroDivisors.Parenthesized ∧
      (Script.run {} source).1 = outcome ∧
      ∀ scope (m : Machine), Script.runIn {} source scope m = (outcome, m) := by
  intro source outcome
  have hsource : zeroDivisors.source .none .none = source := by decide
  have hparenthesized : zeroDivisors.Parenthesized := by
    simp [zeroDivisors, digit, threePoint, Written.Parenthesized, Written.precedence,
      BinaryOp.precedence]
  have hdivision : (zeroDivisors.zeroDivision? 1).map Division.line = some 2 := by decide +kernel
  have houtcome : zeroDivisors.outcome (1 + Gap.none.feeds) = outcome := by
    obtain ⟨d, hd, hline⟩ := Option.map_eq_some_iff.1 hdivision
    show zeroDivisors.outcome 1 = outcome
    unfold Written.outcome
    rw [hd]
    dsimp only
    rw [hline]
  have hrun := run_source {} hparenthesized .none .none
  rw [hsource, houtcome] at hrun
  exact ⟨hsource, hparenthesized, hrun⟩

end ScopeScript.Arithmetic
