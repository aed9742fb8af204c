import ScopeScript.Proofs.Layout.Evaluation
import ScopeScript.Proofs.Layout.Parsing
import ScopeScript.Proofs.Layout.Scanning

/-!
# Layout does not change what a script means

Two texts with the same tokens, up to lines, are the same program up to lines or fail to be one in
the same way.  Run in a global scope of their own they give the same value, print the same and fail
with the same error, all up to lines (`SameMeaning`).

A line feed between two tokens does not separate statements: a space does the same.
-/

namespace ScopeScript

/-! ## Outcomes -/

def ScriptError.unlined : ScriptError → ScriptError
  | .scan e => .scan e.unlined
  | .parse e => .parse e.unlined
  | .fault f => .fault f.unlined

def Outcome.unlined : Outcome → Outcome
  | .value v => .value v.unlined
  | .failed e => .failed e.unlined
  | .tooDeep => .tooDeep

/-- A program, or why a text is none, without lines. -/
def Program.withoutLines (r : Except ScriptError Program) : Except ScriptError Program :=
  (r.map Program.unlined).mapError ScriptError.unlined

theorem Eval.finish_of_forgets {c d : Eval Value} (h : ForgetsValue c d) (m : Machine) :
    d.finish m.unlined = ((c.finish m).1.unlined, (c.finish m).2.unlined) := by
  have hend := h m
  unfold EvalIn.finish EStateM.run
  generalize c m = r at hend ⊢
  generalize d m.unlined = r' at hend ⊢
  cases hend with
  | ok hv =>
    rw [hv]
    rfl
  | error e m' => cases e <;> rfl

/-! ## Texts -/

/-- The lines can be taken out of the tokens before they are parsed. -/
theorem Program.withoutLines_ofText (source : String) :
    withoutLines (ofText source) =
      ((Token.withoutLines (Token.tokensOf source)).mapError ScriptError.scan).bind fun ts =>
        (((ofTokens ts).map Program.unlined).mapError ParseError.unlined).mapError
          ScriptError.parse := by
  unfold ofText
  cases Token.tokensOf source with
  | error e => rfl
  | ok ts =>
    have hsame : ts.map Token.unlined = (ts.map Token.unlined).map Token.unlined := by
      simp [Token.unlined]
    show _ = Except.mapError ScriptError.parse
      (((ofTokens (ts.map Token.unlined)).map Program.unlined).mapError ParseError.unlined)
    rw [← ofTokens_unlined hsame]
    dsimp only
    cases ofTokens ts <;> rfl

/-- Two texts have the same tokens, or the same error, up to lines. -/
def Token.SameReading (a b : String) : Prop :=
  Token.withoutLines (Token.tokensOf a) = Token.withoutLines (Token.tokensOf b)

/-- What two texts have in common if only lines tell them apart. -/
structure Script.SameMeaning (a b : String) : Prop where
  program : Program.withoutLines (Program.ofText a) = Program.withoutLines (Program.ofText b)
  outcome : ∀ depth options,
    (run { depth, options } a).1.unlined = (run { depth, options } b).1.unlined
  output : ∀ depth options,
    (run { depth, options } a).2.output = (run { depth, options } b).2.output
  /-- Also what the scripts leave behind is the same. -/
  machine : ∀ depth options,
    (run { depth, options } a).2.unlined = (run { depth, options } b).2.unlined

namespace Token.SameReading

variable {a b : String}

theorem of_tokens {ts us : List Token} (ha : tokensOf a = .ok ts) (hb : tokensOf b = .ok us)
    (h : ts.map Token.unlined = us.map Token.unlined) : SameReading a b := by
  unfold SameReading
  rw [ha, hb]
  exact congrArg Except.ok h

theorem ofText (h : SameReading a b) :
    Program.withoutLines (Program.ofText a) = Program.withoutLines (Program.ofText b) := by
  unfold SameReading at h
  rw [Program.withoutLines_ofText, Program.withoutLines_ofText, h]

end Token.SameReading

namespace Script

/-- A run without lines is the run of the program without lines. -/
def runUnlined (setting : Setting) (r : Except ScriptError Program) : Outcome × Machine :=
  match r with
  | .error e => (.failed e, { store := Store.pushGlobal {} })
  | .ok program => (program.run setting 0).finish { store := Store.pushGlobal {} }

theorem run_unlined (depth : Nat) (options : Options) (source : String) :
    ((run { depth, options } source).1.unlined, (run { depth, options } source).2.unlined) =
      runUnlined { depth, options } (Program.withoutLines (Program.ofText source)) := by
  have hglobal : ({ store := Store.pushGlobal {} } : Machine).unlined =
      { store := Store.pushGlobal {} } := by
    simp [Machine.unlined, Store.unlined, Store.pushGlobal, Store.push, Scope.unlined,
      nativeBindings, NativeOp.standard, constantBindings, Binding.unlined, Value.unlined]
  unfold run runIn
  cases Program.ofText source with
  | error e =>
    show (Outcome.failed e.unlined, Machine.unlined _) = _
    rw [hglobal]
    rfl
  | ok program =>
    have h : Eval.ForgetsValue (program.run { depth, options } 0)
        (program.unlined.run { depth, options } 0) :=
      Eval.stmts_forget (Eval.callsWithin_forget depth) options 0 .null program
    have hend := (Eval.finish_of_forgets h { store := Store.pushGlobal {} }).symm
    rwa [hglobal] at hend

end Script

theorem Token.SameReading.sameMeaning {a b : String} (h : SameReading a b) :
    Script.SameMeaning a b := by
  have hrun (depth : Nat) (options : Options) := by
    have ha := Script.run_unlined depth options a
    rw [h.ofText, ← Script.run_unlined depth options b] at ha
    exact Prod.mk.inj ha
  exact ⟨h.ofText, fun depth options => (hrun depth options).1,
    fun depth options => (congrArg Machine.output (hrun depth options).2 :),
    fun depth options => (hrun depth options).2⟩

/-- After a text with tokens it does not matter which blanks follow, as long as some do. -/
theorem Token.sameReading_blanks {a : String} {ts : List Token} (ha : tokensOf a = .ok ts)
    {v w : String} (hv : v ≠ "") (hw : w ≠ "") (hvs : ∀ c ∈ v.toList, isBlank c)
    (hws : ∀ c ∈ w.toList, isBlank c) (b : String) : SameReading (a ++ v ++ b) (a ++ w ++ b) := by
  have hsplit {w : String} (hw : w ≠ "") (hws : ∀ c ∈ w.toList, isBlank c) :
      ∃ us, ts = us ++ [endAt (1 + a.toList.count '\n')] ∧
        withoutLines (tokensOf (a ++ w ++ b)) =
          (withoutLines (scan 1 b.toList)).map (us.map Token.unlined ++ ·) := by
    obtain ⟨c, cs, hcs⟩ := List.exists_cons_of_ne_nil (mt String.toList_eq_nil_iff.1 hw)
    have hc : isBlank c := hws c (by simp [hcs])
    obtain ⟨us, hus, -, hscan⟩ := scan_append ha (.of_blank hc) (cs ++ b.toList)
    refine ⟨us, hus, ?_⟩
    have htext : (a ++ w ++ b).toList = a.toList ++ c :: (cs ++ b.toList) := by simp [hcs]
    have hblanks := scan_blanks hws (1 + a.toList.count '\n') b.toList
    rw [hcs, List.cons_append, scan_unlined _ 1 b.toList] at hblanks
    rw [tokensOf, htext, hscan, withoutLines_map_append, hblanks]
  obtain ⟨us, hus, hread⟩ := hsplit hv hvs
  obtain ⟨us', hus', hread'⟩ := hsplit hw hws
  obtain rfl : us = us' := List.append_cancel_right (hus.symm.trans hus')
  exact hread.trans hread'.symm

/-- Texts with the same tokens up to lines have the same meaning; so it does not matter which blanks
stand between two tokens, line feeds or not. -/
theorem Script.layout_keeps_meaning :
    (∀ a b ts us, Token.tokensOf a = .ok ts → Token.tokensOf b = .ok us →
      ts.map Token.unlined = us.map Token.unlined → SameMeaning a b) ∧
    ∀ a ts, Token.tokensOf a = .ok ts → ∀ v w, v ≠ "" → w ≠ "" →
      (∀ c ∈ v.toList, Token.isBlank c) → (∀ c ∈ w.toList, Token.isBlank c) →
        ∀ b, SameMeaning (a ++ v ++ b) (a ++ w ++ b) := by
  constructor
  · intro a b ts us ha hb h
    exact (Token.SameReading.of_tokens ha hb h).sameMeaning
  · intro a ts ha v w hv hw hvs hws b
    exact (Token.sameReading_blanks ha hv hw hvs hws b).sameMeaning

/-- The tokens of a call of `print`: the parenthesis opens on one line and closes on another. -/
def printTokens (opens closes : Nat) : List Token :=
  [⟨.identifier, "print", 1⟩, ⟨.leftParen, "(", opens⟩, ⟨.identifier, "missing", closes⟩,
    ⟨.rightParen, ")", closes⟩, Token.endAt closes]

/-- A call whose arguments start on another line is still one statement. -/
theorem Script.layout_keeps_meaning_call :
    (Script.run { depth := 2 } "print(missing)").1 =
        .failed (.fault ⟨.undeclared "missing", 1⟩) ∧
      (Script.run { depth := 2 } "print\n(\n missing )").1 =
        .failed (.fault ⟨.undeclared "missing", 3⟩) ∧
      SameMeaning "print(missing)" "print\n(\n missing )" ∧
      SameMeaning ("print" ++ "\n" ++ "(missing)") ("print" ++ " " ++ "(missing)") := by
  have hone : Token.tokensOf "print(missing)" = .ok (printTokens 1 1) := by decide +kernel
  have hthree : Token.tokensOf "print\n(\n missing )" = .ok (printTokens 2 3) := by decide +kernel
  have hprint : Token.tokensOf "print" = .ok [⟨.identifier, "print", 1⟩, Token.endAt 1] := by
    decide +kernel
  have hrun {source : String} {opens closes : Nat}
      (h : Token.tokensOf source = .ok (printTokens opens closes)) :
      (Script.run { depth := 2 } source).1 = .failed (.fault ⟨.undeclared "missing", closes⟩) := by
    unfold run runIn
    rw [Program.ofText_eq_ok h rfl]
    rfl
  refine ⟨hrun hone, hrun hthree, ?_, ?_⟩
  · exact layout_keeps_meaning.1 _ _ _ _ hone hthree rfl
  · exact layout_keeps_meaning.2 _ _ hprint _ _ (by decide) (by decide) (by simp [Token.isBlank])
      (by simp [Token.isBlank]) _

end ScopeScript
