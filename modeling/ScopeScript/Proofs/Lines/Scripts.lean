import ScopeScript.Proofs.Lines.Evaluation
import ScopeScript.Proofs.SyntaxErrors.Programs
import ScopeScript.Proofs.Token.Failing

/-!
# Errors of scripts

Whatever stops a script that runs in a global scope of its own, the error names a line on which a
token of the text starts, its end is, or a character that no token starts with.  In particular
no error is on line 0.

Two errors do not occur.  No number token is refused as a numeral, for the scanner lets only decimals
through; and nothing but a name follows a dot, for the parser builds no such tree.  Both would be
errors of one phase about what an earlier one has made.

    Script.errors_placed
-/

namespace ScopeScript

namespace Program

variable {ts : List Token} {e : ParseError}

/-- A syntax error names the line of a token. -/
theorem exists_token_of_error {source : String} (hts : Token.tokensOf source = .ok ts)
    (h : Program.ofTokens ts = .error e) : ∃ t ∈ ts, t.line = e.line := by
  obtain ⟨us, line, rfl, -, hreadable⟩ := Token.tokensOf_ends hts
  obtain ⟨rest, hp⟩ := Grammar.ofTokens_eq_error_iff.1 h
  obtain ⟨read, t, following, stack, hsplit, -, -, hstack, hr, -⟩ :=
    Grammar.program_broken rfl hreadable hp
  rw [hsplit]
  cases hr with
  | unexpected _ => exact ⟨t, by simp, rfl⟩
  | @unclosed stack b opened _ _ =>
    have hopen : (b, opened) ∈ openBrackets [] read := hstack ▸ List.mem_cons_self
    obtain ⟨u, hu, hline⟩ := (exists_opener hopen).resolve_left nofun
    exact ⟨u, List.mem_append_left _ hu, hline⟩
  | group _ hg => cases hg

/-- Where numbers can be read, none is refused as a numeral. -/
theorem ne_numericLiteral (hread : Grammar.Readable ts) (h : Program.ofTokens ts = .error e)
    (found : Token) : e ≠ .unexpected .numericLiteral found := by
  rintro rfl
  obtain ⟨rest, hp⟩ := Grammar.ofTokens_eq_error_iff.1 h
  obtain ⟨read, hreads⟩ := Parser.sees_program ts
  rcases hreads.blames _ rest hp with ⟨hx, -⟩ | ⟨-, hfound, hk, hnone⟩
  · exact hx rfl
  · have hmem : found ∈ ts := by
      rw [hreads.split]
      exact List.mem_append_left _ hfound
    have hsome := hread found hmem hk
    rw [hnone] at hsome
    cases hsome

/-- A program that is placed reports nothing else than placed faults. -/
theorem run_reports {on : Nat → Prop} {p : Program} (hp : ∀ s ∈ p, s.Placed on)
    {setting : Setting} {scope : ScopeId} :
    Eval.Reports on (Value.Placed on) (p.run setting scope) :=
  Eval.stmts_reports (Eval.callsWithin_report setting.host setting.depth) hp .null

end Program

/-- A run that failed was stopped by a fault. -/
theorem Eval.Reports.failed {on : Nat → Prop} {V : Value → Prop} {c : Eval Value} {m m' : Machine}
    {e : ScriptError} (h : Eval.Reports on V c) (hm : m.Placed on)
    (hc : c.finish m = (.failed e, m')) : ∃ f, e = .fault f ∧ f.Placed on := by
  have hends := h m hm
  unfold Ensures at hends
  unfold EvalIn.finish EStateM.run at hc
  generalize c m = r at hc hends
  match r with
  | .ok v n => cases hc
  | .error (.fault f) n =>
    cases hc
    exact ⟨f, rfl, hends f rfl⟩
  | .error .depth n => cases hc

/-! ## Scripts -/

namespace Script

/-- A global scope has no functions but native ones. -/
theorem pushGlobal_placed (on : Nat → Prop) :
    Machine.Placed on { store := Store.pushGlobal {} } := by
  intro i
  cases i with
  | zero => exact Store.forall_globalBindings .null .boolean (fun _ => .native) 0
  | succ i => exact nofun

/-- A script fails while its tokens are read, while its program is, or when that runs. -/
theorem failed_phase {setting : Setting} {source : String} {e : ScriptError} {m : Machine}
    (h : run setting source = (.failed e, m)) :
    (∃ scanError, Token.tokensOf source = .error scanError ∧ e = .scan scanError) ∨
      ∃ ts, Token.tokensOf source = .ok ts ∧
        ((∃ parseError, Program.ofTokens ts = .error parseError ∧ e = .parse parseError) ∨
          ∃ p, Program.ofTokens ts = .ok p ∧
            (p.run setting 0).finish { store := Store.pushGlobal {} } = (.failed e, m)) := by
  unfold run runIn Program.ofText at h
  cases hts : Token.tokensOf source with
  | error scanError =>
    rw [hts] at h
    cases h
    exact .inl ⟨scanError, rfl, rfl⟩
  | ok ts =>
    rw [hts] at h
    dsimp only at h
    refine .inr ⟨ts, rfl, ?_⟩
    cases hp : Program.ofTokens ts with
    | error parseError =>
      rw [hp] at h
      cases h
      exact .inl ⟨parseError, rfl, rfl⟩
    | ok p =>
      rw [hp] at h
      exact .inr ⟨p, rfl, h⟩

/-- An error that a script reports is on a line where something starts, and is never one phase's
complaint about what an earlier phase has made: number tokens spell doubles that are zero or more,
and what follows a dot is a name in every tree. -/
theorem errors_placed (setting : Setting) (source : String) :
    (∀ e m, run setting source = (.failed e, m) →
      Token.StartsOn source e.line ∧ 1 ≤ e.line ∧ e.line ≤ 1 + source.toList.count '\n' ∧
        (∀ found, e ≠ .parse (.unexpected .numericLiteral found)) ∧
        ∀ line, e ≠ .fault ⟨.unsupported .propertyName, line⟩) ∧
      (∀ ts, Token.tokensOf source = .ok ts → ∀ t ∈ ts, t.kind = .number →
        ∃ x, Numeral.read? t.text = some x ∧ x.isNaN = false ∧ 0.0 ≤ x) ∧
      ∀ ts p, Program.ofTokens ts = .ok p →
        ∀ s ∈ p, s.Placed fun line => ∃ t ∈ ts, t.line = line := by
  refine ⟨fun e m h => ?_, fun ts hts t ht hk => (Token.scan_decimal hts t ht hk).read?_eq,
    fun ts p hp => Grammar.ofTokens_placed hp fun t ht => ⟨t, ht, rfl⟩⟩
  suffices hplaced : Token.StartsOn source e.line ∧
      (∀ found, e ≠ .parse (.unexpected .numericLiteral found)) ∧
        ∀ line, e ≠ .fault ⟨.unsupported .propertyName, line⟩ by
    obtain ⟨hstarts, hnever⟩ := hplaced
    exact ⟨hstarts, hstarts.bounds.1, hstarts.bounds.2, hnever⟩
  rcases failed_phase h with ⟨scanError, hts, rfl⟩ | ⟨ts, hts, hphase⟩
  · exact ⟨Token.startsOn_of_error hts, nofun, nofun⟩
  have hlines : ∀ t ∈ ts, Token.StartsOn source t.line := fun t ht => Token.startsOn_of_mem hts ht
  rcases hphase with ⟨parseError, hp, rfl⟩ | ⟨p, hp, hrun⟩
  · obtain ⟨t, ht, hline⟩ := Program.exists_token_of_error hts hp
    have hstarts : Token.StartsOn source parseError.line := hline ▸ hlines t ht
    refine ⟨hstarts, fun found => ?_, nofun⟩
    rintro ⟨⟩
    exact Program.ne_numericLiteral (Token.scan_readable hts) hp found rfl
  · have hprogram : ∀ s ∈ p, s.Placed (Token.StartsOn source) := Grammar.ofTokens_placed hp hlines
    obtain ⟨f, rfl, hf⟩ := (Program.run_reports hprogram).failed (pushGlobal_placed _) hrun
    refine ⟨hf.line, nofun, fun line => ?_⟩
    rintro ⟨⟩
    exact hf.named rfl

/-- A function that reads a property of a missing one. -/
def memberOfNothing : String := "fn f(o) \x7b\n  o.a.b\n\x7d\nf(\x7b\x7d)"

/-- The fault is on the line of the function's body, where the second dot is. -/
theorem errors_placed_memberOfNothing :
    ∃ m, run { depth := 1 } memberOfNothing =
        (.failed (.fault ⟨.unsupported (.memberAccess .null), 2⟩), m) ∧
      Token.StartsOn memberOfNothing 2 := by
  have hrun : (run { depth := 1 } memberOfNothing).1 =
      .failed (.fault ⟨.unsupported (.memberAccess .null), 2⟩) := by cbv
  obtain ⟨m, hm⟩ : ∃ m, run { depth := 1 } memberOfNothing =
      (.failed (.fault ⟨.unsupported (.memberAccess .null), 2⟩), m) :=
    ⟨_, Prod.ext hrun rfl⟩
  exact ⟨m, hm, ((errors_placed { depth := 1 } memberOfNothing).1 _ m hm).1⟩

end Script

end ScopeScript
