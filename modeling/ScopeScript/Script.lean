import ScopeScript.Token.Scan
import ScopeScript.Syntax.Parser.Program
import ScopeScript.Native

/-!
# Scripts

A script is a program as text.  All of it is read before any of it runs, so a script that is no
program changes nothing.  What a script declares stays in the scope that it ran in, and so does
whatever it did before a fault.
-/

namespace ScopeScript

/-- Why a script failed: it has no tokens, is no program, or did something wrong. -/
inductive ScriptError where
  | scan (e : ScanError)
  | parse (e : ParseError)
  | fault (f : Fault)
  deriving DecidableEq, Repr

namespace ScriptError

def line : ScriptError → Nat
  | scan e => e.line
  | parse e => e.line
  | fault f => f.line

def message : ScriptError → String
  | scan e => messageOn e.line e.describe
  | parse e => messageOn e.line e.describe
  | fault f => f.message

end ScriptError

/-- How a run ends. -/
inductive Outcome where
  | value (v : Value)
  | failed (e : ScriptError)
  /-- Calls were nested more deeply than allowed. -/
  | tooDeep

/-- The program that a text spells. -/
def Program.ofText (source : String) : Except ScriptError Program :=
  match Token.tokensOf source with
  | .error e => .error (.scan e)
  | .ok tokens =>
    match Program.ofTokens tokens with
    | .error e => .error (.parse e)
    | .ok program => .ok program

theorem Program.ofText_eq_ok {source : String} {ts : List Token} {p : Program}
    (hts : Token.tokensOf source = .ok ts) (hp : ofTokens ts = .ok p) : ofText source = .ok p := by
  simp only [ofText, hts, hp]

theorem Program.ofText_eq_error {source : String} {ts : List Token} {e : ParseError}
    (hts : Token.tokensOf source = .ok ts) (hp : ofTokens ts = .error e) :
    ofText source = .error (.parse e) := by
  simp only [ofText, hts, hp]

/-- How a computation ended, and the machine it left. -/
def EvalIn.finish {σ : Type} (c : EvalIn σ Value) (m : σ) : Outcome × σ :=
  match c.run m with
  | .ok v m => (.value v, m)
  | .error (.fault f) m => (.failed (.fault f), m)
  | .error .depth m => (.tooDeep, m)

/-- What a program needs besides its text: native functions of the embedding program, how deep
calls may be nested, and the options.  The default depth is more than memory has room for, so that
only a program that nests calls without end could reach it. -/
structure SettingIn (σ : Type) where
  host : HostIn σ := .none
  depth : Nat := Nat.pow 2 62
  options : Options := {}

abbrev Setting := SettingIn Machine

variable {σ : Type} [HasScopes σ]

def SettingIn.calls (setting : SettingIn σ) : CallsIn σ :=
  callsWithin setting.host setting.depth

/-- Runs a program in a scope. -/
def Program.run (setting : SettingIn σ) (program : Program) (scope : ScopeId) :
    EvalIn σ Value :=
  Eval.stmts setting.calls setting.options scope .null program

namespace Script

/-- Runs a script in a scope of the machine `m`. -/
def runIn (setting : SettingIn σ) (source : String) (scope : ScopeId) (m : σ) : Outcome × σ :=
  match Program.ofText source with
  | .error e => (.failed e, m)
  | .ok program => (program.run setting scope).finish m

/-- Runs a script in a global scope of its own. -/
def run (setting : Setting) (source : String) : Outcome × Machine :=
  runIn setting source 0 { store := Store.pushGlobal {} }

end Script

end ScopeScript
