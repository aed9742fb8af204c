import ScopeScript.Proofs.Eval.Objects
import ScopeScript.Proofs.Layout.Scanning
import ScopeScript.Proofs.Number.ReadBack
import ScopeScript.Proofs.Printing.ReadBack
import ScopeScript.Value.Display

/-!
# Printed objects read back

The text that is shown for an object is itself a script if the object holds nothing but data: names
as keys and, at every depth, null, truth values, strings without quotes and finite numbers without a
sign (`Value.IsData`).  Every such value has an expression that writes it down, its `literal`.

    the text of a value gives the tokens of its literal, lines apart      (Value.gives_entryText)
    a text with the tokens of an expression is a program that is just it  (Program.ofText_of_gives)
    the literal of a value, on any lines, evaluates to the value          (Eval.expr_literal)

So the text of an object, run as a script, gives the object (`Script.run_display`).
-/

namespace ScopeScript

open Grammar
open Token (symbol word separated withoutLines scan)

theorem IsName.of_all {text : String} (hne : text.toList ≠ [])
    (hall : text.toList.all Token.isWordChar) (h : text ∉ ["let", "const", "fn"]) :
    IsName text := by
  simp only [List.mem_cons, List.not_mem_nil, or_false, not_or] at h
  exact ⟨.of_all hne hall, h⟩

/-! ## Values that are data -/

namespace Value

mutual

/-- A value that can be written down: no function in it, no quote in a string, no number with a
sign, and distinct keys, as in every object, that are names. -/
def IsData : Value → Prop
  | null | boolean _ => True
  | number x => x.isFinite ∧ Binary64.isNegative x = false
  | string s => '"' ∉ s.toList
  | object ⟨es⟩ => (es.map (·.1)).Nodup ∧ EntriesAreData es
  | function _ | native _ => False

def EntriesAreData : List (String × Value) → Prop
  | [] => True
  | (k, v) :: es => IsName k ∧ v.IsData ∧ EntriesAreData es

end

mutual

/-- The expression that writes a value down.  Functions have none; their names stand for them. -/
def literal : Value → Expr
  | null => .name "null" 0
  | boolean b => .name (if b then "true" else "false") 0
  | number x => .number x 0
  | string s => .string s 0
  | object ⟨es⟩ => .object (properties es) 0
  | function f => .name f.name 0
  | native n => .name n.name 0

def properties : List (String × Value) → List Property
  | [] => []
  | (k, v) :: es => .field k v.literal 0 :: properties es

end

/-- Numbers as `display` writes them. -/
def spelling : Spelling := fun x _ => formatNumber x

theorem isName_constant : IsName "null" ∧ ∀ b : Bool, IsName (if b then "true" else "false") := by
  refine ⟨.of_all (by decide) rfl (by decide), fun b => ?_⟩
  cases b
  · exact .of_all (by decide) rfl (by decide)
  · exact .of_all (by decide) rfl (by decide)

mutual

theorem printable_literal {v : Value} (h : v.IsData) : v.literal.Printable spelling := by
  match v with
  | null => exact isName_constant.1
  | boolean b => exact isName_constant.2 b
  | number x =>
    have hword := Binary64.word_lt_of_isFinite h.1
    exact ⟨Numeral.isDecimal_formatNumber hword h.2, Numeral.read?_formatNumber hword⟩
  | string s => exact h
  | object ⟨es⟩ => exact printable_properties h.2
  | function f => exact h.elim
  | native n => exact h.elim

theorem printable_properties {es : List (String × Value)} (h : EntriesAreData es) :
    Property.AllPrintable spelling (properties es) := by
  match es with
  | [] => exact trivial
  | (k, v) :: es => exact ⟨⟨h.1, printable_literal h.2.1⟩, printable_properties h.2.2⟩

end

mutual

/-- Data is equal to itself, since none of its numbers is a NaN. -/
theorem beq_self {v : Value} (h : v.IsData) : v.beq v = true := by
  match v with
  | null => rfl
  | boolean b => exact BEq.rfl
  | number x => exact Binary64.beq_self_of_isFinite h.1
  | string s => exact BEq.rfl
  | object ⟨es⟩ => exact beqEntries_self h.2
  | function f => exact h.elim
  | native n => exact h.elim

theorem beqEntries_self {es : List (String × Value)} (h : EntriesAreData es) :
    beqEntries es es = true := by
  match es with
  | [] => rfl
  | (k, v) :: es =>
    show (k == k && v.beq v && beqEntries es es) = true
    rw [beq_self h.2.1, beqEntries_self h.2.2, BEq.rfl]
    rfl

end

end Value

/-! ## The tokens of the text -/

namespace Token

/-- In front of `rest`, the text `cs` gives the tokens `ts`, lines apart. -/
def Gives (cs : List Char) (ts : List Token) (rest : List Char) : Prop :=
  withoutLines (scan 1 (cs ++ rest)) = (withoutLines (scan 1 rest)).map (ts ++ ·)

/-- Neither a word nor a number goes on with what `rest` starts with. -/
def Ends (rest : List Char) : Prop := ∀ c ∈ rest.head?, EndsToken c

theorem Ends.cons {c : Char} (hc : EndsToken c) (rest : List Char) : Ends (c :: rest) := by
  simpa [Ends] using hc

namespace Gives

variable {cs cs' rest : List Char} {ts ts' : List Token}

theorem append (h : Gives cs ts (cs' ++ rest)) (h' : Gives cs' ts' rest) :
    Gives (cs ++ cs') (ts ++ ts') rest := by
  unfold Gives at *
  rw [List.append_assoc, h, h']
  cases withoutLines (scan 1 rest) with
  | ok us => exact congrArg Except.ok (List.append_assoc ts ts' us).symm
  | error e => rfl

/-- One token, which the text is scanned as. -/
theorem of_scan {t : Token} {line : Nat}
    (h : scan 1 (cs ++ rest) = (scan line rest).map (t :: ·)) : Gives cs [t.unlined] rest := by
  unfold Gives
  rw [h, withoutLines_map_cons, scan_unlined line 1]
  rfl

theorem nil : Gives [] [] rest := by
  unfold Gives
  rw [List.nil_append]
  cases withoutLines (scan 1 rest) <;> rfl

theorem space : Gives [' '] [] rest := by
  unfold Gives
  rw [List.singleton_append, scan_space]
  exact nil

theorem symbol {c : Char} {kind : TokenKind} (hc : symbolKind? c = some kind) :
    Gives [c] [symbol c] rest := by
  have h : Gives [c] [Token.unlined ⟨kind, c.toString, 1⟩] rest := of_scan (scan_symbol hc)
  unfold Token.symbol
  rwa [hc]

theorem symbol_space {c : Char} {kind : TokenKind} (hc : symbolKind? c = some kind) :
    Gives [c, ' '] [Token.symbol c] rest :=
  (symbol hc).append space

theorem word {text : String} (h : IsWord text) (hrest : Ends rest) :
    Gives text.toList [word text] rest := by
  obtain ⟨hne, hall⟩ := h
  obtain ⟨c, run, hcons⟩ := List.exists_cons_of_ne_nil hne
  rw [hcons, List.forall_mem_cons] at hall
  have hscan : scan 1 (c :: run ++ rest) = _ :=
    scan_word hall.1 hall.2 fun d hd => (hrest d hd).2
  rw [← hcons, String.ofList_toList] at hscan
  exact of_scan hscan

theorem number {text : String} (h : IsDecimal text) (hrest : Ends rest) :
    Gives text.toList [⟨.number, text, 0⟩] rest := by
  obtain ⟨c, run, hcons, hc, hrun, hpoints⟩ := h.exists_cons
  have hscan : scan 1 (c :: run ++ rest) = _ :=
    scan_number hc hrun hpoints fun d hd => (hrest d hd).1
  rw [← hcons, String.ofList_toList] at hscan
  exact of_scan hscan

theorem string {s : String} (h : '"' ∉ s.toList) :
    Gives ("\"" ++ s ++ "\"").toList [⟨.string, s, 0⟩] rest := by
  have hscan : scan 1 ('"' :: s.toList ++ '"' :: rest) = _ := scan_string h
  have htext : ("\"" ++ s ++ "\"").toList ++ rest = '"' :: s.toList ++ '"' :: rest := by simp
  rw [String.ofList_toList, ← htext] at hscan
  exact of_scan hscan

end Gives

end Token

open Token (Gives Ends)

namespace Value

/-- The text of a value in an object. -/
def entryText : Value → String
  | string s => "\"" ++ s ++ "\""
  | v => display v

theorem displayEntry_eq (k : String) (v : Value) :
    displayEntry (k, v) = k ++ (": " ++ entryText v) := by
  cases v with
  | string s =>
    have hquote : ": \"" = ": " ++ "\"" := rfl
    rw [displayEntry, entryText, hquote]
    simp only [String.append_assoc]
  | _ => simp [displayEntry, entryText, String.append_assoc]

end Value

open Value (literal properties spelling)

theorem Value.gives_entry {k : String} {v : Value} {ts : List Token} {rest : List Char}
    (hk : IsName k) (hv : Gives v.entryText.toList ts rest) :
    Gives (displayEntry (k, v)).toList (word k :: symbol ':' :: ts) rest := by
  have hcolon : Gives (": ".toList ++ v.entryText.toList) (symbol ':' :: ts) rest :=
    (Gives.symbol_space rfl).append hv
  have hends : Ends (": ".toList ++ v.entryText.toList ++ rest) :=
    .cons (c := ':') ⟨by decide, by decide⟩ _
  rw [displayEntry_eq, String.toList_append, String.toList_append]
  exact (Gives.word hk.1 hends).append hcolon

mutual

/-- The text of a value has the tokens of its literal, if nothing that follows goes on with it. -/
theorem Value.gives_entryText {v : Value} (h : v.IsData) {rest : List Char} (hrest : Ends rest) :
    Gives v.entryText.toList (v.literal.tokens spelling .expression) rest := by
  match v with
  | null =>
    show Gives (display null).toList _ _
    rw [display_null]
    exact .word isName_constant.1.1 hrest
  | boolean b =>
    show Gives (display (boolean b)).toList _ _
    rw [display_boolean]
    exact .word (isName_constant.2 b).1 hrest
  | number x =>
    show Gives (display (number x)).toList _ _
    rw [display_number]
    exact .number (Numeral.isDecimal_formatNumber (Binary64.word_lt_of_isFinite h.1) h.2) hrest
  | string s => exact .string h
  | object ⟨[]⟩ =>
    show Gives (display (object ⟨[]⟩)).toList _ _
    rw [display_object_nil]
    exact (Gives.symbol (c := '\x7b') rfl).append (.symbol (c := '\x7d') rfl)
  | object ⟨e :: es⟩ =>
    show Gives (display (object ⟨e :: es⟩)).toList _ _
    -- a space stands behind the last entry and a comma behind the others, and both end a token
    have hclose : Gives " \x7d".toList [symbol '\x7d'] rest := Gives.space.append (.symbol rfl)
    have hends : Ends (" \x7d".toList ++ rest) := .cons (c := ' ') ⟨by decide, by decide⟩ _
    rw [display_object_of_ne_nil (List.cons_ne_nil e es), String.toList_append,
      String.toList_append]
    have hentries := Value.gives_entries h.2 hends
    exact ((Gives.symbol_space (c := '\x7b') rfl).append hentries).append hclose
  | function f => exact h.elim
  | native n => exact h.elim

theorem Value.gives_entries {es : List (String × Value)} (h : EntriesAreData es)
    {rest : List Char} (hrest : Ends rest) :
    Gives (", ".intercalate (es.map displayEntry)).toList
      (separated (Property.eachTokens spelling (properties es))) rest := by
  match es with
  | [] => exact .nil
  | [(k, v)] =>
    have hentry := Value.gives_entry h.1 (Value.gives_entryText h.2.1 hrest)
    rwa [List.map_singleton, String.intercalate_singleton]
  | (k, v) :: e :: es =>
    have hends : Ends
        (", ".toList ++ (", ".intercalate ((e :: es).map displayEntry)).toList ++ rest) :=
      .cons (c := ',') ⟨by decide, by decide⟩ _
    have hentry := Value.gives_entry h.1 (Value.gives_entryText h.2.1 hends)
    have hrest := Value.gives_entries h.2.2 hrest
    rw [List.map_cons, List.map_cons, String.intercalate_cons_cons, String.toList_append,
      String.toList_append, List.append_assoc]
    exact hentry.append ((Gives.symbol_space (c := ',') rfl).append hrest)

end

/-! ## The program -/

/-- A text with the tokens of an expression is a program of one statement. -/
theorem Program.ofText_of_gives {spell : Spelling} {e : Expr} (he : e.Printable spell)
    {source : String} (h : Gives source.toList (e.tokens spell .expression) []) :
    ∃ e' line, Program.ofText source = .ok [.expr e' line] ∧ e'.unlined = e.unlined := by
  obtain ⟨us, hus, hunlined⟩ : ∃ us, Token.tokensOf source = .ok us ∧
      us.map Token.unlined = e.tokens spell .expression ++ [.endAt 0] := by
    unfold Gives at h
    rw [List.append_nil, Token.scan_nil] at h
    unfold Token.tokensOf
    cases hscan : scan 1 source.toList with
    | ok us =>
      rw [hscan] at h
      exact ⟨us, rfl, Except.ok.inj h⟩
    | error e =>
      rw [hscan] at h
      cases h
  obtain ⟨ts, last, rfl, hts, hlast⟩ := List.map_eq_append_iff.1 hunlined
  obtain ⟨t, more, rfl, ht, hmore⟩ := List.map_eq_cons_iff.1 hlast
  have hspelled := Expr.spells_tokens he .expression []
  rw [List.append_nil] at hspelled
  obtain ⟨e', rest, he', hrest, hspells⟩ := (hspelled.of_unlined hts).expr
  obtain rfl := List.map_eq_nil_iff.1 hrest
  have hstatement := Statement.expr hspells fun _ : true = true => fun htears => nomatch htears.2
  have hend : (Parser.next (t :: more)).kind = .eof := congrArg Token.kind ht
  have hread := (Statements.cons hstatement .nil).ofTokens hend
  exact ⟨e', (Parser.next ts).line, ofText_eq_ok hus hread, he'⟩

namespace Eval

/-- The names of null and of the truth values mean what they say. -/
structure KnowsConstants (scope : ScopeId) (m : Machine) : Prop where
  null : m.store.lookup scope "null" = .ok .null
  boolean : ∀ b : Bool, m.store.lookup scope (if b then "true" else "false") = .ok (.boolean b)

section Literals

variable {calls : Calls} {opts : Options} {scope : ScopeId} {m : Machine}

mutual

/-- The expression that writes a value down, with any lines, gives the value. -/
theorem expr_literal (hm : KnowsConstants scope m) {v : Value} (hv : v.IsData) {e : Expr}
    (he : e.unlined = v.literal.unlined) : expr calls opts scope e m = .ok v m := by
  match v with
  | .null =>
    cases e with
    | name n line =>
      cases he
      show lookup scope "null" line m = _
      rw [lookup_apply, hm.null]
    | _ => cases he
  | .boolean b =>
    cases e with
    | name n line =>
      cases he
      show lookup scope _ line m = _
      rw [lookup_apply, hm.boolean]
    | _ => cases he
  | .number x =>
    cases e with
    | number y line =>
      cases he
      rfl
    | _ => cases he
  | .string s =>
    cases e with
    | string t line =>
      cases he
      rfl
    | _ => cases he
  | .object ⟨es⟩ =>
    cases e with
    | object ps line =>
      injection he with hps
      unfold expr
      rw [bind_apply, fields_literal hm hv.2 hps]
      dsimp only
      rw [Record.ofList_of_nodup hv.1]
      rfl
    | _ => cases he
  | .function f => exact hv.elim
  | .native n => exact hv.elim

theorem fields_literal (hm : KnowsConstants scope m) {es : List (String × Value)}
    (hes : Value.EntriesAreData es) {ps : List Property}
    (hps : Property.allUnlined ps = Property.allUnlined (properties es)) :
    fields calls opts scope ps m = .ok es m := by
  match es, ps with
  | [], [] => rfl
  | [], p :: ps => cases hps
  | e :: es, [] => cases hps
  | e :: es, .shorthand key line :: ps =>
    injection hps with hp
    cases hp
  | (k, v) :: es, .field key value line :: ps =>
    injection hps with hp hps
    injection hp with hkey hvalue
    have hfield : field calls opts scope (.field key value line) m = .ok v m :=
      expr_literal hm hes.2.1 hvalue
    unfold fields
    rw [bind_apply, hfield]
    dsimp only
    rw [bind_apply, fields_literal hm hes.2.2 hps, ← hkey]
    rfl

end

end Literals

end Eval

/-! ## Runs -/

namespace Script

theorem knowsConstants_pushGlobal : Eval.KnowsConstants 0 { store := Store.pushGlobal {} } where
  null := rfl
  boolean b := by cases b <;> rfl

/-- An object of data that is printed and run as a script comes back as it was, whatever the options
and the host are, and nothing else happens. -/
theorem run_display (setting : Setting) {o : Record Value} (h : (Value.object o).IsData) :
    run setting (Value.object o).display =
        (.value (.object o), { store := Store.pushGlobal {} }) ∧
      (Value.object o == .object o) = true := by
  have hends : Ends [] := by simp [Ends]
  have hgives : Gives (Value.object o).display.toList _ [] := Value.gives_entryText h hends
  obtain ⟨e, line, hprogram, he⟩ := Program.ofText_of_gives (Value.printable_literal h) hgives
  refine ⟨?_, Value.beq_self h⟩
  unfold run runIn
  rw [hprogram]
  show EvalIn.finish (Eval.expr setting.calls setting.options 0 e >>= _) _ = _
  unfold EvalIn.finish EStateM.run
  rw [Eval.bind_apply, Eval.expr_literal knowsConstants_pushGlobal h he]
  rfl

/-- An object with a name for a key, and in it a string over two lines, a number and no entries. -/
def nested : Record Value :=
  ⟨[("true", .object ⟨[("a", .string "x\ny"), ("b", .number 0.5), ("a_", .object ⟨[]⟩)]⟩),
    ("fnord", .boolean true)]⟩

theorem run_display_nested :
    let text := "\x7b true: \x7b a: \"x\ny\", b: 0.5, a_: \x7b\x7d \x7d, fnord: true \x7d"
    (Value.object nested).IsData ∧ (Value.object nested).display = text ∧
      run {} text = (.value (.object nested), { store := Store.pushGlobal {} }) := by
  intro text
  have hnumber : Float.isFinite 0.5 ∧ Binary64.isNegative 0.5 = false := by decide +kernel
  have hinner : Value.EntriesAreData
      [("a", .string "x\ny"), ("b", .number 0.5), ("a_", .object ⟨[]⟩)] :=
    ⟨.of_all (by decide) rfl (by decide), (by decide : '"' ∉ "x\ny".toList),
      .of_all (by decide) rfl (by decide), hnumber,
      .of_all (by decide) rfl (by decide), ⟨List.nodup_nil, trivial⟩, trivial⟩
  have hdata : (Value.object nested).IsData :=
    ⟨by decide, .of_all (by decide) rfl (by decide), ⟨by decide, hinner⟩,
      .of_all (by decide) rfl (by decide), trivial, trivial⟩
  have htext : (Value.object nested).display = text := by decide +kernel
  refine ⟨hdata, htext, ?_⟩
  rw [← htext]
  exact (run_display {} hdata).1

end Script

end ScopeScript
