import ScopeScript.Proofs.Fresh.Start
import ScopeScript.Proofs.Layout.Joining

/-!
# The parts of an expression are evaluated in order

The operands of an operation, the arguments and the callee of a call, the values of an object
literal and the value of an assignment are the *parts* of the expression: they are evaluated first,
in this order, and the expression is then made of their values (`expr_eq_combine`).

So a program can name the parts one after the other, and then write the expression with the names:

    let t1 = e1; …; let tn = en; e.withParts [t1, …, tn]

ends in the same way as `e`, prints the same and leaves the same bindings but for the new names.
Naming goes on while the parts are evaluated, in a scope that the functions of the program see.
They do not mention the new names, so each value stays as it is until it is used.
-/

namespace ScopeScript

/-! ## Parts -/

/-- A shorthand reads the variable of its name. -/
def Property.part : Property → Expr
  | shorthand key line => .name key line
  | field _ value _ => value

def Property.withPart (p : Property) (part : Expr) : Property := .field p.key part p.line

namespace Expr

/-- What is evaluated first, in order.  The callee of a call comes last. -/
def parts : Expr → List Expr
  | binary left _ right _ => [left, right]
  | call callee arguments _ => arguments ++ [callee]
  | object properties _ => properties.map (·.part)
  | assign (name _ _) value _ => [value]
  | _ => []

/-- The expression with other parts. -/
def withParts (e : Expr) (parts : List Expr) : Expr :=
  match e, parts with
  | binary _ op _ line, [left, right] => binary left op right line
  | call callee _ line, parts => call (parts.getLast?.getD callee) parts.dropLast line
  | object properties line, parts =>
    object ((properties.zip parts).map fun p => p.1.withPart p.2) line
  | assign target _ line, [value] => assign target value line
  | e, _ => e

theorem parts_withParts (e : Expr) {ps : List Expr} (h : ps.length = e.parts.length) :
    (e.withParts ps).parts = ps := by
  cases e with
  | binary left op right line =>
    obtain ⟨l, r, rfl⟩ := List.length_eq_two.1 h
    rfl
  | call callee arguments line =>
    have hne : ps ≠ [] := by
      rintro rfl
      simp [parts] at h
    simp only [withParts, parts, List.getLast?_eq_some_getLast hne, Option.getD_some]
    exact List.dropLast_append_getLast hne
  | object properties line =>
    have hlen : ps.length = properties.length := by simpa [parts] using h
    rw [withParts, parts, List.map_map]
    exact List.map_snd_zip (Nat.le_of_eq hlen)
  | assign target value line =>
    cases target with
    | name n l =>
      obtain ⟨v, rfl⟩ := List.length_eq_one_iff.1 h
      rfl
    | _ =>
      obtain rfl := List.length_eq_zero_iff.1 h
      rfl
  | _ =>
    obtain rfl := List.length_eq_zero_iff.1 h
    rfl

theorem allNames_append (es es' : List Expr) : allNames (es ++ es') = allNames es ++ allNames es' := by
  induction es with
  | nil => rfl
  | cons e es ih => simp [allNames, ih]

theorem names_parts_subset (e : Expr) : allNames e.parts ⊆ e.names := by
  cases e with
  | call callee arguments line =>
    simp [parts, allNames_append, allNames, names]
  | object properties line =>
    have hpart (p : Property) : p.part.names = p.names := by cases p <;> rfl
    have hall : allNames (properties.map (·.part)) = Property.allNames properties := by
      induction properties with
      | nil => rfl
      | cons p ps ih => simp [allNames, Property.allNames, ih, hpart]
    simp [parts, names, hall]
  | assign target value line => cases target <;> simp [parts, allNames, names]
  | _ => simp [parts, allNames, names]

end Expr

/-- Each name is declared with one of the expressions as its value. -/
def Program.naming (line : Nat) (names : List String) (parts : List Expr) : Program :=
  List.zipWith (fun name part => .declare name false (some part) line) names parts

/-- The parts by name, and then the expression with the names for its parts. -/
def Expr.named (e : Expr) (line : Nat) (names : List String) : Program :=
  Program.naming line names e.parts ++
    [.expr (e.withParts (names.map fun name => .name name line)) line]

namespace Eval

/-- What an expression makes of the values of its parts. -/
def combine (calls : Calls) (opts : Options) (scope : ScopeId) (e : Expr) (vs : List Value) :
    Eval Value :=
  match e, vs with
  | .binary _ op _ line, [l, r] => ofCause line (op.onValues opts l r)
  | .call _ _ line, vs => callValue calls opts scope (vs.getLast?.getD .null) vs.dropLast line
  | .object properties _, vs => return .object (.ofList ((properties.map (·.key)).zip vs))
  | .assign (.name name _) _ line, [v] => do
    assign scope name v line
    return v
  | e, _ => expr calls opts scope e

theorem exprs_append (calls : Calls) (opts : Options) (scope : ScopeId) (es es' : List Expr) :
    exprs calls opts scope (es ++ es') = (do
      let vs ← exprs calls opts scope es
      let vs' ← exprs calls opts scope es'
      return vs ++ vs') := by
  induction es with
  | nil => simp [exprs]
  | cons e es ih => simp [exprs, ih]

theorem fields_eq (calls : Calls) (opts : Options) (scope : ScopeId) (ps : List Property) :
    fields calls opts scope ps = (do
      let vs ← exprs calls opts scope (ps.map (·.part))
      return (ps.map (·.key)).zip vs) := by
  induction ps with
  | nil => rfl
  | cons p ps ih =>
    have hpart : field calls opts scope p = expr calls opts scope p.part := by
      cases p <;> simp [field, Property.part, expr]
    simp [fields, exprs, hpart, ih]

theorem expr_eq_combine (calls : Calls) (opts : Options) (scope : ScopeId) (e : Expr) :
    expr calls opts scope e =
      exprs calls opts scope e.parts >>= combine calls opts scope e := by
  cases e with
  | binary left op right line => simp [expr, exprs, Expr.parts, combine]
  | call callee arguments line => simp [expr, exprs, exprs_append, Expr.parts, combine]
  | object properties line =>
    simp only [expr, fields_eq, Expr.parts, bind_assoc, pure_bind]
    rfl
  | assign target value line =>
    cases target <;> simp [expr, exprs, Expr.parts, combine]
  | _ => simp [expr, exprs, Expr.parts, combine]

theorem combine_withParts (calls : Calls) (opts : Options) (scope : ScopeId) (e : Expr)
    {ps : List Expr} (h : ps.length = e.parts.length) {vs : List Value}
    (hvs : vs.length = e.parts.length) :
    combine calls opts scope (e.withParts ps) vs = combine calls opts scope e vs := by
  cases e with
  | binary left op right line =>
    obtain ⟨l, r, rfl⟩ := List.length_eq_two.1 h
    obtain ⟨v, u, rfl⟩ := List.length_eq_two.1 hvs
    rfl
  | call callee arguments line => rfl
  | object properties line =>
    have hlen : ps.length = properties.length := by simpa [Expr.parts] using h
    have hkeys : ((properties.zip ps).map fun p => p.1.withPart p.2).map (·.key) =
        properties.map (·.key) := by
      conv_rhs => rw [← List.map_fst_zip (Nat.le_of_eq hlen.symm), List.map_map]
      rw [List.map_map]
      rfl
    simp only [Expr.withParts, combine, hkeys]
  | assign target value line =>
    cases target with
    | name n l =>
      obtain ⟨p, rfl⟩ := List.length_eq_one_iff.1 h
      obtain ⟨v, rfl⟩ := List.length_eq_one_iff.1 hvs
      rfl
    | _ =>
      obtain rfl := List.length_eq_zero_iff.1 h
      rfl
  | _ =>
    obtain rfl := List.length_eq_zero_iff.1 h
    rfl

section

variable {w : Renaming} {fresh : List String} {start : Store} {c d : Calls} {opts : Options}
  {p p' : ScopeId}

theorem combine_follows (hc : CallsFollow w fresh start c d) (hp : Store.Place w start p p')
    (e : Expr) (he : e.names.Disjoint fresh) {vs vs' : List Value}
    (hvs : List.Forall₂ (Value.Alike w fresh) vs vs') (hlen : vs.length = e.parts.length) :
    FollowsValue w fresh start (combine c opts p e vs) (combine d opts p' e vs') := by
  cases e with
  | binary left op right line =>
    obtain ⟨l, r, rfl⟩ := List.length_eq_two.1 hlen
    obtain ⟨l', _, hl, hrest, rfl⟩ := List.forall₂_cons_left_iff.1 hvs
    obtain ⟨r', _, hr, hnil, rfl⟩ := List.forall₂_cons_left_iff.1 hrest
    cases hnil
    exact (hc.couples hp opts).operation (w := ()) hl hr
  | call callee arguments line =>
    have hcallee : (vs.getLast?.getD .null).Alike w fresh (vs'.getLast?.getD .null) := by
      clear hlen
      induction hvs with
      | nil => exact ⟨.null, trivial⟩
      | cons hv hvs ih =>
        cases hvs with
        | nil => exact hv
        | cons _ _ => rwa [List.getLast?_cons_cons, List.getLast?_cons_cons]
    have harguments : List.Forall₂ (Value.Alike w fresh) vs.dropLast vs'.dropLast := by
      rw [List.dropLast_eq_take, List.dropLast_eq_take, hvs.length_eq]
      exact List.forall₂_take _ hvs
    exact (hc.couples hp opts).callValue (w := ()) hcallee harguments
  | object properties line =>
    have hentries : Value.EntriesAlike w fresh ((properties.map (·.key)).zip vs)
        ((properties.map (·.key)).zip vs') := by
      clear hlen
      generalize properties.map (·.key) = keys
      induction hvs generalizing keys with
      | nil => simp
      | cons hv _ ih =>
        cases keys with
        | nil => exact .nil
        | cons k keys => exact .cons ⟨rfl, hv⟩ (ih keys)
    exact .pure hentries.ofList
  | assign target value line =>
    cases target with
    | name n l =>
      obtain ⟨v, rfl⟩ := List.length_eq_one_iff.1 hlen
      obtain ⟨v', _, hv, hnil, rfl⟩ := List.forall₂_cons_left_iff.1 hvs
      cases hnil
      have hn : n ∉ fresh := List.singleton_disjoint.1 (List.disjoint_append_left.1 he).1
      exact (assign_follows hp hn hv line).bind fun _ _ _ => .pure hv
    | _ => exact expr_follows hc hp _ he
  | _ => exact expr_follows hc hp _ he

/-! ## Naming the parts -/

/-- The names are variables of the scope `p`, with values like those. -/
def Named (w : Renaming) (fresh : List String) (s : Store) (p : ScopeId) (names : List String)
    (vs : List Value) : Prop :=
  List.Forall₂ (fun name v => ∃ u, (s.scope p).find? name = some ⟨name, u, false⟩ ∧ u.Alike w fresh v)
    names vs

/-- How naming the parts ends when their evaluation ends. -/
inductive NamingEnds (w : Renaming) (fresh : List String) (p : ScopeId) (names : List String)
    (before : Store) :
    EStateM.Result Halt Machine Value → EStateM.Result Halt Machine (List Value) → Prop
  | ok {v : Value} {vs : List Value} {n n' : Machine} (hn : n.Alike w fresh n.store n')
      (hp : p < n.store.scopes.size) (hnamed : Named w fresh n.store p names vs)
      (hkept : ∀ name, name ∈ fresh → name ∉ names →
        (n.store.scope p).find? name = (before.scope p).find? name) :
      NamingEnds w fresh p names before (.ok v n) (.ok vs n')
  | error (e : Halt) {n n' : Machine} (hn : n.Alike w fresh n.store n') :
      NamingEnds w fresh p names before (.error e n) (.error e n')

theorem naming_ends (hc : ∀ start, CallsFollow w fresh start c d) (hp : w.scope p p') (line : Nat)
    {names : List String} {parts : List Expr} (hlen : names.length = parts.length)
    (hnodup : names.Nodup) (hfresh : names ⊆ fresh) (hparts : (Expr.allNames parts).Disjoint fresh)
    {m m' : Machine} (hm : m.Alike w fresh m.store m') (hlt : p < m.store.scopes.size)
    (hunbound : ∀ name ∈ names, (m.store.scope p).find? name = none) (last : Value) :
    NamingEnds w fresh p names m.store
      (stmts c opts p last (Program.naming line names parts) m) (exprs d opts p' parts m') := by
  induction names generalizing parts m m' last with
  | nil =>
    obtain rfl := List.length_eq_zero_iff.1 hlen.symm
    exact .ok hm hlt .nil fun _ _ _ => rfl
  | cons name names ih =>
    cases parts with
    | nil => cases hlen
    | cons e parts =>
      obtain ⟨hname, hnodup⟩ := List.nodup_cons.1 hnodup
      obtain ⟨he, hparts⟩ := List.disjoint_append_left.1 hparts
      obtain ⟨hmem, hfresh⟩ := List.cons_subset.1 hfresh
      have hfirst : EndsAlike w fresh m.store (Value.Alike w fresh) (expr c opts p e m)
          (expr d opts p' e m') :=
        expr_follows (hc m.store) (.paired hp) e he m m' hm
      rw [Program.naming, List.zipWith_cons_cons, ← Program.naming]
      simp only [stmts, stmt, exprs, bind_assoc, pure_bind]
      rw [bind_apply, bind_apply]
      generalize expr c opts p e m = r at hfirst ⊢
      generalize expr d opts p' e m' = r' at hfirst ⊢
      cases hfirst with
      | error halt hn => exact .error halt hn.restart
      | @ok v v' n n' hn hv =>
        have hsize := Nat.lt_of_lt_of_le hlt hn.spares.size_le
        have hsame (other : String) (ho : other ∈ fresh) :
            (n.store.scope p).find? other = (m.store.scope p).find? other :=
          hn.spares.bindings p other hlt (.inl ho)
        obtain ⟨k, hk, halike, hksize, hself, hother⟩ := declare_fresh hn hsize hmem
          ((hsame name hmem).trans (hunbound name List.mem_cons_self)) v false line
        have hrest := ih (Nat.succ.inj hlen) hnodup hfresh hparts halike (hksize ▸ hsize)
          (fun other ho => by
            have hne : other ≠ name := fun e => hname (e ▸ ho)
            rw [hother other hne, hsame other (hfresh ho)]
            exact hunbound other (List.mem_cons_of_mem _ ho)) v
        dsimp only
        rw [bind_apply, hk, bind_apply]
        dsimp only
        generalize stmts c opts p v (Program.naming line names parts) k = r at hrest ⊢
        generalize exprs d opts p' parts n' = r' at hrest ⊢
        cases hrest with
        | error halt hn => exact .error halt hn
        | ok hn hp hnamed hkept =>
          refine .ok hn hp (.cons ⟨v, ?_, hv⟩ hnamed) fun other ho hnot => ?_
          · rw [hkept name hmem hname, hself]
          · rw [List.mem_cons, not_or] at hnot
            rw [hkept other ho hnot.2, hother other hnot.1, hsame other ho]

/-- Names of the scope itself are read there. -/
theorem exprs_named (c : Calls) (opts : Options) (line : Nat) {names : List String} {vs : List Value} {n : Machine}
    (h : Named w fresh n.store p names vs) :
    ∃ us, exprs c opts p (names.map fun name => .name name line) n = .ok us n ∧
      List.Forall₂ (Value.Alike w fresh) us vs := by
  induction h with
  | nil => exact ⟨[], rfl, .nil⟩
  | @cons name v names vs hname _ ih =>
    obtain ⟨u, hu, hv⟩ := hname
    obtain ⟨us, hus, halike⟩ := ih
    have hread : lookup p name line n = .ok u n := lookup_own hu line
    refine ⟨u :: us, ?_, .cons hv halike⟩
    rw [List.map_cons, exprs, bind_apply, expr, hread]
    dsimp only
    rw [bind_apply, hus]
    rfl

/-- The parts by name and then the expression made of the names do what the expression does. -/
theorem naming_endsAlike (hc : ∀ start, CallsFollow w fresh start c d) (hp : w.scope p p')
    (line : Nat) (e : Expr) (he : e.names.Disjoint fresh) {names : List String}
    (hlen : names.length = e.parts.length) (hnodup : names.Nodup) (hfresh : names ⊆ fresh)
    {m m' : Machine} (hm : m.Alike w fresh m.store m') (hlt : p < m.store.scopes.size)
    (hunbound : ∀ name ∈ names, (m.store.scope p).find? name = none) (last : Value) :
    ∃ start, EndsAlike w fresh start (Value.Alike w fresh)
      (stmts c opts p last (e.named line names) m) (expr d opts p' e m') := by
  have hparts : (Expr.allNames e.parts).Disjoint fresh :=
    List.disjoint_of_subset_left e.names_parts_subset he
  have hnaming : NamingEnds w fresh p names m.store
      (stmts c opts p last (Program.naming line names e.parts) m) (exprs d opts p' e.parts m') :=
    naming_ends hc hp line hlen hnodup hfresh hparts hm hlt hunbound last
  rw [Expr.named, stmts_append, expr_eq_combine d opts p' e, bind_apply, bind_apply]
  generalize stmts c opts p last (Program.naming line names e.parts) m = r at hnaming ⊢
  generalize exprs d opts p' e.parts m' = r' at hnaming ⊢
  cases hnaming with
  | error halt hn => exact ⟨_, .error halt hn⟩
  | @ok v vs n n' hn _ hnamed _ =>
    obtain ⟨us, hus, halike⟩ := exprs_named c opts line hnamed
    have hcount : us.length = e.parts.length :=
      halike.length_eq.trans (hnamed.length_eq.symm.trans hlen)
    have hnames : (names.map fun name => Expr.name name line).length = e.parts.length := by
      rw [List.length_map, hlen]
    have hleft : stmts c opts p v [.expr (e.withParts (names.map fun name => .name name line)) line] n =
        combine c opts p e us n := by
      simp only [stmts, stmt, bind_pure]
      rw [expr_eq_combine, e.parts_withParts hnames, bind_apply, hus]
      dsimp only
      rw [combine_withParts c opts p e hnames hcount]
    refine ⟨n.store, ?_⟩
    dsimp only
    rw [hleft]
    exact combine_follows (hc n.store) (.paired hp) e he halike hcount n n' hn

end

end Eval

/-- In a fresh global scope, naming the parts of an expression one after the other and then using
the names is the same as the expression: it ends in the same way, prints the same and leaves the
same bindings but for those of the names. -/
theorem Program.parts_in_order (depth : Nat) (options : Options) (program : Program) (e : Expr)
    (line : Nat) {names : List String} (hlen : names.length = e.parts.length)
    (hnodup : names.Nodup)
    (hfresh : ∀ name ∈ names,
      name ∉ Stmt.allNames program ∧ name ∉ e.names ∧ name ∉ builtinNames) :
    let run (last : Program) :=
      (Program.run { depth, options } (program ++ last) 0).finish Script.singleGlobal
    let named := run (e.named line names)
    let plain := run [.expr e line]
    named.1 = plain.1 ∧ named.2.output = plain.2.output ∧
      named.2.store.SameBut names plain.2.store := by
  intro run named plain
  have hprogram : (Stmt.allNames program).Disjoint names := fun x hx hn => (hfresh x hn).1 hx
  have he : e.names.Disjoint names := fun x hx hn => (hfresh x hn).2.1 hx
  have hc (start : Store) := Eval.callsWithin_follow .same names start .none depth
  have hbefore := Eval.stmts_alike_self depth options hprogram
  have hends : ∃ start, Eval.EndsAlike .same names start (Value.Alike .same names)
      (Program.run { depth, options } (program ++ e.named line names) 0 Script.singleGlobal)
      (Program.run { depth, options } (program ++ [.expr e line]) 0 Script.singleGlobal) := by
    simp only [Program.run, SettingIn.calls, Eval.stmts_append, Eval.bind_apply]
    cases hrun : Eval.stmts (callsWithin .none depth) options 0 .null program
        Script.singleGlobal with
    | error halt n =>
      rw [hrun] at hbefore
      exact ⟨_, hbefore⟩
    | ok v n =>
      rw [hrun] at hbefore
      cases hbefore with
      | ok hn hv =>
        have hunbound (name : String) (hname : name ∈ names) :=
          (hn.unbound hname (hfresh name hname).2.2).2
        simp only [Eval.stmts, Eval.stmt, bind_pure]
        exact Eval.naming_endsAlike hc rfl line e he hlen hnodup (List.Subset.refl names)
          hn.restart hn.spares.size_le hunbound v
  obtain ⟨start, hends⟩ := hends
  obtain ⟨houtcome, hmachine⟩ := hends.finish
  exact ⟨houtcome.eq, hmachine.output, hmachine.stores.sameBut⟩

/-- `print(x, x = "b")` prints the value that `x` had before the assignment and the one after it. -/
theorem Program.parts_in_order_print :
    let before : Program := [.declare "x" false (some (.string "a" 1)) 1]
    let e : Expr := .call (.name "print" 2)
      [.name "x" 2, .assign (.name "x" 2) (.string "b" 2) 2] 2
    let run (last : Program) :=
      (Program.run { depth := 2 } (before ++ last) 0).finish Script.singleGlobal
    let named := run (e.named 2 ["first", "second", "callee"])
    let plain := run [.expr e 2]
    named.2.output = #["a b"] ∧ named.1 = plain.1 ∧ named.2.output = plain.2.output ∧
      named.2.store.SameBut ["first", "second", "callee"] plain.2.store := by
  intro before e run named plain
  exact ⟨rfl, Program.parts_in_order 2 {} before e 2 rfl (by decide) (by decide)⟩

/-- A built-in name occurs neither in the program nor in the expression, but no part can be given
that name. -/
theorem Program.part_named_print :
    let e : Expr := .call (.name "type_of" 1) [.string "a" 1] 1
    let names := ["print", "callee"]
    let run (last : Program) := (Program.run {} last 0).finish Script.singleGlobal
    names.length = e.parts.length ∧ names.Nodup ∧ (∀ name ∈ names, name ∉ e.names) ∧
      (run (e.named 1 names)).1 = .failed (.fault ⟨.duplicateDeclaration "print", 1⟩) ∧
      (run [.expr e 1]).1 = .value (.string "string") ∧
      (run (e.named 1 names)).1 ≠ (run [.expr e 1]).1 := by
  intro e names run
  have hnamed : (run (e.named 1 names)).1 =
      .failed (.fault ⟨.duplicateDeclaration "print", 1⟩) := rfl
  have hplain : (run [.expr e 1]).1 = .value (.string "string") := rfl
  refine ⟨rfl, by decide, by decide, hnamed, hplain, ?_⟩
  rw [hnamed, hplain]
  exact nofun

end ScopeScript
