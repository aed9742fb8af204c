import ScopeScript.Proofs.Grammar.Exact
import ScopeScript.Proofs.Run
import ScopeScript.Proofs.Store.Writes

/-!
# Chains of assignments

A chain `x₁ = … = xₙ = e` groups to the right: `e` is evaluated, and its value is assigned to the
targets from the last to the first.  An assignment changes no scope's names and marks, so which
targets will be refused, and why, can be read off from the store that `e` left (`Store.refusal?`).
The last one of these ends the chain; those after it have the value already (`Store.setAll`).

Main result: `chain_assigns`.
-/

namespace ScopeScript

/-! ## Chains -/

/-- A target and the line of the `=` that follows it. -/
structure Link where
  target : Expr
  line : Nat

/-- The name that an expression is, if it is one. -/
def Expr.name? : Expr → Option String
  | .name n _ => some n
  | _ => none

/-- The assignments of a value to targets, one inside the other. -/
def Expr.chain (links : List Link) (value : Expr) : Expr :=
  links.foldr (fun l e => .assign l.target e l.line) value

theorem Expr.chain_append (left right : List Link) (value : Expr) :
    Expr.chain (left ++ right) value = .chain left (.chain right value) :=
  List.foldr_append

/-- The names among the targets. -/
def Link.names (links : List Link) : List String := links.filterMap (·.target.name?)

theorem Link.names_cons (l : Link) (links : List Link) :
    Link.names (l :: links) = l.target.name?.toList ++ Link.names links := by
  cases h : l.target.name? <;> simp [Link.names, h]

namespace Grammar

open ScopeScript.Parser (next)

/-- Targets with a `=` after each, and a value that is no assignment. -/
inductive SpellsChain : List Token → List Link → Expr → List Token → Prop
  | value {ts rest : List Token} {e : Expr} (he : Spells ts (.expr .objectLevel e) rest) :
      SpellsChain ts [] e rest
  | link {t : Token} {ts mid rest : List Token} {x e : Expr} {links : List Link}
      (hx : Spells ts (.expr .objectLevel x) (t :: mid)) (ht : t.kind = .equals)
      (hlinks : SpellsChain mid links e rest) : SpellsChain ts (⟨x, t.line⟩ :: links) e rest

variable {ts rest : List Token} {links : List Link} {e : Expr}

theorem SpellsChain.spells (h : SpellsChain ts links e rest) :
    Spells ts (.expr .expression (.chain links e)) rest := by
  induction h with
  | value he => exact .objectLevel he
  | link hx ht _ ih => exact .assign hx ht ih

/-- A chain up to the end of a text is a program. -/
theorem SpellsChain.ofTokens_eq (h : SpellsChain ts links e rest)
    (hend : (next rest).kind = .eof) :
    Program.ofTokens ts = .ok [.expr (.chain links e) (next ts).line] := by
  have hwhole : ¬ TearsCall ts rest := by
    rintro ⟨-, hcall⟩
    rw [hend] at hcall
    cases hcall
  refine ofTokens_eq_ok_iff.2 ⟨rest, program_complete ?_ hend⟩
  exact .cons (.expr h.spells fun _ => hwhole) .nil

end Grammar

/-! ## Stores -/

/-- Sets the values of the names that `p` holds of. -/
def Scope.setWhere (a : Scope) (p : String → Bool) (v : Value) : Scope :=
  { a with bindings := a.bindings.map fun b => if p b.name then { b with value := v } else b }

namespace Scope

variable (a : Scope) (p : String → Bool) (v : Value)

theorem find?_setWhere (name : String) : (a.setWhere p v).find? name =
    (a.find? name).map fun b => if p name then { b with value := v } else b := by
  unfold setWhere
  rw [find?_map_bindings a (fun b => by split <;> rfl)]
  refine Option.map_congr fun b hb => ?_
  have hb' := List.find?_some hb
  rw [← eq_of_beq hb']

theorem binds_setWhere (name : String) : (a.setWhere p v).binds name = a.binds name := by
  rw [Bool.eq_iff_iff, binds_iff_find?, binds_iff_find?, find?_setWhere, Option.isSome_map]

theorem setWhere_of_false (h : ∀ name, p name = false) : a.setWhere p v = a := by
  simp [setWhere, h]

theorem replace_setWhere (name : String) :
    (a.setWhere p v).replace name v = a.setWhere (fun n => n == name || p n) v := by
  simp only [replace, setWhere, List.map_map, Scope.mk.injEq, true_and]
  refine List.map_congr_left fun b _ => ?_
  obtain ⟨n, w, constant⟩ := b
  by_cases hp : p n = true <;> simp [hp]

end Scope

namespace Store

/-- The bindings that some names refer to in the scope `i` have the value `v`; all else is as in
`s`. -/
def setAll (s : Store) (i : ScopeId) (names : List String) (v : Value) : Store :=
  { s with scopes := s.scopes.mapIdx fun j a =>
      a.setWhere (fun name => names.contains name && s.owner? i name == some j) v }

/-- Why an expression cannot be assigned to in the scope `i`, if it cannot. -/
def refusal? (s : Store) (i : ScopeId) : Expr → Option FaultCause
  | .name name _ =>
    match s.resolve? i name with
    | none => some (.undeclared name)
    | some b => if b.constant then some (.constantAssignment name) else none
  | _ => some .invalidTarget

variable (s : Store) (i : ScopeId) (names : List String) (v : Value)

theorem scope_setAll (j : ScopeId) : (s.setAll i names v).scope j =
    (s.scope j).setWhere (fun name => names.contains name && s.owner? i name == some j) v := by
  by_cases h : j < s.scopes.size <;> simp [scope, setAll, h, Scope.setWhere]

theorem owner?_setAll (k : ScopeId) (name : String) :
    (s.setAll i names v).owner? k name = s.owner? k name := by
  have hchain : (s.setAll i names v).chain k = s.chain k := by
    rw [chain, scope_setAll]
    rfl
  have hown (j : ScopeId) : (s.setAll i names v).hasOwn j name = s.hasOwn j name := by
    rw [hasOwn, scope_setAll, Scope.binds_setWhere]
    rfl
  simp only [owner?, hchain, hown]

/-- What a name reads. -/
theorem lookup_setAll (name : String) : (s.setAll i names v).lookup i name =
    if name ∈ names then (s.lookup i name).map fun _ => v else s.lookup i name := by
  have hresolve : (s.setAll i names v).resolve? i name =
      (s.resolve? i name).map fun b => if name ∈ names then { b with value := v } else b := by
    unfold resolve?
    rw [owner?_setAll]
    cases howner : s.owner? i name with
    | none => rfl
    | some j =>
      rw [Option.bind_some, Option.bind_some, scope_setAll, Scope.find?_setWhere, howner]
      simp
  unfold lookup
  rw [hresolve]
  cases s.resolve? i name with
  | none => simp [Except.map]
  | some b =>
    dsimp only [Option.map_some]
    split <;> rfl

theorem setAll_nil : s.setAll i [] v = s := by
  have hscopes : s.scopes.mapIdx (fun _ a => a) = s.scopes := Array.ext (by simp) (by simp)
  simp [setAll, Scope.setWhere_of_false, hscopes]

variable {s i} {j : ScopeId} {name : String}

theorem modifyScope_setAll (h : s.owner? i name = some j) :
    (s.setAll i names v).modifyScope j (·.replace name v) = s.setAll i (name :: names) v := by
  simp only [modifyScope, setAll, Store.mk.injEq, and_true]
  refine Array.ext (by simp) fun k _ _ => ?_
  rw [Array.getElem_modify, Array.getElem_mapIdx, Array.getElem_mapIdx]
  -- only the owner of the name is changed
  have hnames (n : String) : (List.contains (name :: names) n && s.owner? i n == some k) =
      (n == name && j == k || names.contains n && s.owner? i n == some k) := by
    by_cases hn : n = name <;> simp [hn, h]
  simp only [hnames]
  split
  · next hk =>
    rw [Scope.replace_setWhere]
    simp [hk]
  · next hk => simp [beq_false_of_ne hk]

/-- One assignment more. -/
theorem assign_setAll (s : Store) (i : ScopeId) (name : String) :
    (s.setAll i names v).assign i name v =
      match s.resolve? i name with
      | none => .error .undeclared
      | some b =>
        if b.constant then .error .constantAssignment else .ok (s.setAll i (name :: names) v) := by
  unfold assign resolve?
  rw [owner?_setAll]
  cases howner : s.owner? i name with
  | none => rfl
  | some j =>
    obtain ⟨b, hb⟩ : ∃ b, (s.scope j).find? name = some b := by
      have hfound : (s.chain i).find? (s.hasOwn · name) = some j := howner
      have hown := List.find?_some hfound
      exact Option.isSome_iff_exists.1 ((Scope.binds_iff_find? _ _).1 hown)
    have hmark : (((s.setAll i names v).scope j).find? name).any (·.constant) = b.constant := by
      rw [scope_setAll, Scope.find?_setWhere, hb, Option.map_some, Option.any_some]
      split <;> rfl
    rw [Option.bind_some, hb]
    dsimp only
    rw [hmark, modifyScope_setAll names v howner]

end Store

/-- Sets names of the store. -/
def Machine.setAll (m : Machine) (scope : ScopeId) (names : List String) (v : Value) : Machine :=
  { m with store := m.store.setAll scope names v }

/-! ## Evaluation -/

namespace Eval

open ScopeScript.Parser (next)
open Grammar (SpellsChain Stops)

variable {calls : Calls} {opts : Options} {scope : ScopeId} {x value e : Expr} {line : Nat}
  {links left right : List Link} {v : Value} {halt : Halt} {m m₁ : Machine}

theorem assign_of_error (h : expr calls opts scope value m = .error halt m₁) :
    expr calls opts scope (.assign x value line) m = .error halt m₁ := by
  unfold expr
  rw [bind_apply, h]

/-- A target gets the value after others, or is refused. -/
theorem assign_of_ok {names : List String}
    (h : expr calls opts scope value m = .ok v (m₁.setAll scope names v)) :
    expr calls opts scope (.assign x value line) m =
      match m₁.store.refusal? scope x with
      | some cause => .error (.fault ⟨cause, line⟩) (m₁.setAll scope names v)
      | none => .ok v (m₁.setAll scope (x.name?.toList ++ names) v) := by
  unfold expr
  rw [bind_apply, h]
  cases x with
  | name name l =>
    dsimp only
    rw [bind_apply, assign_apply]
    dsimp only [Machine.setAll]
    rw [Store.assign_setAll]
    unfold Store.refusal?
    dsimp only
    cases m₁.store.resolve? scope name with
    | none => rfl
    | some b =>
      dsimp only
      cases b.constant <;> rfl
  | _ => rfl

/-- Of a target only the name matters. -/
theorem expr_assign_eq (x value : Expr) (line : Nat) :
    expr calls opts scope (.assign x value line) = (do
      let v ← expr calls opts scope value
      match x.name? with
      | some name =>
        assign scope name v line
        return v
      | none => fault .invalidTarget line) := by
  cases x <;> rfl

/-! ## Chains -/

theorem chain_of_error (h : expr calls opts scope e m = .error halt m₁) :
    expr calls opts scope (.chain links e) m = .error halt m₁ := by
  induction links with
  | nil => exact h
  | cons l links ih => exact assign_of_error ih

theorem chain_of_accepted (h : expr calls opts scope e m = .ok v m₁)
    (hlinks : ∀ l ∈ links, m₁.store.refusal? scope l.target = none) :
    expr calls opts scope (.chain links e) m =
      .ok v (m₁.setAll scope (Link.names links) v) := by
  induction links with
  | nil =>
    have hnone : m₁.setAll scope [] v = m₁ := by rw [Machine.setAll, Store.setAll_nil]
    show expr calls opts scope e m = .ok v (m₁.setAll scope [] v)
    rw [hnone, h]
  | cons l links ih =>
    have hrest := ih fun l' hl' => hlinks l' (List.mem_cons_of_mem l hl')
    show expr calls opts scope (.assign l.target (.chain links e) l.line) m = _
    rw [assign_of_ok hrest, hlinks l List.mem_cons_self, Link.names_cons]

theorem chain_of_refused (h : expr calls opts scope e m = .ok v m₁)
    (hright : ∀ r ∈ right, m₁.store.refusal? scope r.target = none) {l : Link}
    {cause : FaultCause} (hl : m₁.store.refusal? scope l.target = some cause) :
    expr calls opts scope (.chain (left ++ l :: right) e) m =
      .error (.fault ⟨cause, l.line⟩) (m₁.setAll scope (Link.names right) v) := by
  rw [Expr.chain_append]
  refine chain_of_error ?_
  show expr calls opts scope (.assign l.target (.chain right e) l.line) m = _
  rw [assign_of_ok (chain_of_accepted h hright), hl]

theorem chain_congr {links' : List Link}
    (h : links.map (fun l => (l.target.name?, l.line)) =
      links'.map fun l => (l.target.name?, l.line)) :
    expr calls opts scope (.chain links e) = expr calls opts scope (.chain links' e) := by
  induction links generalizing links' with
  | nil =>
    obtain rfl := List.map_eq_nil_iff.1 h.symm
    rfl
  | cons l links ih =>
    cases links' with
    | nil => cases h
    | cons l' links' =>
      obtain ⟨hhead, htail⟩ := List.cons.inj h
      obtain ⟨hname, hline⟩ := Prod.mk.inj hhead
      show expr calls opts scope (.assign l.target (.chain links e) l.line) =
        expr calls opts scope (.assign l'.target (.chain links' e) l'.line)
      rw [expr_assign_eq, expr_assign_eq, ih htail, hname, hline]

/-- The tokens of a chain are read as assignments one inside the other.  Its value is evaluated
first, and if that fails the chain does.  Otherwise the targets get the value from the last to the
first, up to one that is refused on the line of its `=`.  Targets that are no names make no
difference. -/
theorem chain_assigns :
    (∀ (ts : List Token) (links : List Link) (e : Expr) (rest : List Token),
      SpellsChain ts links e rest →
        (Stops ts rest → (next rest).kind ≠ .equals →
          Parser.expression ts = .ok (.chain links e) rest) ∧
        ((next rest).kind = .eof →
          Program.ofTokens ts = .ok [.expr (.chain links e) (next ts).line])) ∧
    (∀ (s : Store) (i : ScopeId) (names : List String) (v : Value) (name : String),
      (s.setAll i names v).lookup i name =
        if name ∈ names then (s.lookup i name).map fun _ => v else s.lookup i name) ∧
    ∀ (calls : Calls) (opts : Options) (scope : ScopeId) (links : List Link) (e : Expr),
      (∀ links' : List Link,
        links.map (fun l => (l.target.name?, l.line)) =
          links'.map (fun l => (l.target.name?, l.line)) →
        expr calls opts scope (.chain links e) = expr calls opts scope (.chain links' e)) ∧
      ∀ m m₁ : Machine,
        (∀ halt : Halt, expr calls opts scope e m = .error halt m₁ →
          expr calls opts scope (.chain links e) m = .error halt m₁) ∧
        ∀ v : Value, expr calls opts scope e m = .ok v m₁ →
          ((∀ l ∈ links, m₁.store.refusal? scope l.target = none) →
            expr calls opts scope (.chain links e) m =
              .ok v (m₁.setAll scope (Link.names links) v)) ∧
          ∀ (left : List Link) (l : Link) (right : List Link) (cause : FaultCause),
            links = left ++ l :: right →
            m₁.store.refusal? scope l.target = some cause →
            (∀ r ∈ right, m₁.store.refusal? scope r.target = none) →
              expr calls opts scope (.chain links e) m =
                .error (.fault ⟨cause, l.line⟩) (m₁.setAll scope (Link.names right) v) := by
  refine ⟨fun ts links e rest h => ⟨Grammar.expression_complete h.spells, h.ofTokens_eq⟩,
    Store.lookup_setAll, fun calls opts scope links e => ⟨fun links' => chain_congr,
      fun m m₁ => ⟨fun halt => chain_of_error, fun v hv => ⟨chain_of_accepted hv, ?_⟩⟩⟩⟩
  rintro left l right cause rfl hl hright
  exact chain_of_refused hv hright hl

/-- The constant `c` is refused when `x` has been assigned, and a call to the left of `=` is not
made. -/
theorem chain_assigns_constant :
    let ts : List Token := [⟨.identifier, "c", 1⟩, ⟨.equals, "=", 2⟩, ⟨.identifier, "x", 3⟩,
      ⟨.equals, "=", 4⟩, ⟨.string, "new", 5⟩, .endAt 6]
    let x : Link := ⟨.name "x" 3, 4⟩
    let c : Link := ⟨.name "c" 1, 2⟩
    let call : Link := ⟨.call (.name "f" 1) [] 1, 2⟩
    let value : Expr := .string "new" 5
    let run := expr (callsWithin Host.none 0) {} 0
    let scopeOf (v : Value) : Scope := { bindings := [⟨"x", v, false⟩, ⟨"c", .null, true⟩] }
    let before : Machine := { store := { scopes := #[scopeOf .null] } }
    let after : Machine := { store := { scopes := #[scopeOf (.string "new")] } }
    SpellsChain ts [c, x] value [.endAt 6] ∧
      Parser.expression ts = .ok (.chain [c, x] value) [.endAt 6] ∧
      Program.ofTokens ts = .ok [.expr (.chain [c, x] value) 1] ∧
      run (.chain [call, x] value) = run (.chain [⟨.string "f()" 1, 2⟩, x] value) ∧
      run value before = .ok (.string "new") before ∧
      run (.chain [x] value) before = .ok (.string "new") after ∧
      run (.chain [c, x] value) before = .error (.fault ⟨.constantAssignment "c", 2⟩) after ∧
      run (.name "y" 5) before = .error (.fault ⟨.undeclared "y", 5⟩) before ∧
      run (.chain [x] (.name "y" 5)) before = .error (.fault ⟨.undeclared "y", 5⟩) before := by
  intro ts x c call value run scopeOf before after
  have hts : SpellsChain ts [c, x] value [.endAt 6] :=
    .link (.sum (.product (.operand (.primary (.name rfl))))) rfl
      (.link (.sum (.product (.operand (.primary (.name rfl))))) rfl
        (.value (.sum (.product (.operand (.primary (.string rfl)))))))
  have hvalue : run value before = .ok (.string "new") before := rfl
  have hmissing : run (.name "y" 5) before = .error (.fault ⟨.undeclared "y", 5⟩) before := rfl
  have hx : before.store.refusal? 0 x.target = none := rfl
  have hc : before.store.refusal? 0 c.target = some (.constantAssignment "c") := rfl
  obtain ⟨hparse, -, heval⟩ := chain_assigns
  have hchain (links : List Link) (e : Expr) := heval (callsWithin Host.none 0) {} 0 links e
  obtain ⟨hassigned, -⟩ := ((hchain [x] value).2 before before).2 _ hvalue
  obtain ⟨-, hrefused⟩ := ((hchain [c, x] value).2 before before).2 _ hvalue
  have hstops : Stops ts [.endAt 6] := ⟨rfl, fun htears => nomatch htears.2⟩
  exact ⟨hts, (hparse _ _ _ _ hts).1 hstops (by decide), (hparse _ _ _ _ hts).2 rfl,
    (hchain [call, x] value).1 _ rfl, hvalue, hassigned (by simpa using hx),
    hrefused [] c [x] _ rfl hc (by simpa using hx), hmissing,
    ((hchain [x] _).2 before before).1 _ hmissing⟩

end Eval

end ScopeScript
