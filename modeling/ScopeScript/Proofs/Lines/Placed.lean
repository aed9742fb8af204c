import ScopeScript.Machine
import ScopeScript.Proofs.Grammar.Exact

/-!
# Trees on lines

`e.Placed on` says that every node of `e` stands on a line as `on` says, and that only a name follows
a dot.  The grammar builds no other trees: their lines are those of the tokens.

    ofTokens_placed   a program stands on the lines of its tokens

The predicate goes on to the values of a running program, whose functions keep their bodies.
-/

namespace ScopeScript

/-! ## Trees -/

inductive Expr.Placed (on : Nat → Prop) : Expr → Prop
  | number {x : Float} {line : Nat} (h : on line) : Expr.Placed on (.number x line)
  | string {s : String} {line : Nat} (h : on line) : Expr.Placed on (.string s line)
  | name {name : String} {line : Nat} (h : on line) : Expr.Placed on (.name name line)
  | binary {left right : Expr} {op : BinaryOp} {line : Nat} (hl : left.Placed on)
      (hr : right.Placed on) (h : on line) : Expr.Placed on (.binary left op right line)
  | assign {target value : Expr} {line : Nat} (ht : target.Placed on) (hv : value.Placed on)
      (h : on line) : Expr.Placed on (.assign target value line)
  | call {callee : Expr} {arguments : List Expr} {line : Nat} (hf : callee.Placed on)
      (ha : ∀ e ∈ arguments, e.Placed on) (h : on line) :
      Expr.Placed on (.call callee arguments line)
  | dot {object : Expr} {name : String} {nameLine line : Nat} (ho : object.Placed on)
      (hn : on nameLine) (h : on line) : Expr.Placed on (.dot object (.name name nameLine) line)
  | index {object key : Expr} {line : Nat} (ho : object.Placed on) (hk : key.Placed on)
      (h : on line) : Expr.Placed on (.index object key line)
  | object {properties : List Property} {line : Nat} (hl : ∀ p ∈ properties, on p.line)
      (hv : ∀ p ∈ properties, ∀ e, p.value? = some e → e.Placed on) (h : on line) :
      Expr.Placed on (.object properties line)

inductive Stmt.Placed (on : Nat → Prop) : Stmt → Prop
  | declare {name : String} {constant : Bool} {value : Option Expr} {line : Nat}
      (hv : ∀ e, value = some e → e.Placed on) (h : on line) :
      Stmt.Placed on (.declare name constant value line)
  | function {name : String} {params : List String} {body : List Stmt} {line : Nat}
      (hb : ∀ s ∈ body, s.Placed on) (h : on line) :
      Stmt.Placed on (.function name params body line)
  | expr {e : Expr} {line : Nat} (he : e.Placed on) (h : on line) : Stmt.Placed on (.expr e line)

/-! ## Phrases -/

namespace Grammar

open ScopeScript.Parser (next)

/-- A property of an object literal stands on its line, and so does its value. -/
def PropertyPlaced (on : Nat → Prop) (p : Property) : Prop :=
  on p.line ∧ ∀ e, p.value? = some e → e.Placed on

def Phrase.Placed (on : Nat → Prop) : Phrase → Prop
  | .expr _ e => e.Placed on
  | .arguments es => ∀ e ∈ es, e.Placed on
  | .property p => PropertyPlaced on p
  | .properties ps => ∀ p ∈ ps, PropertyPlaced on p

variable {on : Nat → Prop} {ts rest : List Token}

theorem forall_of_suffix {mid : List Token} (h : mid <:+ ts) (hts : ∀ t ∈ ts, on t.line) :
    ∀ t ∈ mid, on t.line := fun t ht => hts t (h.subset ht)

theorem Spells.placed {phrase : Phrase} (h : Spells ts phrase rest)
    (hts : ∀ t ∈ ts, on t.line) : phrase.Placed on := by
  induction h with
  | name _ => exact .name (hts _ List.mem_cons_self)
  | number _ _ => exact .number (hts _ List.mem_cons_self)
  | string _ => exact .string (hts _ List.mem_cons_self)
  | group _ _ _ ih => exact ih (List.forall_mem_cons.1 hts).2
  | primary _ ih | operand _ ih | product _ ih | sum _ ih | objectLevel _ ih => exact ih hts
  | dot he _ _ ih =>
    have hmid := List.forall_mem_cons.1 (forall_of_suffix he.suffix hts)
    exact .dot (ih hts) (hmid.2 _ List.mem_cons_self) hmid.1
  | index he _ _ _ ihe ihk =>
    have hmid := List.forall_mem_cons.1 (forall_of_suffix he.suffix hts)
    exact .index (ihe hts) (ihk hmid.2) hmid.1
  | call hf _ _ _ ihf iha =>
    have hmid := List.forall_mem_cons.1 (forall_of_suffix hf.suffix hts)
    exact .call (ihf hts) (iha hmid.2) hmid.1
  | times hl _ _ _ _ ihl ihr | plus hl _ _ _ _ ihl ihr =>
    have hmid := List.forall_mem_cons.1 (forall_of_suffix hl.suffix hts)
    exact .binary (ihl hts) (ihr hmid.2) hmid.1
  | object _ _ _ ih =>
    have hps := ih (List.forall_mem_cons.1 hts).2
    exact .object (fun p hp => (hps p hp).1) (fun p hp => (hps p hp).2) (hts _ List.mem_cons_self)
  | assign hl _ _ ihl ihr =>
    have hmid := List.forall_mem_cons.1 (forall_of_suffix hl.suffix hts)
    exact .assign (ihl hts) (ihr hmid.2) hmid.1
  | noArguments | noProperties => exact nofun
  | lastArgument _ ih | lastProperty _ ih => exact List.forall_mem_singleton.2 (ih hts)
  | argument he _ _ ihe ihes =>
    have hmid := List.forall_mem_cons.1 (forall_of_suffix he.suffix hts)
    exact List.forall_mem_cons.2 ⟨ihe hts, ihes hmid.2⟩
  | shorthand _ => exact ⟨hts _ List.mem_cons_self, nofun⟩
  | field _ _ _ ih =>
    refine ⟨hts _ List.mem_cons_self, ?_⟩
    rintro _ ⟨⟩
    exact ih (List.forall_mem_cons.1 (List.forall_mem_cons.1 hts).2).2
  | propertyThen hp _ _ ihp ihps =>
    have hmid := List.forall_mem_cons.1 (forall_of_suffix hp.suffix hts)
    exact List.forall_mem_cons.2 ⟨ihp hts, ihps hmid.2⟩

/-! ## Programs -/

/-- An expression has a token, so a statement has a line. -/
theorem Spells.next_mem {level : Level} {e : Expr} (h : Spells ts (.expr level e) rest) :
    next ts ∈ ts := by
  cases ts with
  | nil => exact absurd h.length_lt (Nat.not_lt_zero _)
  | cons t ts => exact List.mem_cons_self

mutual

theorem Statement.placed {greedy : Bool} {ts rest : List Token} {s : Stmt}
    (h : Statement greedy ts s rest) (hts : ∀ t ∈ ts, on t.line) : s.Placed on := by
  match h with
  | .declare _ _ => exact .declare nofun (hts _ List.mem_cons_self)
  | .declareAs _ _ _ he _ =>
    refine .declare ?_ (hts _ List.mem_cons_self)
    rintro _ ⟨⟩
    exact he.placed (forall_of_suffix (List.suffix_append [_, _, _] _) hts)
  | .function _ _ _ hp _ _ hb _ =>
    have hmid :=
      forall_of_suffix (hp.detached.suffix.trans (List.suffix_append [_, _, _] _)) hts
    exact .function (hb.placed (forall_of_suffix (List.suffix_append [_, _] _) hmid))
      (hts _ List.mem_cons_self)
  | .expr he _ => exact .expr (he.placed hts) (hts _ he.next_mem)

theorem Statements.placed {greedy : Bool} {ts rest : List Token} {ss : List Stmt}
    (h : Statements greedy ts ss rest) (hts : ∀ t ∈ ts, on t.line) : ∀ s ∈ ss, s.Placed on := by
  match h with
  | .nil => exact nofun
  | .semicolon _ h => exact h.placed (List.forall_mem_cons.1 hts).2
  | .cons hs hss =>
    exact List.forall_mem_cons.2
      ⟨hs.placed hts, hss.placed (forall_of_suffix hs.detached.suffix hts)⟩

end

theorem ofTokens_placed {p : Program} (h : Program.ofTokens ts = .ok p)
    (hts : ∀ t ∈ ts, on t.line) : ∀ s ∈ p, s.Placed on := by
  have hspelled := (ofTokens_eq_ok_iff_spelled ts p).1 h
  exact hspelled.placed fun t ht => hts t (List.takeWhile_subset _ ht)

end Grammar

/-! ## Values -/

/-- The bodies of all functions in a value are placed.  Native functions are those that every global
scope has. -/
inductive Value.Placed (on : Nat → Prop) : Value → Prop
  | null : Value.Placed on .null
  | number (x : Float) : Value.Placed on (.number x)
  | boolean (b : Bool) : Value.Placed on (.boolean b)
  | string (s : String) : Value.Placed on (.string s)
  | object {o : Record Value} (h : ∀ e ∈ o.entries, e.2.Placed on) : Value.Placed on (.object o)
  | function {f : Closure} (h : ∀ s ∈ f.body, s.Placed on) : Value.Placed on (.function f)
  | native {n : Native} (h : ∀ key, n.op ≠ .hosted key) : Value.Placed on (.native n)

namespace Value.Placed

variable {on : Nat → Prop}

theorem ofList {pairs : List (String × Value)} (h : ∀ p ∈ pairs, p.2.Placed on) :
    (Value.object (.ofList pairs)).Placed on := by
  refine .object fun e he => ?_
  obtain ⟨p, hp, heq⟩ := Record.exists_mem_of_mem_ofList he
  exact heq ▸ h p hp

/-- A property that is missing reads as null. -/
theorem get {o : Record Value} (h : ∀ e ∈ o.entries, e.2.Placed on) (key : String) :
    ((o.get? key).getD .null).Placed on := by
  cases hv : o.get? key with
  | none => exact .null
  | some v =>
    obtain ⟨e, he, rfl⟩ := Record.exists_mem_of_get? hv
    exact h e he

end Value.Placed

/-- All bindings of all scopes have such values. -/
def Machine.Placed (on : Nat → Prop) (m : Machine) : Prop :=
  ∀ i, ∀ b ∈ (m.store.scope i).bindings, b.value.Placed on

end ScopeScript
