import ScopeScript.Session

/-!
# A ledger of the bindings

What an embedding program can see of scopes is a table of entries by scope and name, each a value
with a mark, and a parent for every scope.  `Ledger.step` says what an operation answers and how it
changes the table.  The *owner* of a name is the first scope with an entry for it, going from parent
to parent.

    declare h n v    fails if the scope itself has the entry
    assign h n v     fails without an owner, or if the owner's entry is marked
    lookup h n       answers the owner's value

`step_lawful` states what one operation answers and which lookups it changes.
-/

namespace ScopeScript.Session

/-! ## Operations -/

/-- What an embedding program does with the scopes that it holds, which it names by handles. -/
inductive Op where
  | new
  | bareGlobal
  | child (handle : Nat)
  | parent (handle : Nat)
  | declare (handle : Nat) (name : String) (value : Value) (constant : Bool)
  | assign (handle : Nat) (name : String) (value : Value)
  | defineNative (handle : Nat) (name key : String)
  | clear (handle : Nat)
  | lookup (handle : Nat) (name : String)
  | hasOwn (handle : Nat) (name : String)

inductive Answer where
  /-- A handle, if there is a scope for it. -/
  | handle (made : Option Handle)
  | done (result : Except ScopeError Unit)
  | value (result : Except ScopeError Value)
  | owned (result : Bool)

namespace Op

def perform {σ : Type} [HasScopes σ] : Op → EvalIn σ Answer
  | new => return .handle (← newRoot)
  | bareGlobal => return .handle (← newBareGlobal)
  | child h => return .handle (← newChild h)
  | parent h => return .handle (← Session.parent h)
  | declare h name value constant => return .done (← Session.declare h name value constant)
  | assign h name value => return .done (← Session.assign h name value)
  | defineNative h name key => return .done (← Session.defineNative h name key)
  | clear h => do
    Session.clear h
    return .done (.ok ())
  | lookup h name => return .value (← Session.lookup h name)
  | hasOwn h name => return .owned (← Session.hasOwn h name)

/-- The handle that an operation is made on. -/
def handle? : Op → Option Nat
  | new | bareGlobal => none
  | child h | parent h | clear h => some h
  | declare h _ _ _ | assign h _ _ | defineNative h _ _ | lookup h _ | hasOwn h _ => some h

/-- The handle on which a name is declared, and the binding.  A native function has the identity
`made`. -/
def declares? (made : Identity) : Op → Option (Nat × Binding)
  | declare h name value constant => some (h, ⟨name, value, constant⟩)
  | defineNative h name key => some (h, ⟨name, .native ⟨made, name, .hosted key⟩, true⟩)
  | _ => none

/-- How many identities an operation uses up. -/
def issues : Op → Nat
  | defineNative _ _ _ => 1
  | _ => 0

end Op

def Answer.error? : Answer → Option ScopeError
  | done (.error e) | value (.error e) => some e
  | _ => none

/-! ## The ledger -/

structure Ledger where
  /-- The parent of every scope, latest scope first. -/
  links : List (Option ScopeId) := []
  /-- The scope of every handle, first handle first. -/
  held : List ScopeId := []
  /-- The value of a name in a scope, and whether it is constant. -/
  entry : ScopeId → String → Option (Value × Bool) := fun _ _ => none

namespace Ledger

variable (l : Ledger)

/-- The parent of the scope `i`, which has as many scopes made before it. -/
def parentIn : List (Option ScopeId) → ScopeId → Option ScopeId
  | [], _ => none
  | link :: links, i => if i = links.length then link else parentIn links i

/-- A parent is made before its child, so its chain is found among the links before. -/
def chainIn : List (Option ScopeId) → ScopeId → List ScopeId
  | [], _ => []
  | link :: links, i =>
    if i = links.length then i :: link.elim [] (chainIn links) else chainIn links i

def parent? (i : ScopeId) : Option ScopeId := parentIn l.links i

def chain (i : ScopeId) : List ScopeId := chainIn l.links i

/-- The first scope of the chain that has an entry for `name`. -/
def owner? (i : ScopeId) (name : String) : Option ScopeId :=
  (l.chain i).find? fun j => (l.entry j name).isSome

def scopeOf (h : Nat) : ScopeId := l.held.getD h 0

def lookup (h : Nat) (name : String) : Except ScopeError Value :=
  match (l.owner? (l.scopeOf h) name).bind (l.entry · name) with
  | some (v, _) => .ok v
  | none => .error .undeclared

/-! ## Steps -/

/-- A new handle for a scope, together with the first one that there is for it. -/
def hold (i : ScopeId) : Answer × Ledger :=
  (.handle (some ⟨l.held.length, l.held.idxOf i⟩), { l with held := l.held ++ [i] })

def write (i : ScopeId) (name : String) (e : Value × Bool) : Ledger :=
  { l with entry := fun j n => if j = i ∧ n = name then some e else l.entry j n }

/-- A new scope with the given entries. -/
def make (parent : Option ScopeId) (entries : String → Option (Value × Bool)) : Answer × Ledger :=
  let i := l.links.length
  let made : Ledger :=
    { l with
      links := parent :: l.links
      entry := fun j n => if j = i then entries n else l.entry j n }
  made.hold i

def holdParent (h : Nat) : Answer × Ledger :=
  match l.parent? (l.scopeOf h) with
  | none => (.handle none, l)
  | some p => l.hold p

def declare (h : Nat) (b : Binding) : Answer × Ledger :=
  let i := l.scopeOf h
  if (l.entry i b.name).isSome then (.done (.error .duplicateDeclaration), l)
  else (.done (.ok ()), l.write i b.name (b.value, b.constant))

def assign (h : Nat) (name : String) (value : Value) : Answer × Ledger :=
  match l.owner? (l.scopeOf h) name with
  | none => (.done (.error .undeclared), l)
  | some j =>
    if (l.entry j name).any (·.2) then (.done (.error .constantAssignment), l)
    else (.done (.ok ()), l.write j name (value, false))

/-- No entry is left, marked or not. -/
def clear (i : ScopeId) : Ledger :=
  { l with entry := fun j n => if j = i then none else l.entry j n }

/-- The constants of a global scope. -/
def globalEntry : String → Option (Value × Bool)
  | "true" => some (.boolean true, true)
  | "false" => some (.boolean false, true)
  | "null" => some (.null, true)
  | _ => none

/-- What an operation answers, and the ledger after it.  A native function that it makes has the
identity `made`. -/
def step (made : Identity) : Op → Answer × Ledger
  | .new => l.make none fun _ => none
  | .bareGlobal => l.make none globalEntry
  | .child h => l.make (some (l.scopeOf h)) fun _ => none
  | .parent h => l.holdParent h
  | .declare h name value constant => l.declare h ⟨name, value, constant⟩
  | .defineNative h name key => l.declare h ⟨name, .native ⟨made, name, .hosted key⟩, true⟩
  | .assign h name value => l.assign h name value
  | .clear h => (.done (.ok ()), l.clear (l.scopeOf h))
  | .lookup h name => (.value (l.lookup h name), l)
  | .hasOwn h name => (.owned (l.entry (l.scopeOf h) name).isSome, l)

/-- Operations one after the other, with identities from `made` on. -/
def replay (made : Identity) : List Op → Ledger → List Answer × Ledger
  | [], l => ([], l)
  | op :: ops, l =>
    let (answer, l') := l.step made op
    let (answers, last) := replay (made + op.issues) ops l'
    (answer :: answers, last)

/-- Every operation is made on a handle that was made before it. -/
def Allows (made : Identity) : List Op → Ledger → Prop
  | [], _ => True
  | op :: ops, l =>
    (∀ h ∈ op.handle?, h < l.held.length) ∧ Allows (made + op.issues) ops (l.step made op).2

instance decidableAllows (made : Identity) :
    (ops : List Op) → (l : Ledger) → Decidable (Allows made ops l)
  | [], _ => isTrue trivial
  | op :: ops, l =>
    have := decidableAllows (made + op.issues) ops (l.step made op).2
    inferInstanceAs (Decidable (_ ∧ _))

/-! ## Chains -/

/-- Every parent was made before its child. -/
def Linked : List (Option ScopeId) → Prop
  | [] => True
  | link :: links => (∀ p ∈ link, p < links.length) ∧ Linked links

theorem parentIn_lt {links : List (Option ScopeId)} (h : Linked links) {i p : ScopeId}
    (hp : parentIn links i = some p) : p < links.length := by
  induction links with
  | nil => cases hp
  | cons link links ih =>
    unfold parentIn at hp
    split at hp
    · exact Nat.lt_succ_of_lt (h.1 p hp)
    · exact Nat.lt_succ_of_lt (ih h.2 hp)

theorem chainIn_cons_of_lt {link : Option ScopeId} {links : List (Option ScopeId)} {i : ScopeId}
    (hi : i < links.length) : chainIn (link :: links) i = chainIn links i :=
  if_neg (Nat.ne_of_lt hi)

/-- A chain goes from parent to parent. -/
theorem chainIn_eq_cons {links : List (Option ScopeId)} (h : Linked links) {i : ScopeId}
    (hi : i < links.length) : chainIn links i = i :: (parentIn links i).elim [] (chainIn links) := by
  induction links with
  | nil => cases hi
  | cons link links ih =>
    have helim {parent : Option ScopeId} (hparent : ∀ p ∈ parent, p < links.length) :
        parent.elim [] (chainIn (link :: links)) = parent.elim [] (chainIn links) := by
      cases parent with
      | none => rfl
      | some p => exact chainIn_cons_of_lt (hparent p rfl)
    by_cases hlast : i = links.length
    · have hparent : parentIn (link :: links) i = link := if_pos hlast
      have hchain : chainIn (link :: links) i = i :: link.elim [] (chainIn links) := if_pos hlast
      rw [hparent, hchain, helim h.1]
    · have hi' : i < links.length := Nat.lt_of_le_of_ne (Nat.le_of_lt_succ hi) hlast
      have hparent : parentIn (link :: links) i = parentIn links i := if_neg hlast
      rw [hparent, chainIn_cons_of_lt hi', helim fun p hp => parentIn_lt h.2 hp]
      exact ih h.2 hi'

/-! ## Which lookups change -/

/-- From `i` outwards, no scope before `j` has an entry for `name`. -/
def Meets (i j : ScopeId) (name : String) : Prop :=
  ∃ before after, l.chain i = before ++ j :: after ∧ ∀ k ∈ before, l.entry k name = none

section Lookups

variable {l} {i j k : ScopeId} {name other : String} {e : Value × Bool}

theorem owner?_eq_some_iff :
    l.owner? i name = some j ↔ (l.entry j name).isSome ∧ l.Meets i j name := by
  unfold owner? Meets
  rw [List.find?_eq_some_iff_append]
  simp only [Bool.not_eq_eq_eq_not, Bool.not_true, Option.isSome_eq_false_iff,
    Option.isNone_iff_eq_none]

theorem owner?_eq_none_iff :
    l.owner? i name = none ↔ ∀ j ∈ l.chain i, l.entry j name = none := by
  unfold owner?
  simp only [List.find?_eq_none, Bool.not_eq_true, Option.isSome_eq_false_iff,
    Option.isNone_iff_eq_none]

theorem exists_entry_of_owner? (h : l.owner? i name = some j) :
    ∃ v c, l.entry j name = some (v, c) := by
  obtain ⟨⟨v, c⟩, he⟩ := Option.isSome_iff_exists.1 (owner?_eq_some_iff.1 h).1
  exact ⟨v, c, he⟩

@[simp]
theorem entry_write_self : (l.write j name e).entry j name = some e := if_pos ⟨rfl, rfl⟩

theorem entry_write_of_ne (h : k ≠ j) : (l.write j name e).entry k other = l.entry k other :=
  if_neg fun hc => h hc.1

theorem entry_write_of_name_ne (h : other ≠ name) :
    (l.write j name e).entry k other = l.entry k other :=
  if_neg fun hc => h hc.2

/-- The scope that a name is written to is its owner wherever it is met. -/
theorem owner?_write_of_meets (h : l.Meets i j name) : (l.write j name e).owner? i name = some j := by
  obtain ⟨before, after, hchain, hbefore⟩ := h
  show ((l.chain i).find? fun k => ((l.write j name e).entry k name).isSome) = some j
  rw [hchain, List.find?_append, List.find?_cons_of_pos (by simp), Option.or_eq_some_iff]
  cases hfind : before.find? fun k => ((l.write j name e).entry k name).isSome with
  | none => exact .inr ⟨rfl, rfl⟩
  | some k =>
    have hsome := List.find?_some hfind
    have hkj : k = j := by
      refine Decidable.byContradiction fun hne => ?_
      rw [entry_write_of_ne hne, hbefore k (List.mem_of_find?_eq_some hfind)] at hsome
      cases hsome
    exact .inl (congrArg some hkj)

/-- A write of a name changes no owner where it is not met, and there it owns nothing. -/
theorem owner?_write_of_not_meets (h : ¬ l.Meets i j name) :
    (l.write j name e).owner? i name = l.owner? i name ∧ l.owner? i name ≠ some j := by
  have hnot : l.owner? i name ≠ some j := fun ho => h (owner?_eq_some_iff.1 ho).2
  refine ⟨?_, hnot⟩
  cases ho : (l.write j name e).owner? i name with
  | none =>
    refine (owner?_eq_none_iff.2 fun k hk => ?_).symm
    have hwritten := owner?_eq_none_iff.1 ho k hk
    by_cases hkj : k = j
    · rw [hkj, entry_write_self] at hwritten
      cases hwritten
    · rwa [entry_write_of_ne hkj] at hwritten
  | some k =>
    obtain ⟨hk, before, after, hchain, hbefore⟩ := owner?_eq_some_iff.1 ho
    have hunbound (m : ScopeId) (hm : m ∈ before) : l.entry m name = none := by
      have hwritten := hbefore m hm
      by_cases hmj : m = j
      · rw [hmj, entry_write_self] at hwritten
        cases hwritten
      · rwa [entry_write_of_ne hmj] at hwritten
    have hkj : k ≠ j := by
      rintro rfl
      exact h ⟨before, after, hchain, hunbound⟩
    rw [entry_write_of_ne hkj] at hk
    exact (owner?_eq_some_iff.2 ⟨hk, before, after, hchain, hunbound⟩).symm

theorem lookup_eq_ok_iff {h : Nat} {v : Value} :
    l.lookup h name = .ok v ↔
      ∃ j c, l.owner? (l.scopeOf h) name = some j ∧ l.entry j name = some (v, c) := by
  unfold lookup
  cases ho : l.owner? (l.scopeOf h) name with
  | none => simp
  | some j =>
    obtain ⟨w, c, he⟩ := exists_entry_of_owner? ho
    rw [Option.bind_some, he]
    constructor
    · intro hv
      cases hv
      exact ⟨j, c, rfl, he⟩
    · rintro ⟨k, d, hk, hd⟩
      cases hk
      rw [he] at hd
      cases hd
      rfl

theorem lookup_eq_error_iff {h : Nat} :
    l.lookup h name = .error .undeclared ↔ l.owner? (l.scopeOf h) name = none := by
  unfold lookup
  cases ho : l.owner? (l.scopeOf h) name with
  | none => simp
  | some j =>
    obtain ⟨w, c, he⟩ := exists_entry_of_owner? ho
    simp [he]

theorem lookup_write_of_meets {h : Nat} (hmeets : l.Meets (l.scopeOf h) j name) :
    (l.write j name e).lookup h name = .ok e.1 :=
  lookup_eq_ok_iff.2 ⟨j, e.2, owner?_write_of_meets hmeets, entry_write_self⟩

theorem lookup_write_of_not_meets {h : Nat} (hmeets : ¬ l.Meets (l.scopeOf h) j name) :
    (l.write j name e).lookup h name = l.lookup h name := by
  obtain ⟨howner, hne⟩ := owner?_write_of_not_meets (e := e) hmeets
  unfold lookup
  rw [show (l.write j name e).scopeOf h = l.scopeOf h from rfl, howner]
  cases ho : l.owner? (l.scopeOf h) name with
  | none => rfl
  | some k =>
    have hkj : k ≠ j := fun hkj => hne (hkj ▸ ho)
    simp only [Option.bind_some, entry_write_of_ne hkj]

theorem lookup_write_of_name_ne {h : Nat} (hn : other ≠ name) :
    (l.write j name e).lookup h other = l.lookup h other := by
  have hentry : (fun k => (l.write j name e).entry k other) = fun k => l.entry k other :=
    funext fun k => entry_write_of_name_ne hn
  have howner (i : ScopeId) : (l.write j name e).owner? i other = l.owner? i other := by
    unfold owner?
    simp only [entry_write_of_name_ne hn]
    rfl
  unfold lookup
  rw [howner]
  simp only [entry_write_of_name_ne hn]
  rfl

end Lookups

/-! ## What a step does -/

/-- What an operation answers and which answers it changes; `l` and `l'` are the ledger before and
after it. -/
structure Lawful (l : Ledger) (made : Identity) (op : Op) (a : Answer) (l' : Ledger) : Prop where
  /-- No scope declares a name twice. -/
  declare : ∀ h b, op.declares? made = some (h, b) →
    (a = .done (.error .duplicateDeclaration) ↔ (l.entry (l.scopeOf h) b.name).isSome) ∧
      (a = .done (.ok ()) ↔ l.entry (l.scopeOf h) b.name = none)
  /-- Only the entry of the owner counts. -/
  assign : ∀ h name value, op = .assign h name value →
    (a = .done (.error .undeclared) ↔ l.owner? (l.scopeOf h) name = none) ∧
      (a = .done (.error .constantAssignment) ↔
        ∃ j v, l.owner? (l.scopeOf h) name = some j ∧ l.entry j name = some (v, true)) ∧
      (a = .done (.ok ()) ↔
        ∃ j v, l.owner? (l.scopeOf h) name = some j ∧ l.entry j name = some (v, false))
  lookup : ∀ h name, op = .lookup h name →
    (a = .value (.error .undeclared) ↔ l.owner? (l.scopeOf h) name = none) ∧
      ∀ v, a = .value (.ok v) ↔
        ∃ j c, l.owner? (l.scopeOf h) name = some j ∧ l.entry j name = some (v, c)
  hasOwn : ∀ h name, op = .hasOwn h name → a = .owned (l.entry (l.scopeOf h) name).isSome
  clear : ∀ h, op = .clear h → ∀ i name,
    l'.entry i name = if i = l.scopeOf h then none else l.entry i name
  failed : ∀ e, a.error? = some e → l' = l
  /-- An assignment is seen through the handles that have the same owner. -/
  assigned : ∀ h name value, op = .assign h name value → a = .done (.ok ()) → ∀ k other,
    l'.lookup k other =
      if other = name ∧ l.owner? (l.scopeOf k) name = l.owner? (l.scopeOf h) name then .ok value
      else l.lookup k other
  /-- A declaration is seen through the handles that come to its scope first. -/
  declared : ∀ h b, op.declares? made = some (h, b) → a = .done (.ok ()) → ∀ k,
    (l.Meets (l.scopeOf k) (l.scopeOf h) b.name → l'.lookup k b.name = .ok b.value) ∧
      (¬ l.Meets (l.scopeOf k) (l.scopeOf h) b.name → l'.lookup k b.name = l.lookup k b.name) ∧
      ∀ other, other ≠ b.name → l'.lookup k other = l.lookup k other
  /-- Scopes and handles are only added. -/
  links : l.links <:+ l'.links
  held : l.held <+: l'.held

theorem step_eq_declare {l : Ledger} {made : Identity} {op : Op} {h : Nat} {b : Binding}
    (hop : op.declares? made = some (h, b)) : l.step made op = l.declare h b := by
  cases op with
  | declare | defineNative =>
    cases hop
    rfl
  | _ => cases hop

/-- A declaration fails and changes nothing, or writes the new entry. -/
theorem declare_eq (l : Ledger) (h : Nat) (b : Binding) :
    (∃ e, l.entry (l.scopeOf h) b.name = some e ∧
        l.declare h b = (.done (.error .duplicateDeclaration), l)) ∨
      (l.entry (l.scopeOf h) b.name = none ∧
        l.declare h b = (.done (.ok ()), l.write (l.scopeOf h) b.name (b.value, b.constant))) := by
  unfold declare
  cases he : l.entry (l.scopeOf h) b.name with
  | none => exact .inr ⟨rfl, by simp [he]⟩
  | some e => exact .inl ⟨e, rfl, by simp [he]⟩

/-- An assignment fails and changes nothing, or writes to the owner. -/
theorem assign_eq (l : Ledger) (h : Nat) (name : String) (value : Value) :
    (l.owner? (l.scopeOf h) name = none ∧ l.assign h name value = (.done (.error .undeclared), l)) ∨
      (∃ j v, l.owner? (l.scopeOf h) name = some j ∧ l.entry j name = some (v, true) ∧
        l.assign h name value = (.done (.error .constantAssignment), l)) ∨
      ∃ j v, l.owner? (l.scopeOf h) name = some j ∧ l.entry j name = some (v, false) ∧
        l.assign h name value = (.done (.ok ()), l.write j name (value, false)) := by
  unfold assign
  cases ho : l.owner? (l.scopeOf h) name with
  | none => exact .inl ⟨rfl, rfl⟩
  | some j =>
    obtain ⟨v, c, he⟩ := exists_entry_of_owner? ho
    cases c with
    | true => exact .inr (.inl ⟨j, v, rfl, he, by simp [he]⟩)
    | false => exact .inr (.inr ⟨j, v, rfl, he, by simp [he]⟩)

section Step

variable {l : Ledger} {made : Identity} {h : Nat} {name : String} {value : Value} {b : Binding}

theorem declare_answer :
    ((l.declare h b).1 = .done (.error .duplicateDeclaration) ↔
        (l.entry (l.scopeOf h) b.name).isSome) ∧
      ((l.declare h b).1 = .done (.ok ()) ↔ l.entry (l.scopeOf h) b.name = none) := by
  rcases l.declare_eq h b with ⟨e, he, heq⟩ | ⟨he, heq⟩
  · simp [he, heq]
  · simp [he, heq]

theorem assign_answer :
    ((l.assign h name value).1 = .done (.error .undeclared) ↔ l.owner? (l.scopeOf h) name = none) ∧
      ((l.assign h name value).1 = .done (.error .constantAssignment) ↔
        ∃ j v, l.owner? (l.scopeOf h) name = some j ∧ l.entry j name = some (v, true)) ∧
      ((l.assign h name value).1 = .done (.ok ()) ↔
        ∃ j v, l.owner? (l.scopeOf h) name = some j ∧ l.entry j name = some (v, false)) := by
  rcases l.assign_eq h name value with ⟨ho, heq⟩ | ⟨j, v, ho, he, heq⟩ | ⟨j, v, ho, he, heq⟩
  · simp [ho, heq]
  · simp [ho, he, heq]
  · simp [ho, he, heq]

theorem lookup_answer :
    (Answer.value (l.lookup h name) = .value (.error .undeclared) ↔
        l.owner? (l.scopeOf h) name = none) ∧
      ∀ v, Answer.value (l.lookup h name) = .value (.ok v) ↔
        ∃ j c, l.owner? (l.scopeOf h) name = some j ∧ l.entry j name = some (v, c) := by
  constructor
  · rw [Answer.value.injEq, lookup_eq_error_iff]
  · intro v
    rw [Answer.value.injEq, lookup_eq_ok_iff]

theorem eq_of_error {e : ScopeError} {op : Op} (he : (l.step made op).1.error? = some e) :
    (l.step made op).2 = l := by
  have hdeclare {h : Nat} {b : Binding} (he : (l.declare h b).1.error? = some e) :
      (l.declare h b).2 = l := by
    rcases l.declare_eq h b with ⟨-, -, heq⟩ | ⟨-, heq⟩
    · rw [heq]
    · rw [heq] at he
      cases he
  cases op with
  | new | bareGlobal | child h => cases he
  | parent h =>
    have hanswer : (l.holdParent h).1.error? = none := by
      unfold holdParent
      split <;> rfl
    have hnone : (l.holdParent h).1.error? = some e := he
    rw [hanswer] at hnone
    cases hnone
  | declare h name value constant => exact hdeclare he
  | defineNative h name key => exact hdeclare he
  | assign h name value =>
    have hassign : (l.assign h name value).1.error? = some e := he
    show (l.assign h name value).2 = l
    rcases l.assign_eq h name value with ⟨-, heq⟩ | ⟨j, v, -, -, heq⟩ | ⟨j, v, -, -, heq⟩
    · rw [heq]
    · rw [heq]
    · rw [heq] at hassign
      cases hassign
  | clear h => cases he
  | lookup h name | hasOwn h name => rfl

theorem lookup_assign (ha : (l.assign h name value).1 = .done (.ok ())) (k : Nat) (other : String) :
    (l.assign h name value).2.lookup k other =
      if other = name ∧ l.owner? (l.scopeOf k) name = l.owner? (l.scopeOf h) name then .ok value
      else l.lookup k other := by
  rcases l.assign_eq h name value with ⟨-, heq⟩ | ⟨j, v, -, -, heq⟩ | ⟨j, v, ho, he, heq⟩
  · rw [heq] at ha
    cases ha
  · rw [heq] at ha
    cases ha
  · -- the owner has an entry, so that it owns the name wherever it is met
    have howner : l.owner? (l.scopeOf k) name = some j ↔ l.Meets (l.scopeOf k) j name := by
      simp [owner?_eq_some_iff, he]
    rw [heq, ho]
    split
    · next hk =>
      obtain ⟨rfl, hk⟩ := hk
      exact lookup_write_of_meets (howner.1 hk)
    · next hk =>
      by_cases hn : other = name
      · subst hn
        exact lookup_write_of_not_meets fun hmeets => hk ⟨rfl, howner.2 hmeets⟩
      · exact lookup_write_of_name_ne hn

theorem lookup_declare (ha : (l.declare h b).1 = .done (.ok ())) (k : Nat) :
    (l.Meets (l.scopeOf k) (l.scopeOf h) b.name →
        (l.declare h b).2.lookup k b.name = .ok b.value) ∧
      (¬ l.Meets (l.scopeOf k) (l.scopeOf h) b.name →
        (l.declare h b).2.lookup k b.name = l.lookup k b.name) ∧
      ∀ other, other ≠ b.name → (l.declare h b).2.lookup k other = l.lookup k other := by
  rcases l.declare_eq h b with ⟨e, -, heq⟩ | ⟨-, heq⟩
  · rw [heq] at ha
    cases ha
  · rw [heq]
    exact ⟨lookup_write_of_meets, lookup_write_of_not_meets, fun _ hn => lookup_write_of_name_ne hn⟩

theorem grows_step (l : Ledger) (made : Identity) (op : Op) :
    l.links <:+ (l.step made op).2.links ∧ l.held <+: (l.step made op).2.held := by
  have hsame : l.links <:+ l.links ∧ l.held <+: l.held := ⟨List.suffix_rfl, List.prefix_rfl⟩
  have hdeclare (h : Nat) (b : Binding) :
      l.links <:+ (l.declare h b).2.links ∧ l.held <+: (l.declare h b).2.held := by
    rcases l.declare_eq h b with ⟨e, -, heq⟩ | ⟨-, heq⟩
    all_goals
      rw [heq]
      exact hsame
  cases op with
  | new | bareGlobal | child h => exact ⟨List.suffix_cons _ _, List.prefix_append _ _⟩
  | parent h =>
    show l.links <:+ (l.holdParent h).2.links ∧ l.held <+: (l.holdParent h).2.held
    unfold holdParent
    split
    · exact hsame
    · exact ⟨List.suffix_rfl, List.prefix_append _ _⟩
  | declare h name value constant => exact hdeclare h _
  | defineNative h name key => exact hdeclare h _
  | assign h name value =>
    show l.links <:+ (l.assign h name value).2.links ∧ l.held <+: (l.assign h name value).2.held
    rcases l.assign_eq h name value with ⟨-, heq⟩ | ⟨j, v, -, -, heq⟩ | ⟨j, v, -, -, heq⟩
    all_goals
      rw [heq]
      exact hsame
  | clear h | lookup h name | hasOwn h name => exact hsame

theorem step_lawful (l : Ledger) (made : Identity) (op : Op) :
    l.Lawful made op (l.step made op).1 (l.step made op).2 where
  declare h b hop := by
    rw [step_eq_declare hop]
    exact declare_answer
  assign h name value hop := by
    subst hop
    exact assign_answer
  lookup h name hop := by
    subst hop
    exact lookup_answer
  hasOwn h name hop := by
    subst hop
    rfl
  clear h hop i name := by
    subst hop
    rfl
  failed e he := eq_of_error he
  assigned h name value hop ha k other := by
    subst hop
    exact lookup_assign ha k other
  declared h b hop ha k := by
    rw [step_eq_declare hop] at ha ⊢
    exact lookup_declare ha k
  links := (grows_step l made op).1
  held := (grows_step l made op).2

end Step

end Ledger

end ScopeScript.Session
