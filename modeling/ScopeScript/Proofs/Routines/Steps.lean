import ScopeScript.Syntax.Parser.Unfolding

/-!
# Parsers as routines that call each other

The levels of the parser are written for a parser of smaller parts, and the loops with a bound on
their rounds.  Here the recursion stands by itself, without any bound: a `Routine` is a function of
the parser or a round of one of its loops, and `Routine.steps` is what it does, with the routines
that it calls named and not run.  A loop goes on by calling itself.

    Steps.parser c s     the parser of the steps `s`, where `c` answers the calls
    Steps.calls c s ts   the calls that `s` makes on the tokens `ts`, with the tokens of each

What a routine answers depends on no others than the calls it makes (`parser_congr`).
-/

namespace ScopeScript.Parser

/-! ## Routines -/

/-- A function of the parser, or the next round of a loop with what the rounds before it gave. -/
inductive Routine where
  | primary
  /-- What is applied to the operand `e`. -/
  | suffixes (e : Expr)
  | operand
  /-- What follows the product `left`. -/
  | factors (left : Expr)
  | multiplicative
  /-- What follows the sum `left`. -/
  | terms (left : Expr)
  | additive
  | properties
  | objectLiteral
  | expression
  /-- The arguments of a call opened on `line`, at least one. -/
  | arguments (line : Nat)
  /-- The parameters of a function, at least one. -/
  | parameters (line : Nat)
  | semicolons
  | statement
  /-- The statements of a block or of a whole program. -/
  | statements (inBlock : Bool)
  | statementList
  | program

namespace Routine

abbrev Result : Routine → Type
  | primary | suffixes _ | operand | factors _ | multiplicative | terms _ | additive => Expr
  | properties => List Property
  | objectLiteral | expression => Expr
  | arguments _ => List Expr
  | parameters _ => List String
  | semicolons => Unit
  | statement => Stmt
  | statements _ | statementList => List Stmt
  | program => Program

/-- How far a routine is from a primary expression.  All rounds of a loop are of one rank. -/
@[simp]
def rank : Routine → Nat
  | primary => 0
  | suffixes _ => 1
  | operand => 2
  | factors _ => 3
  | multiplicative => 4
  | terms _ => 5
  | additive => 6
  | properties => 7
  | objectLiteral => 8
  | expression => 9
  | arguments _ | parameters _ | semicolons => 10
  | statement => 11
  | statements _ => 12
  | statementList => 13
  | program => 14

end Routine

/-- A parser for every routine. -/
abbrev Parsers := ∀ r : Routine, Parser r.Result

/-! ## Steps -/

/-- What a parser does, with its calls as data. -/
inductive Steps : Type → Type 1
  | act {α : Type} (p : Parser α) : Steps α
  | call (r : Routine) : Steps r.Result
  | within {α : Type} (b : Bracket) (line : Nat) (s : Steps α) : Steps α
  | bind {α β : Type} (s : Steps α) (f : α → Steps β) : Steps β

instance : Monad Steps where
  pure a := .act (pure a)
  bind := .bind

instance : MonadLift Parser Steps where
  monadLift := .act

namespace Steps

def fail {α : Type} (e : ParseError) : Steps α := .act (throw e)

variable {α β : Type} {c c' : Parsers} {ts : List Token}

/-- The steps as a parser. -/
def parser (c : Parsers) : {α : Type} → Steps α → Parser α
  | _, act p => p
  | _, call r => c r
  | _, within b line s => Parser.within b line (s.parser c)
  | _, bind s f => s.parser c >>= fun a => (f a).parser c

/-- The calls of the steps on `ts`, first to last. -/
def calls (c : Parsers) : {α : Type} → Steps α → List Token → List (Routine × List Token)
  | _, act _, _ => []
  | _, call r, ts => [(r, ts)]
  | _, within _ _ s, ts => s.calls c ts
  | _, bind s f, ts =>
    s.calls c ts ++
      match s.parser c ts with
      | .ok a rest => (f a).calls c rest
      | .error _ _ => []

/-- The calls of the second part are made if the first one succeeds, on what it leaves. -/
theorem mem_calls_bind {s : Steps α} {f : α → Steps β} {r : Routine} {us : List Token} :
    (r, us) ∈ (bind s f).calls c ts ↔
      (r, us) ∈ s.calls c ts ∨
        ∃ a rest, s.parser c ts = .ok a rest ∧ (r, us) ∈ (f a).calls c rest := by
  rw [calls, List.mem_append]
  cases s.parser c ts with
  | ok a rest => simp [and_assoc]
  | error e rest => simp

/-- Parsers that give the same answers to all calls lead to the same end. -/
theorem parser_congr (s : Steps α) (h : ∀ r us, (r, us) ∈ s.calls c ts → c r us = c' r us) :
    s.parser c ts = s.parser c' ts := by
  induction s generalizing ts with
  | act p => rfl
  | call r => exact h r ts List.mem_cons_self
  | within b line s ih =>
    show Parser.within b line (s.parser c) ts = Parser.within b line (s.parser c') ts
    rw [within_apply, within_apply, ih h]
  | bind s f ihs ihf =>
    have hs := ihs fun r us hmem => h r us (mem_calls_bind.2 (.inl hmem))
    show (s.parser c >>= fun a => (f a).parser c) ts = (s.parser c' >>= fun a => (f a).parser c') ts
    rw [bind_apply, bind_apply, ← hs]
    cases hrun : s.parser c ts with
    | error e rest => rfl
    | ok a rest =>
      exact ihf a fun r us hmem => h r us (mem_calls_bind.2 (.inr ⟨a, rest, hrun, hmem⟩))

end Steps

/-! ## What the routines do -/

/-- Nothing in front of a closing bracket, else `s`. -/
def Steps.orEmpty {α : Type} (b : Bracket) (s : Steps (List α)) : Steps (List α) := do
  if (← peekKind) = b.closing then
    advance
    return []
  else s

/-- A round of a list with commas, and then the others. -/
def Steps.item {α : Type} (b : Bracket) (line : Nat) (first : Steps α) (others : Steps (List α)) :
    Steps (List α) := do
  if (← peekKind) = .eof then .fail (.unclosed b line) else
  let x ← first
  let kind ← peekKind
  if kind = .comma then
    advance
    return x :: (← others)
  else if kind = b.closing then
    advance
    return [x]
  else if kind = .eof then .fail (.unclosed b line)
  else refuse (.commaOr b.closing)

/-- A round of a chain of operators: an operator, its right operand, and then what follows. -/
def Steps.link (level : Steps Expr) (accepts : BinaryOp → Bool) (left : Expr)
    (others : Expr → Steps Expr) : Steps Expr := do
  let t ← peek
  match operatorOf? t with
  | some op =>
    if accepts op then
      advance
      let right ← level
      others (.binary left op right t.line)
    else return left
  | none => return left

/-- The kinds of tokens that end the statements of a block or of a program. -/
def Routine.ends (inBlock : Bool) : TokenKind → Bool :=
  if inBlock then endsBlock else (· == .eof)

section Parts

open Steps (call)

/-- The rest of an object literal behind a key that stands on `line`. -/
def Steps.field (key : String) (line : Nat) : Steps (List Property) := do
  let kind ← peekKind
  if kind = .comma then
    advance
    return .shorthand key line :: (← call .properties)
  else if kind = .rightBrace then
    return .shorthand key line :: (← call .properties)
  else
    let _ ← expect .colon (.token .colon)
    let value ← call .expression
    let kind ← peekKind
    if kind = .comma then
      advance
      return .field key value line :: (← call .properties)
    else if kind = .rightBrace ∨ kind = .eof then
      return .field key value line :: (← call .properties)
    else refuse (.commaOr .rightBrace)

/-- A variable or a constant behind its keyword. -/
def Steps.declaration (constant : Bool) (line : Nat) : Steps Stmt := do
  let name ← identifier
  if (← peekKind) = .equals then
    advance
    return .declare name constant (some (← call .expression)) line
  else return .declare name constant none line

/-- A function behind its keyword. -/
def Steps.function (line : Nat) : Steps Stmt := do
  let name ← identifier
  let opener ← expect .leftParen (.token .leftParen)
  let params ← .within .round opener.line (.orEmpty .round (call (.parameters opener.line)))
  let body ← call .statementList
  return .function name params body line

end Parts

open Steps (call) in
/-- The steps of every routine. -/
def Routine.steps : ∀ r : Routine, Steps r.Result
  | primary => do
    let t ← peek
    match t.kind with
    | .identifier =>
      advance
      return .name t.text t.line
    | .number =>
      advance
      match Numeral.read? t.text with
      | some x => return .number x t.line
      | none => .fail (.unexpected .numericLiteral t)
    | .string =>
      advance
      return .string t.text t.line
    | .leftParen =>
      advance
      .within .round t.line do
        let e ← call expression
        close .round t.line
        return e
    | _ => refuse .expression
  | suffixes e => do
    let t ← peek
    match t.kind with
    | .dot =>
      advance
      let nameLine := (← peek).line
      let name ← identifier
      call (suffixes (.dot e (.name name nameLine) t.line))
    | .leftBracket =>
      advance
      let key ← .within .square t.line do
        let key ← call expression
        close .square t.line
        return key
      call (suffixes (.index e key t.line))
    | .leftParen =>
      advance
      let es ← .within .round t.line (.orEmpty .round (call (arguments t.line)))
      call (suffixes (.call e es t.line))
    | _ => return e
  | operand => do
    let e ← call primary
    call (suffixes e)
  | factors left =>
    .link (call operand) isMultiplicative left fun e => call (factors e)
  | multiplicative => do
    let e ← call operand
    call (factors e)
  | terms left =>
    .link (call multiplicative) isAdditive left fun e => call (terms e)
  | additive => do
    let e ← call multiplicative
    call (terms e)
  | properties => do
    let t ← peek
    if t.kind = .rightBrace ∨ t.kind = .eof then return [] else
    let key ← identifier
    .field key t.line
  | objectLiteral => do
    let t ← peek
    if t.kind = .leftBrace then
      advance
      .within .curly t.line do
        let ps ← call properties
        close .curly t.line
        return .object ps t.line
    else call additive
  | expression => do
    let left ← call objectLiteral
    let t ← peek
    if t.kind = .equals then
      advance
      return .assign left (← call expression) t.line
    else return left
  | arguments line => .item .round line (call expression) (call (arguments line))
  | parameters line => .item .round line identifier (call (parameters line))
  | semicolons => do
    if (← peekKind) = .semicolon then
      advance
      call semicolons
    else return ()
  | statement => do
    let t ← peek
    match t.kind with
    | .letKeyword =>
      advance
      .declaration false t.line
    | .constKeyword =>
      advance
      .declaration true t.line
    | .fnKeyword =>
      advance
      .function t.line
    | _ => return .expr (← call expression) t.line
  | statements inBlock => do
    call semicolons
    if ends inBlock (← peekKind) then return []
    else
      let s ← call statement
      return s :: (← call (statements inBlock))
  | statementList => do
    let opener ← expect .leftBrace (.token .leftBrace)
    .within .curly opener.line do
      let body ← call (statements true)
      close .curly opener.line
      return body
  | program => call (statements false)
end ScopeScript.Parser
