import ScopeScript.Syntax.Parser.Basic
import ScopeScript.Number.Numeral

/-!
# The grammar

    program ::= statements
    statements ::= (`;`* statement)* `;`*
    statement ::= (`let` | `const`) identifier (`=` expression)?
                | `fn` identifier `(` parameters `)` `{` statements `}`
                | expression
    expression ::= objectLevel | objectLevel `=` expression
    objectLevel ::= `{` properties `}` | sum
    sum ::= product | sum (`+` | `-`) product
    product ::= operand | product (`*` | `/` | `%`) operand
    operand ::= primary | operand `.` identifier | operand `[` expression `]`
              | operand `(` arguments `)`
    primary ::= identifier | number | string | `(` expression `)`

`Spells ts phrase rest` says that the tokens `ts` are those of the phrase and then `rest`.  The rules
never look at what follows a phrase.  The tree of a phrase takes its lines from the tokens.

A list of properties may end in a comma; a list of arguments or parameters may not.

Nothing has to stand between two statements, so the tokens `f ( x )` are a call and also the two
statements `f` and `( x )`.  This is the only ambiguity.  If `greedy` is false then `Statements greedy` allows
both; if it is true then no statement whose expression ends in an operand is followed by `(`.
-/

namespace ScopeScript.Grammar

open ScopeScript.Parser (next)

/-! ## Expressions -/

inductive Level where
  | primary
  | operand
  | product
  | sum
  | objectLevel
  | expression
  deriving DecidableEq, Repr

/-- Every level takes in those of lower rank. -/
def Level.rank : Level → Nat
  | primary => 0
  | operand => 1
  | product => 2
  | sum => 3
  | objectLevel => 4
  | expression => 5

/-- The level of a binary expression. -/
def levelOf : BinaryOp → Level
  | .add | .sub => .sum
  | .mul | .div | .rem => .product

inductive Phrase where
  | expr (level : Level) (e : Expr)
  | arguments (es : List Expr)
  | property (p : Property)
  | properties (ps : List Property)

inductive Spells : List Token → Phrase → List Token → Prop
  | name {t : Token} {rest : List Token} (h : t.kind = .identifier) :
      Spells (t :: rest) (.expr .primary (.name t.text t.line)) rest
  | number {t : Token} {rest : List Token} {x : Float} (h : t.kind = .number)
      (hx : Numeral.read? t.text = some x) :
      Spells (t :: rest) (.expr .primary (.number x t.line)) rest
  | string {t : Token} {rest : List Token} (h : t.kind = .string) :
      Spells (t :: rest) (.expr .primary (.string t.text t.line)) rest
  | group {opener closer : Token} {ts rest : List Token} {e : Expr}
      (ho : opener.kind = .leftParen) (he : Spells ts (.expr .expression e) (closer :: rest))
      (hc : closer.kind = .rightParen) : Spells (opener :: ts) (.expr .primary e) rest
  | primary {ts rest : List Token} {e : Expr} (h : Spells ts (.expr .primary e) rest) :
      Spells ts (.expr .operand e) rest
  | dot {t name : Token} {ts rest : List Token} {e : Expr}
      (he : Spells ts (.expr .operand e) (t :: name :: rest)) (ht : t.kind = .dot)
      (hn : name.kind = .identifier) :
      Spells ts (.expr .operand (.dot e (.name name.text name.line) t.line)) rest
  | index {opener closer : Token} {ts mid rest : List Token} {e key : Expr}
      (he : Spells ts (.expr .operand e) (opener :: mid)) (ho : opener.kind = .leftBracket)
      (hk : Spells mid (.expr .expression key) (closer :: rest))
      (hc : closer.kind = .rightBracket) :
      Spells ts (.expr .operand (.index e key opener.line)) rest
  | call {opener closer : Token} {ts mid rest : List Token} {f : Expr} {es : List Expr}
      (hf : Spells ts (.expr .operand f) (opener :: mid)) (ho : opener.kind = .leftParen)
      (ha : Spells mid (.arguments es) (closer :: rest)) (hc : closer.kind = .rightParen) :
      Spells ts (.expr .operand (.call f es opener.line)) rest
  | operand {ts rest : List Token} {e : Expr} (h : Spells ts (.expr .operand e) rest) :
      Spells ts (.expr .product e) rest
  | times {t : Token} {ts mid rest : List Token} {l r : Expr} {op : BinaryOp}
      (hl : Spells ts (.expr .product l) (t :: mid)) (hk : t.kind = .operator)
      (ht : t.text = op.symbol) (hop : levelOf op = .product)
      (hr : Spells mid (.expr .operand r) rest) :
      Spells ts (.expr .product (.binary l op r t.line)) rest
  | product {ts rest : List Token} {e : Expr} (h : Spells ts (.expr .product e) rest) :
      Spells ts (.expr .sum e) rest
  | plus {t : Token} {ts mid rest : List Token} {l r : Expr} {op : BinaryOp}
      (hl : Spells ts (.expr .sum l) (t :: mid)) (hk : t.kind = .operator)
      (ht : t.text = op.symbol) (hop : levelOf op = .sum)
      (hr : Spells mid (.expr .product r) rest) :
      Spells ts (.expr .sum (.binary l op r t.line)) rest
  | object {opener closer : Token} {ts rest : List Token} {ps : List Property}
      (ho : opener.kind = .leftBrace) (hp : Spells ts (.properties ps) (closer :: rest))
      (hc : closer.kind = .rightBrace) :
      Spells (opener :: ts) (.expr .objectLevel (.object ps opener.line)) rest
  | sum {ts rest : List Token} {e : Expr} (h : Spells ts (.expr .sum e) rest) :
      Spells ts (.expr .objectLevel e) rest
  | objectLevel {ts rest : List Token} {e : Expr} (h : Spells ts (.expr .objectLevel e) rest) :
      Spells ts (.expr .expression e) rest
  | assign {t : Token} {ts mid rest : List Token} {l r : Expr}
      (hl : Spells ts (.expr .objectLevel l) (t :: mid)) (ht : t.kind = .equals)
      (hr : Spells mid (.expr .expression r) rest) :
      Spells ts (.expr .expression (.assign l r t.line)) rest
  | noArguments {rest : List Token} : Spells rest (.arguments []) rest
  | lastArgument {ts rest : List Token} {e : Expr} (h : Spells ts (.expr .expression e) rest) :
      Spells ts (.arguments [e]) rest
  | argument {comma : Token} {ts mid rest : List Token} {e e' : Expr} {es : List Expr}
      (he : Spells ts (.expr .expression e) (comma :: mid)) (hc : comma.kind = .comma)
      (hes : Spells mid (.arguments (e' :: es)) rest) : Spells ts (.arguments (e :: e' :: es)) rest
  | shorthand {t : Token} {rest : List Token} (h : t.kind = .identifier) :
      Spells (t :: rest) (.property (.shorthand t.text t.line)) rest
  | field {key colon : Token} {ts rest : List Token} {e : Expr} (hk : key.kind = .identifier)
      (hc : colon.kind = .colon) (he : Spells ts (.expr .expression e) rest) :
      Spells (key :: colon :: ts) (.property (.field key.text e key.line)) rest
  | noProperties {rest : List Token} : Spells rest (.properties []) rest
  | lastProperty {ts rest : List Token} {p : Property} (h : Spells ts (.property p) rest) :
      Spells ts (.properties [p]) rest
  | propertyThen {comma : Token} {ts mid rest : List Token} {p : Property} {ps : List Property}
      (hp : Spells ts (.property p) (comma :: mid)) (hc : comma.kind = .comma)
      (hps : Spells mid (.properties ps) rest) : Spells ts (.properties (p :: ps)) rest

/-! ## Statements -/

inductive Parameters : List Token → List String → List Token → Prop
  | none {rest : List Token} : Parameters rest [] rest
  | last {t : Token} {rest : List Token} (h : t.kind = .identifier) :
      Parameters (t :: rest) [t.text] rest
  | cons {t comma : Token} {mid rest : List Token} {p : String} {ps : List String}
      (h : t.kind = .identifier) (hc : comma.kind = .comma) (hps : Parameters mid (p :: ps) rest) :
      Parameters (t :: comma :: mid) (t.text :: p :: ps) rest

/-- The tokens of `ts` before `rest` end in an operand. -/
def EndsInOperand (ts rest : List Token) : Prop :=
  ∃ vs e, vs <:+ ts ∧ Spells vs (.expr .operand e) rest

/-- An operand is cut off from the call that `rest` starts with. -/
def TearsCall (ts rest : List Token) : Prop :=
  EndsInOperand ts rest ∧ (next rest).kind = .leftParen

/-- The token that starts the declaration of a variable or of a constant. -/
def declarationKind (constant : Bool) : TokenKind :=
  if constant then .constKeyword else .letKeyword

mutual

inductive Statement (greedy : Bool) : List Token → Stmt → List Token → Prop
  | declare {keyword name : Token} {rest : List Token} {constant : Bool}
      (hk : keyword.kind = declarationKind constant) (hn : name.kind = .identifier) :
      Statement greedy (keyword :: name :: rest)
        (.declare name.text constant none keyword.line) rest
  | declareAs {keyword name t : Token} {ts rest : List Token} {constant : Bool} {e : Expr}
      (hk : keyword.kind = declarationKind constant) (hn : name.kind = .identifier)
      (ht : t.kind = .equals) (he : Spells ts (.expr .expression e) rest)
      (hg : greedy = true → ¬ TearsCall ts rest) :
      Statement greedy (keyword :: name :: t :: ts)
        (.declare name.text constant (some e) keyword.line) rest
  | function {keyword name opener closer opener' closer' : Token} {ts mid rest : List Token}
      {params : List String} {body : List Stmt}
      (hk : keyword.kind = .fnKeyword) (hn : name.kind = .identifier)
      (ho : opener.kind = .leftParen) (hp : Parameters ts params (closer :: opener' :: mid))
      (hc : closer.kind = .rightParen) (ho' : opener'.kind = .leftBrace)
      (hb : Statements greedy mid body (closer' :: rest)) (hc' : closer'.kind = .rightBrace) :
      Statement greedy (keyword :: name :: opener :: ts)
        (.function name.text params body keyword.line) rest
  | expr {ts rest : List Token} {e : Expr} (he : Spells ts (.expr .expression e) rest)
      (hg : greedy = true → ¬ TearsCall ts rest) :
      Statement greedy ts (.expr e (next ts).line) rest

inductive Statements (greedy : Bool) : List Token → List Stmt → List Token → Prop
  | nil {rest : List Token} : Statements greedy rest [] rest
  | semicolon {t : Token} {ts rest : List Token} {ss : List Stmt} (ht : t.kind = .semicolon)
      (h : Statements greedy ts ss rest) : Statements greedy (t :: ts) ss rest
  | cons {ts mid rest : List Token} {s : Stmt} {ss : List Stmt} (hs : Statement greedy ts s mid)
      (hss : Statements greedy mid ss rest) : Statements greedy ts (s :: ss) rest

end

end ScopeScript.Grammar
