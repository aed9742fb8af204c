import ScopeScript.Machine

/-!
# A heap of scopes that are given up

A machine keeps every scope for ever.  A heap keeps a scope as long as something refers to it, and
what a scope binds in two collections: the values of its names, and the names that are constant.
The way outwards goes from parent to parent.

When a call is over, its frame is given up in two steps.

    release   clears a frame that only its own functions still lead to; bound in the frame, they
              would keep it alive
    drop      frees the frame if nothing refers to it any more

`unreachable` says which frames are cleared.  How that is found out by counting references is in
`ScopeScript.Heap.Counting`.

A function is bound as a constant where it is declared.  So a frame that outlives its call because
of a function of its own refers to itself, and is kept from then on.
-/

namespace ScopeScript

/-! ## Cells -/

/-- What one scope binds, and the scope around it. -/
structure Cell where
  /-- The value of every name. -/
  bindings : Record Value := {}
  /-- The names that are marked as constants. -/
  constants : List String := []
  parent : Option ScopeId := none
  freed : Bool := false

instance : Inhabited Cell := ⟨{}⟩

namespace Cell

def binds (c : Cell) (name : String) : Bool := (c.bindings.get? name).isSome

def bind (c : Cell) (name : String) (value : Value) (constant : Bool) : Cell :=
  { c with
    constants := if constant then c.constants.insert name else c.constants
    bindings := c.bindings.insert name value }

/-- Changes the value of a name; its mark is in the other collection. -/
def replace (c : Cell) (name : String) (value : Value) : Cell :=
  { c with bindings := c.bindings.insert name value }

def clear (c : Cell) : Cell := { c with bindings := {}, constants := [] }

def free (c : Cell) : Cell := { c.clear with freed := true }

def values (c : Cell) : List Value := c.bindings.entries.map (·.2)

/-- A value that is bound here leads to the scope `i`. -/
def leadsTo (c : Cell) (i : ScopeId) : Bool := c.values.any (·.scopes.contains i)

end Cell

/-! ## Heaps -/

structure Heap where
  /-- All scopes that were ever made, by number. -/
  cells : Array Cell := #[]
  /-- How many identities were handed out. -/
  issued : Identity := 0
  output : Array String := #[]
  /-- Scopes that the embedding program holds on to, by number. -/
  held : Array ScopeId := #[]

namespace Heap

/-! ## Reading -/

def cell (h : Heap) (i : ScopeId) : Cell := h.cells.getD i {}

def parent? (h : Heap) (i : ScopeId) : Option ScopeId := (h.cell i).parent

def hasOwn (h : Heap) (i : ScopeId) (name : String) : Bool := (h.cell i).binds name

/-- The first scope that binds `name`, among `i` and at most `n - 1` scopes around it. -/
def resolveWithin (h : Heap) (name : String) : Nat → ScopeId → Option ScopeId
  | 0, _ => none
  | n + 1, i =>
    if h.hasOwn i name then some i else (h.parent? i).bind (h.resolveWithin name n)

/-- The first scope on the way outwards that binds `name`.  A parent is made before its child, so
the way is no longer than the number of the scope says. -/
def resolve (h : Heap) (i : ScopeId) (name : String) : Option ScopeId :=
  h.resolveWithin name (i + 1) i

def lookup (h : Heap) (i : ScopeId) (name : String) : Except ScopeError Value :=
  match (h.resolve i name).bind fun j => (h.cell j).bindings.get? name with
  | some v => .ok v
  | none => .error .undeclared

/-- The names bound in a scope, in order of their characters, and whether it has a parent. -/
def outline (h : Heap) (i : ScopeId) : Outline :=
  let names := (h.cell i).bindings.keys.mergeSort fun a b => !decide (b < a)
  .record "Environment"
    [("names", .list (names.map .text)), ("has_parent", .boolean (h.parent? i).isSome)] false

/-! ## Writing -/

def modifyCell (h : Heap) (i : ScopeId) (f : Cell → Cell) : Heap :=
  { h with cells := h.cells.modify i f }

/-- Makes a scope; its number is the number of scopes made before. -/
def push (h : Heap) (c : Cell) : Heap := { h with cells := h.cells.push c }

def declare (h : Heap) (i : ScopeId) (name : String) (value : Value) (constant : Bool) :
    Except ScopeError Heap :=
  if h.hasOwn i name then .error .duplicateDeclaration
  else .ok (h.modifyCell i (·.bind name value constant))

def assign (h : Heap) (i : ScopeId) (name : String) (value : Value) : Except ScopeError Heap :=
  match h.resolve i name with
  | none => .error .undeclared
  | some j =>
    if (h.cell j).constants.contains name then .error .constantAssignment
    else .ok (h.modifyCell j (·.replace name value))

def clear (h : Heap) (i : ScopeId) : Heap := h.modifyCell i Cell.clear

/-! ## Global scopes -/

def globalConstants : List (String × Value) :=
  [("true", .boolean true), ("false", .boolean false), ("null", .null)]

def bareCell : Cell := globalConstants.foldl (fun c (name, value) => c.bind name value true) {}

def pushBareGlobal (h : Heap) : Heap := h.push bareCell

/-- Binds a native function as a constant.  Its identity is used up even if the name is taken. -/
def defineNative (h : Heap) (i : ScopeId) (name : String) (op : NativeOp) : Heap :=
  let next := { h with issued := h.issued + 1 }
  match next.declare i name (.native ⟨h.issued, name, op⟩) true with
  | .ok h => h
  | .error _ => next

def pushGlobal (h : Heap) : Heap :=
  NativeOp.standard.foldl (fun h' (name, op) => h'.defineNative h.cells.size name op)
    h.pushBareGlobal

/-! ## Frames that are given up -/

/-- How many scopes lie inside `i` that are not freed. -/
def children (h : Heap) (i : ScopeId) : Nat :=
  h.cells.countP fun c => !c.freed && c.parent == some i

/-- The values that are bound in other scopes than `i`. -/
def valuesOutside (h : Heap) (i : ScopeId) : List Value :=
  ((List.range h.cells.size).filter (· != i)).flatMap fun j => (h.cell j).values

/-- A value leads to the scope `i`, in another scope or `elsewhere` in memory. -/
def escapes (h : Heap) (i : ScopeId) (elsewhere : List Value) : Bool :=
  (elsewhere ++ h.valuesOutside i).any (·.scopes.contains i)

/-- Nothing but functions that the scope `i` binds itself leads to it, apart from the one handle
that is asked for it.  There are `handles` handles in all, besides those of scopes and
functions. -/
def unreachable (h : Heap) (i : ScopeId) (elsewhere : List Value) (handles : Nat) : Bool :=
  (h.cell i).leadsTo i && !h.escapes i elsewhere && handles + h.children i == 1

/-- Clears the scope `i` if it is unreachable, and says whether it was. -/
def release (h : Heap) (i : ScopeId) (elsewhere : List Value) (handles : Nat) : Bool × Heap :=
  if h.unreachable i elsewhere handles then (true, h.clear i) else (false, h)

/-- Something still refers to the scope `i`. -/
def isReferred (h : Heap) (i : ScopeId) (elsewhere : List Value) : Bool :=
  h.held.contains i || h.children i != 0 || (h.cell i).leadsTo i || h.escapes i elsewhere

/-- Gives a handle to the scope `i` back.  The last one takes the scope with it. -/
def drop (h : Heap) (i : ScopeId) (elsewhere : List Value) : Heap :=
  if h.isReferred i elsewhere then h else h.modifyCell i Cell.free

/-- Runs `c` and, however it ends, changes the heap by `after`, which gets what `c` gave. -/
def ending (after : List Value → Heap → Heap) (c : EvalIn Heap Value) : EvalIn Heap Value :=
  fun h =>
    match c h with
    | .ok v h => .ok v (after [v] h)
    | .error e h => .error e (after [] h)

/-- Replaces the heap by what `f` makes of it, or leaves it as it is if `f` fails. -/
def tryHeap (f : Heap → Except ScopeError Heap) : EvalIn Heap (Except ScopeError Unit) :=
  modifyGet fun h =>
    match f h with
    | .ok h => (.ok (), h)
    | .error e => (.error e, h)

/-- Adds scopes; the first of them is the result. -/
def extend (f : Heap → Heap) : EvalIn Heap ScopeId := modifyGet fun h => (h.cells.size, f h)

end Heap

instance : HasScopes Heap where
  root := Heap.extend (·.push {})
  bareGlobal := Heap.extend (·.pushBareGlobal)
  global := Heap.extend (·.pushGlobal)
  child parent := Heap.extend (·.push { parent := some parent })
  parent? scope := return (← get).parent? scope
  declare scope name value constant := Heap.tryHeap (·.declare scope name value constant)
  assign scope name value := Heap.tryHeap (·.assign scope name value)
  lookup scope name := return (← get).lookup scope name
  hasOwn scope name := return (← get).hasOwn scope name
  clear scope := modify (·.clear scope)
  outline scope := return (← get).outline scope
  -- a call that cannot bind its parameters does not ask for its frame to be cleared; what callers
  -- still work with is older than the frame, so that only the result can lead there from outside
  inFrame frame bindParams body := Heap.ending (fun vs h => h.drop frame vs) do
    bindParams
    Heap.ending (fun vs h => (h.release frame vs (1 + h.held.count frame)).2) body
  freshIdentity := modifyGet fun h => (h.issued, { h with issued := h.issued + 1 })
  print text := modify fun h => { h with output := h.output.push text }
  takeOutput := modifyGet fun h => (h.output, { h with output := #[] })
  hold scope := modifyGet fun h =>
    let first := (h.held.findIdx? (· == scope)).getD h.held.size
    (⟨h.held.size, first⟩, { h with held := h.held.push scope })
  scopeOf index := return (← get).held.getD index 0

end ScopeScript
