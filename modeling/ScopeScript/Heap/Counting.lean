import ScopeScript.Heap

/-!
# Counting references

Whether a frame is unreachable is found out from reference counts.  A walk over the values of the
frame tallies how often it meets each object and each function of the frame (`Ref.count`).  The
frame is cleared if it has functions, if each of them, and each object that leads to one, is
referred to no more often than the walk met it, and if nothing but them and the asker holds the frame
(`releases`).

Values do not say which of them are one object in memory; a `Ref` does.  The count of references
to an object is what the same walk over the rest of memory adds to the tally.
-/

namespace ScopeScript

/-- A value as it lies in memory: the address of an object tells it from all others. -/
inductive Ref where
  /-- A value that is neither a function of a program nor an object. -/
  | plain
  | function (identity : Identity) (scope : ScopeId)
  | object (address : Nat) (properties : List Ref)

/-- What is counted: references to a function or to an object. -/
inductive Counted where
  | function (identity : Identity)
  | object (address : Nat)
  deriving DecidableEq, Repr

structure Tally where
  seen : Nat
  /-- It is a function of the frame, or leads to one. -/
  reaches : Bool
  deriving DecidableEq, Repr

/-- Tallies, latest first, and how many functions of the frame are among them. -/
structure Tallies where
  entries : List (Counted × Tally) := []
  closures : Nat := 0

namespace Tallies

def find? (t : Tallies) (k : Counted) : Option Tally := t.entries.lookup k

def seen (t : Tallies) (k : Counted) : Nat := ((t.find? k).map (·.seen)).getD 0

def set (t : Tallies) (k : Counted) (tally : Tally) : Tallies :=
  { t with entries := (k, tally) :: t.entries }

/-- One more reference to a function of the frame. -/
def seeFunction (t : Tallies) (identity : Identity) : Tallies :=
  match t.find? (.function identity) with
  | some tally => t.set (.function identity) { tally with seen := tally.seen + 1 }
  | none => { t.set (.function identity) ⟨1, true⟩ with closures := t.closures + 1 }

def setReaches (t : Tallies) (k : Counted) (reaches : Bool) : Tallies :=
  match t.find? k with
  | some tally => t.set k { tally with reaches }
  | none => t

end Tallies

namespace Ref

mutual

/-- Tallies the references to objects and to functions of the frame that are met from a value, and
says whether it leads to such a function.  An object is walked through when it is first met. -/
def count (frame : ScopeId) (t : Tallies) : Ref → Bool × Tallies
  | plain => (false, t)
  | function identity scope =>
    if scope = frame then (true, t.seeFunction identity) else (false, t)
  | object address properties =>
    match t.find? (.object address) with
    | some tally => (tally.reaches, t.set (.object address) { tally with seen := tally.seen + 1 })
    | none =>
      let (reaches, t) := countAll frame (t.set (.object address) ⟨1, false⟩) properties
      (reaches, t.setReaches (.object address) reaches)

def countAll (frame : ScopeId) (t : Tallies) : List Ref → Bool × Tallies
  | [] => (false, t)
  | r :: rs =>
    let (reaches, t) := r.count frame t
    let (reach, t) := countAll frame t rs
    (reaches || reach, t)

end

end Ref

/-- Whether a frame with the values `own` is cleared, when the rest of memory has the values
`elsewhere` and there are `handles` handles to the frame besides those of its functions. -/
def releases (frame : ScopeId) (own elsewhere : List Ref) (handles : Nat) : Bool :=
  let tallies := (Ref.countAll frame {} own).2
  let all := (Ref.countAll frame tallies elsewhere).2
  let escaped := tallies.entries.any fun (k, _) =>
    (tallies.find? k).any fun tally => tally.reaches && tally.seen != all.seen k
  !(tallies.closures == 0 || escaped || handles + all.closures != 1 + tallies.closures)

/-- A function that is bound in its frame, and also in an object there that something else in memory
refers to; once the object is let go, the frame is cleared. -/
example :
    let function : Ref := .function 0 1
    let holder : Ref := .object 0 [function]
    releases 1 [function, holder] [holder] 1 = false ∧ releases 1 [function, holder] [] 1 = true := by
  decide

end ScopeScript
