import Mathlib.Data.List.Nodup
import ScopeScript.Proofs.Eval.InTurn

/-!
# What objects hold

A record holds the pairs that were inserted into it: a key stands where it was inserted first, with
the value that it was inserted with last (`Record.Holds`).  One more insertion keeps this
(`Holds.insert`), and so the records made by any number of insertions hold their pairs, among them
those of object literals, whose properties are evaluated in turn.

Main result: `objects_hold`.
-/

namespace ScopeScript

namespace Record

variable {α : Type} {r : Record α} {pairs : List (String × α)}

/-- The value of the last pair with the key. -/
def lastValue? (pairs : List (String × α)) (key : String) : Option α := pairs.reverse.lookup key

theorem lastValue?_concat (pairs : List (String × α)) (key : String) (value : α) (k : String) :
    lastValue? (pairs ++ [(key, value)]) k =
      if k = key then some value else lastValue? pairs k := by
  unfold lastValue?
  rw [List.reverse_append, List.reverse_singleton, List.singleton_append, List.lookup_cons]
  by_cases h : k = key
  · rw [h, beq_self_eq_true, if_pos rfl]
  · rw [beq_false_of_ne h, if_neg h]

theorem eraseDups_concat (keys : List String) (key : String) :
    (keys ++ [key]).eraseDups =
      if key ∈ keys then keys.eraseDups else keys.eraseDups ++ [key] := by
  rw [List.eraseDups_append]
  by_cases h : key ∈ keys
  · rw [if_pos h]
    simp [List.removeAll, h]
  · have hnew : [key].removeAll keys = [key] := by simp [List.removeAll, h]
    rw [if_neg h, hnew]
    rfl

/-- The record was made by inserting the pairs. -/
structure Holds (r : Record α) (pairs : List (String × α)) : Prop where
  nodup : r.keys.Nodup
  /-- In the order in which they came up first. -/
  keys : r.keys = (pairs.map (·.1)).eraseDups
  get? : ∀ key, r.get? key = lastValue? pairs key

theorem holds_empty : (⟨[]⟩ : Record α).Holds [] :=
  ⟨List.nodup_nil, rfl, fun _ => rfl⟩

theorem Holds.insert (h : r.Holds pairs) (key : String) (value : α) :
    (r.insert key value).Holds (pairs ++ [(key, value)]) where
  nodup := by
    rw [keys_insert]
    split
    · exact h.nodup
    · next hnew =>
      exact List.nodup_append_comm.1 (List.nodup_cons.2 ⟨hnew, h.nodup⟩)
  keys := by
    have hmem : key ∈ r.keys ↔ key ∈ pairs.map (·.1) := by
      rw [h.keys, List.mem_eraseDups]
    rw [keys_insert, List.map_append, List.map_singleton, eraseDups_concat, ← h.keys]
    simp only [hmem]
  get? k := by
    rw [lastValue?_concat]
    split
    · next hk =>
      rw [hk, get?_insert_self]
    · next hk =>
      rw [get?_insert_of_ne r value hk, h.get?]

theorem Holds.insertAll (h : r.Holds pairs) (more : List (String × α)) :
    (more.foldl (fun r p => r.insert p.1 p.2) r).Holds (pairs ++ more) := by
  induction more generalizing r pairs with
  | nil => rwa [List.append_nil]
  | cons p more ih =>
    rw [List.append_cons]
    exact ih (h.insert p.1 p.2)

theorem ofList_holds (pairs : List (String × α)) : (ofList pairs).Holds pairs :=
  holds_empty.insertAll pairs

/-! ## New keys -/

theorem insertEntry_of_notMem {key : String} {es : List (String × α)} (h : key ∉ es.map (·.1))
    (value : α) : insertEntry key value es = es ++ [(key, value)] := by
  induction es with
  | nil => rfl
  | cons e es ih =>
    obtain ⟨hkey, hes⟩ := not_or.1 (mt List.mem_cons.2 h)
    unfold insertEntry
    rw [if_neg (Ne.symm hkey), ih hes, List.cons_append]

theorem entries_insertAll (hr : ((r.entries ++ pairs).map (·.1)).Nodup) :
    (pairs.foldl (fun r p => r.insert p.1 p.2) r).entries = r.entries ++ pairs := by
  induction pairs generalizing r with
  | nil => rw [List.append_nil, List.foldl_nil]
  | cons p pairs ih =>
    have hnew : p.1 ∉ r.entries.map (·.1) := by
      rw [List.map_append, List.map_cons] at hr
      exact fun hmem => List.disjoint_of_nodup_append hr hmem List.mem_cons_self
    have hentries : (r.insert p.1 p.2).entries = r.entries ++ [p] :=
      insertEntry_of_notMem hnew p.2
    rw [List.append_cons, ← hentries] at hr ⊢
    exact ih hr

/-- Pairs with distinct keys are the entries of their record. -/
theorem ofList_of_nodup (h : (pairs.map (·.1)).Nodup) : ofList pairs = ⟨pairs⟩ :=
  congrArg Record.mk (entries_insertAll (r := {}) h)

end Record

/-! ## Object literals and members -/

namespace Eval

variable {calls : Calls} {opts : Options} {scope : ScopeId}

theorem object_inTurn (properties : List Property) (line : Nat) (m : Machine) :
    Ensures (expr calls opts scope (.object properties line)) m
      (fun v m' => ∃ vs r, InTurn (field calls opts scope) properties m vs m' ∧ v = .object r ∧
        r.Holds ((properties.map (·.key)).zip vs))
      (StopsAt (field calls opts scope) properties m) := by
  unfold expr
  refine .bind ((fields_inTurn calls opts scope properties m).mono ?_ fun _ _ => id)
  rintro pairs m' ⟨vs, hvs, rfl⟩
  exact ensures_pure ⟨vs, _, hvs, rfl, Record.ofList_holds _⟩

variable {object : Expr} {r : Record Value} {pairs : List (String × Value)} {m m₁ m₂ : Machine}

theorem dot_of_holds (hobject : expr calls opts scope object m = .ok (.object r) m₁)
    (hr : r.Holds pairs) (key : String) (keyLine line : Nat) :
    expr calls opts scope (.dot object (.name key keyLine) line) m =
      .ok ((Record.lastValue? pairs key).getD .null) m₁ := by
  unfold expr
  rw [bind_apply, hobject, ← hr.get?]
  rfl

theorem index_apply (hobject : expr calls opts scope object m = .ok (.object r) m₁)
    {index : Expr} {v : Value} (hindex : expr calls opts scope index m₁ = .ok v m₂) {key : String}
    (hkey : v.propertyKey = .ok key) (line : Nat) :
    expr calls opts scope (.index object index line) m = .ok ((r.get? key).getD .null) m₂ := by
  unfold expr
  rw [bind_apply, hobject]
  show (expr calls opts scope index >>= _) m₁ = _
  rw [bind_apply, hindex]
  show (ofCause line v.propertyKey >>= _) m₂ = _
  rw [hkey]
  rfl

theorem index_of_holds (hobject : expr calls opts scope object m = .ok (.object r) m₁)
    (hr : r.Holds pairs) {index : Expr} {v : Value}
    (hindex : expr calls opts scope index m₁ = .ok v m₂) {key : String}
    (hkey : v.propertyKey = .ok key) (line : Nat) :
    expr calls opts scope (.index object index line) m =
      .ok ((Record.lastValue? pairs key).getD .null) m₂ := by
  rw [← hr.get?]
  exact index_apply hobject hindex hkey line

/-- Keys stand in the order of their first pair and have the value of their last one, however the
record was made; and reading a member reads that value, or null if the key is not there. -/
theorem objects_hold :
    ({} : Record Value).Holds [] ∧
    (∀ (r : Record Value) (pairs : List (String × Value)) (key : String) (value : Value),
      r.Holds pairs → (r.insert key value).Holds (pairs ++ [(key, value)])) ∧
    (∀ pairs : List (String × Value), (Record.ofList pairs).Holds pairs) ∧
    ∀ (calls : Calls) (opts : Options) (scope : ScopeId) (m : Machine),
      (∀ (properties : List Property) (line : Nat),
        Ensures (expr calls opts scope (.object properties line)) m
          (fun v m' => ∃ vs r, InTurn (field calls opts scope) properties m vs m' ∧
            v = .object r ∧ r.Holds ((properties.map (·.key)).zip vs))
          (StopsAt (field calls opts scope) properties m)) ∧
      ∀ (object : Expr) (r : Record Value) (pairs : List (String × Value)) (m₁ : Machine),
        expr calls opts scope object m = .ok (.object r) m₁ → r.Holds pairs →
          (∀ (key : String) (keyLine line : Nat),
            expr calls opts scope (.dot object (.name key keyLine) line) m =
              .ok ((Record.lastValue? pairs key).getD .null) m₁) ∧
          ∀ (index : Expr) (v : Value) (key : String) (m₂ : Machine) (line : Nat),
            expr calls opts scope index m₁ = .ok v m₂ → v.propertyKey = .ok key →
              expr calls opts scope (.index object index line) m =
                .ok ((Record.lastValue? pairs key).getD .null) m₂ := by
  refine ⟨Record.holds_empty, fun r pairs key value h => h.insert key value, Record.ofList_holds,
    fun calls opts scope m => ⟨fun properties line => object_inTurn properties line m, ?_⟩⟩
  intro object r pairs m₁ hobject hr
  exact ⟨dot_of_holds hobject hr, fun index v key m₂ line hindex hkey =>
    index_of_holds hobject hr hindex hkey line⟩

/-- An object with a key twice. -/
theorem objects_hold_overwritten :
    let pairs : List (String × Value) :=
      [("a", .string "x"), ("b", .string "y"), ("a", .string "z")]
    let literal : Expr := .object
      [.field "a" (.string "x" 1) 1, .field "b" (.string "y" 1) 1, .field "a" (.string "z" 1) 1] 1
    let run := expr (callsWithin Host.none 0) {} 0
    let r : Record Value := .ofList pairs
    r.Holds pairs ∧ r.keys = ["a", "b"] ∧
      (r.insert "b" .null).Holds (pairs ++ [("b", .null)]) ∧
      run literal {} = .ok (.object r) {} ∧ run (.string "c" 1) {} = .ok (.string "c") {} ∧
      (Value.string "c").propertyKey = .ok "c" ∧
      run (.dot literal (.name "a" 1) 1) {} = .ok (.string "z") {} ∧
      run (.index literal (.string "c" 1) 1) {} = .ok .null {} := by
  intro pairs literal run r
  obtain ⟨-, hinsert, hofList, heval⟩ := objects_hold
  have hr : r.Holds pairs := hofList pairs
  have hliteral : run literal {} = .ok (.object r) {} := rfl
  have hmembers := (heval (callsWithin Host.none 0) {} 0 {}).2 literal r pairs {} hliteral hr
  exact ⟨hr, hr.keys.trans (by decide), hinsert r pairs "b" .null hr, hliteral, rfl, rfl,
    hmembers.1 "a" 1 1, hmembers.2 (.string "c" 1) (.string "c") "c" {} 1 rfl rfl⟩

end Eval

end ScopeScript
