/-!
# Records

A record maps keys to values and keeps its keys in the order in which they were first inserted.
Inserting a key again replaces its value in place.  The three operations that read a record give
the list of its entries back: `keys`, `get?` and `entries` itself.

    (r.insert k v).get? k = some v
    (r.insert k v).get? j = r.get? j        (j ≠ k)
    (r.insert k v).keys = r.keys, with k at its end if it was not there
-/

namespace ScopeScript

/-- Entries in the order of their keys' first insertion. -/
structure Record (α : Type) where
  entries : List (String × α) := []

namespace Record

variable {α : Type}

/-! ## Operations -/

/-- Entries with the value of `key` replaced, or with a new last entry. -/
def insertEntry (key : String) (value : α) : List (String × α) → List (String × α)
  | [] => [(key, value)]
  | (k, v) :: rest =>
    if k = key then (k, value) :: rest else (k, v) :: insertEntry key value rest

def insert (r : Record α) (key : String) (value : α) : Record α :=
  ⟨insertEntry key value r.entries⟩

def get? (r : Record α) (key : String) : Option α :=
  (r.entries.find? (·.1 == key)).map (·.2)

def keys (r : Record α) : List String := r.entries.map (·.1)

def isEmpty (r : Record α) : Bool := r.entries.isEmpty

/-- The pairs are inserted in order, so the last value of a key counts. -/
def ofList (pairs : List (String × α)) : Record α :=
  pairs.foldl (fun r (key, value) => r.insert key value) {}

/-! ## Lemmas -/

theorem map_fst_insertEntry (key : String) (value : α) (es : List (String × α)) :
    (insertEntry key value es).map (·.1) =
      if key ∈ es.map (·.1) then es.map (·.1) else es.map (·.1) ++ [key] := by
  induction es with
  | nil => simp [insertEntry]
  | cons e es ih =>
    obtain ⟨k, v⟩ := e
    by_cases h : k = key
    · simp [insertEntry, h]
    · have h' : key ≠ k := fun e => h e.symm
      by_cases hm : key ∈ es.map (·.1)
      · simp only [insertEntry, h, ↓reduceIte, List.map_cons, ih, hm, List.mem_cons, or_true]
      · simp only [insertEntry, h, ↓reduceIte, List.map_cons, ih, hm, List.mem_cons, h', or_self,
          List.cons_append]

theorem keys_insert (r : Record α) (key : String) (value : α) :
    (r.insert key value).keys = if key ∈ r.keys then r.keys else r.keys ++ [key] :=
  map_fst_insertEntry key value r.entries

theorem get?_insert_self (r : Record α) (key : String) (value : α) :
    (r.insert key value).get? key = some value := by
  obtain ⟨es⟩ := r
  simp only [insert, get?]
  induction es with
  | nil => simp [insertEntry]
  | cons e es ih =>
    obtain ⟨k, v⟩ := e
    by_cases h : k = key <;> simp [insertEntry, h]
    simpa using ih

theorem get?_insert_of_ne (r : Record α) {key other : String} (value : α) (h : other ≠ key) :
    (r.insert key value).get? other = r.get? other := by
  obtain ⟨es⟩ := r
  simp only [insert, get?]
  induction es with
  | nil => simp [insertEntry, Ne.symm h]
  | cons e es ih =>
    obtain ⟨k, v⟩ := e
    by_cases hk : k = key
    · subst hk
      simp [insertEntry, Ne.symm h]
    · by_cases ho : k = other
      · subst ho
        simp [insertEntry, h]
      · simpa [insertEntry, hk, ho] using ih

theorem get?_insert (r : Record α) (key other : String) (value : α) :
    (r.insert key value).get? other = if other = key then some value else r.get? other := by
  split
  · next h => rw [h, get?_insert_self]
  · next h => exact get?_insert_of_ne r value h

theorem mem_of_mem_insertEntry {key : String} {value : α} {es : List (String × α)}
    {e : String × α} (h : e ∈ insertEntry key value es) : e ∈ es ∨ e.2 = value := by
  induction es with
  | nil =>
    obtain rfl := List.mem_singleton.1 h
    exact .inr rfl
  | cons first es ih =>
    obtain ⟨k, v⟩ := first
    unfold insertEntry at h
    split at h
    · rcases List.mem_cons.1 h with rfl | h
      · exact .inr rfl
      · exact .inl (List.mem_cons_of_mem _ h)
    · rcases List.mem_cons.1 h with rfl | h
      · exact .inl List.mem_cons_self
      · exact (ih h).imp_left (List.mem_cons_of_mem _)

/-- Every value in a record that was made of pairs comes from one of them. -/
theorem exists_mem_of_mem_ofList {pairs : List (String × α)} {e : String × α}
    (h : e ∈ (ofList pairs).entries) : ∃ p ∈ pairs, e.2 = p.2 := by
  have hfold (r : Record α) :
      e ∈ (pairs.foldl (fun r (key, value) => r.insert key value) r).entries →
        e ∈ r.entries ∨ ∃ p ∈ pairs, e.2 = p.2 := by
    clear h
    induction pairs generalizing r with
    | nil => exact .inl
    | cons p pairs ih =>
      intro he
      rcases ih (r.insert p.1 p.2) he with hr | ⟨q, hq, heq⟩
      · rcases mem_of_mem_insertEntry hr with hr | hp
        · exact .inl hr
        · exact .inr ⟨p, List.mem_cons_self, hp⟩
      · exact .inr ⟨q, List.mem_cons_of_mem p hq, heq⟩
  exact (hfold {} h).resolve_left (by simp)

theorem exists_mem_of_get? {r : Record α} {key : String} {value : α}
    (h : r.get? key = some value) : ∃ e ∈ r.entries, e.2 = value := by
  obtain ⟨e, he, rfl⟩ := Option.map_eq_some_iff.1 h
  exact ⟨e, List.mem_of_find?_eq_some he, rfl⟩

end Record

end ScopeScript
