import Mathlib.Data.List.Forall2
import ScopeScript.Heap.Counting

/-!
# What counting references finds out

A walk over some values adds to the tallies.  `Walked t leads b t'` says what a walk from the
tallies `t` to `t'` gives, if `leads` says that the values lead to a function of the frame.

    if they do not   no tally of anything that reaches the frame changes
    if they do       there is one more function, or something that reaches the frame was seen again

So a frame is released exactly if its own values lead to a function of the frame, those elsewhere in
memory do not, and the asker holds the only other handle (`releases_iff`).  Which objects are shared
makes no difference, as long as an address is that of one object.
-/

namespace ScopeScript

/-! ## Memory -/

namespace Ref

/-- The value is, or contains, a function of the frame. -/
inductive Leads (frame : ScopeId) : Ref → Prop
  | function (identity : Identity) : Leads frame (.function identity frame)
  | object {address : Nat} {properties : List Ref} {r : Ref} (hr : r ∈ properties)
      (h : Leads frame r) : Leads frame (.object address properties)

/-- `Part q r`: the value `q` is `r` itself or lies inside it. -/
inductive Part (q : Ref) : Ref → Prop
  | self : Part q q
  | inside {address : Nat} {properties : List Ref} {r : Ref} (hr : r ∈ properties) (h : Part q r) :
      Part q (.object address properties)

/-- An address is that of one object. -/
def Consistent (rs : List Ref) : Prop :=
  ∀ r ∈ rs, ∀ s ∈ rs, ∀ address ps qs, Part (.object address ps) r → Part (.object address qs) s →
    ps = qs

/-- The values of a memory, with what lies inside them. -/
structure Memory (U : Ref → Prop) : Prop where
  inside : ∀ {address properties r}, U (.object address properties) → r ∈ properties → U r
  same : ∀ {address ps qs}, U (.object address ps) → U (.object address qs) → ps = qs

theorem Part.sizeOf_le {q r : Ref} (h : Part q r) : sizeOf q ≤ sizeOf r := by
  induction h with
  | self => exact Nat.le_refl _
  | @inside address properties r hr _ ih =>
    have hlt := List.sizeOf_lt_of_mem hr
    simp only [object.sizeOf_spec]
    omega

theorem Part.trans {p q r : Ref} (h : Part p q) (h' : Part q r) : Part p r := by
  induction h' with
  | self => exact h
  | inside hr _ ih => exact .inside hr ih

/-- No object lies inside itself. -/
theorem not_part_of_mem {address : Nat} {properties : List Ref} {r : Ref} (hr : r ∈ properties) :
    ¬ Part (.object address properties) r := by
  intro h
  have hle := h.sizeOf_le
  have hlt := List.sizeOf_lt_of_mem hr
  simp only [object.sizeOf_spec] at hle
  omega

theorem memory_of_consistent {rs : List Ref} (h : Consistent rs) :
    Memory fun q => ∃ r ∈ rs, Part q r where
  inside := by
    rintro address properties r ⟨s, hs, hpart⟩ hr
    exact ⟨s, hs, Part.trans (.inside hr .self) hpart⟩
  same := by
    rintro address ps qs ⟨r, hr, hps⟩ ⟨s, hs, hqs⟩
    exact h r hr s hs address ps qs hps hqs

end Ref

/-! ## Tallies -/

namespace Tallies

variable {t t' t'' : Tallies} {k l : Counted} {tally : Tally}

@[simp]
theorem find?_set_self (t : Tallies) (k : Counted) (tally : Tally) :
    (t.set k tally).find? k = some tally :=
  List.lookup_cons_self

theorem find?_set_of_ne (t : Tallies) (tally : Tally) (h : l ≠ k) :
    (t.set k tally).find? l = t.find? l := by
  have hne : (l == k) = false := beq_eq_false_iff_ne.2 h
  simp only [set, find?, List.lookup_cons, hne]

theorem mem_of_find? (h : t.find? k = some tally) : (k, tally) ∈ t.entries := by
  obtain ⟨before, after, hentries, -⟩ := List.lookup_eq_some_iff.1 h
  rw [hentries]
  exact List.mem_append_right before List.mem_cons_self

/-- References were added. -/
structure Grows (t t' : Tallies) : Prop where
  closures : t.closures ≤ t'.closures
  kept : ∀ {k tally}, t.find? k = some tally → ∃ tally', t'.find? k = some tally' ∧
    tally'.reaches = tally.reaches ∧ tally.seen ≤ tally'.seen

theorem Grows.refl (t : Tallies) : t.Grows t :=
  ⟨Nat.le_refl _, fun h => ⟨_, h, rfl, Nat.le_refl _⟩⟩

theorem Grows.trans (h : t.Grows t') (h' : t'.Grows t'') : t.Grows t'' where
  closures := Nat.le_trans h.closures h'.closures
  kept hk := by
    obtain ⟨tally₁, hk₁, hreaches₁, hseen₁⟩ := h.kept hk
    obtain ⟨tally₂, hk₂, hreaches₂, hseen₂⟩ := h'.kept hk₁
    exact ⟨tally₂, hk₂, hreaches₂.trans hreaches₁, Nat.le_trans hseen₁ hseen₂⟩

/-- A tally says whether what it counts reaches the frame. -/
def Right (frame : ScopeId) (U : Ref → Prop) (t : Tallies) : Counted → Prop
  | .function identity =>
    ∀ tally, t.find? (.function identity) = some tally → tally.reaches = true
  | .object address => ∀ properties, U (.object address properties) →
    ∀ tally, t.find? (.object address) = some tally →
      (tally.reaches = true ↔ (Ref.object address properties).Leads frame)

theorem Right.of_find?_eq {frame : ScopeId} {U : Ref → Prop} (h : t.Right frame U k)
    (hk : t'.find? k = t.find? k) : t'.Right frame U k := by
  cases k with
  | function identity => exact fun tally ht => h tally (hk ▸ ht)
  | object address => exact fun properties hU tally ht => h properties hU tally (hk ▸ ht)

theorem right_of_find?_eq_none {frame : ScopeId} {U : Ref → Prop} (h : t.find? k = none) :
    t.Right frame U k := by
  cases k with
  | function identity =>
    intro tally ht
    cases h.symm.trans ht
  | object address =>
    intro properties _ tally ht
    cases h.symm.trans ht

/-- There is a further function of the frame, or more references to something that reaches it. -/
def Notices (t t' : Tallies) : Prop :=
  t.closures < t'.closures ∨
    ∃ k tally tally', t.find? k = some tally ∧ tally.reaches = true ∧ t'.find? k = some tally' ∧
      tally.seen < tally'.seen

theorem Notices.grows (h : t.Notices t') (h' : t'.Grows t'') : t.Notices t'' := by
  obtain h | ⟨k, tally, tally₁, hk, hreaches, hk₁, hlt⟩ := h
  · exact .inl (Nat.lt_of_lt_of_le h h'.closures)
  · obtain ⟨tally₂, hk₂, -, hle⟩ := h'.kept hk₁
    exact .inr ⟨k, tally, tally₂, hk, hreaches, hk₂, Nat.lt_of_lt_of_le hlt hle⟩

end Tallies

/-! ## Walks -/

/-- What a walk over values gives, which lead to a function of the frame or do not. -/
structure Walked (frame : ScopeId) (U : Ref → Prop) (t : Tallies) (leads : Prop) (b : Bool)
    (t' : Tallies) : Prop where
  reaches : b = true ↔ leads
  grows : t.Grows t'
  right : ∀ k, t.find? k = none → t'.Right frame U k
  quiet : ¬ leads → t'.closures = t.closures ∧
    ∀ k tally, tally.reaches = true → (t'.find? k = some tally ↔ t.find? k = some tally)
  noticed : leads → t.Notices t'

namespace Walked

variable {frame : ScopeId} {U : Ref → Prop} {t t' t'' : Tallies} {leads leads' : Prop} {b b' : Bool}
  {k : Counted} {tally : Tally}

theorem nothing (h : ¬ leads) : Walked frame U t leads false t where
  reaches := ⟨nofun, fun hl => absurd hl h⟩
  grows := .refl t
  right _ := Tallies.right_of_find?_eq_none
  quiet _ := ⟨rfl, fun _ _ _ => Iff.rfl⟩
  noticed hl := absurd hl h

/-- What a tally says stays right. -/
theorem right_of (h : Walked frame U t leads b t') (hk : t.Right frame U k) :
    t'.Right frame U k := by
  cases hfind : t.find? k with
  | none => exact h.right k hfind
  | some tally =>
    obtain ⟨tally', hfind', hsame, -⟩ := h.grows.kept hfind
    cases k with
    | function identity =>
      intro tally'' ht
      cases hfind'.symm.trans ht
      rw [hsame]
      exact hk tally hfind
    | object address =>
      intro properties hU tally'' ht
      cases hfind'.symm.trans ht
      rw [hsame]
      exact hk properties hU tally hfind

/-- One walk after the other. -/
theorem append (h : Walked frame U t leads b t') (h' : Walked frame U t' leads' b' t'') :
    Walked frame U t (leads ∨ leads') (b || b') t'' where
  reaches := by rw [Bool.or_eq_true, h.reaches, h'.reaches]
  grows := h.grows.trans h'.grows
  right k hk := h'.right_of (h.right k hk)
  quiet hn := by
    obtain ⟨hclosures, hsame⟩ := h.quiet fun hl => hn (.inl hl)
    obtain ⟨hclosures', hsame'⟩ := h'.quiet fun hl => hn (.inr hl)
    exact ⟨hclosures'.trans hclosures, fun k tally hr => (hsame' k tally hr).trans (hsame k tally hr)⟩
  noticed hl := by
    by_cases hfirst : leads
    · exact (h.noticed hfirst).grows h'.grows
    · obtain ⟨hclosures, hsame⟩ := h.quiet hfirst
      rcases h'.noticed (hl.resolve_left hfirst) with hlt | ⟨k, tally, tally', hk, hr, hk', hlt⟩
      · exact .inl (hclosures ▸ hlt)
      · exact .inr ⟨k, tally, tally', (hsame k tally hr).1 hk, hr, hk', hlt⟩

/-- The first walk meets functions of the frame if the values lead to one. -/
theorem closures_ne_zero_iff (h : Walked frame U {} leads b t') : t'.closures ≠ 0 ↔ leads := by
  constructor
  · intro hne
    exact Classical.byContradiction fun hn => hne (h.quiet hn).1
  · intro hl
    rcases h.noticed hl with hlt | ⟨k, tally, -, hk, -⟩
    · exact Nat.ne_of_gt hlt
    · cases hk

/-- Something that has a tally is met again. -/
theorem again (hk : t.find? k = some tally) (hreaches : tally.reaches = true ↔ leads) :
    Walked frame U t leads tally.reaches (t.set k { tally with seen := tally.seen + 1 }) where
  reaches := hreaches
  grows := by
    refine ⟨Nat.le_refl _, fun {l tally'} hl => ?_⟩
    by_cases he : l = k
    · subst he
      cases hk.symm.trans hl
      exact ⟨_, Tallies.find?_set_self .., rfl, Nat.le_succ _⟩
    · exact ⟨tally', by rwa [Tallies.find?_set_of_ne t _ he], rfl, Nat.le_refl _⟩
  right l hl := by
    have hne : l ≠ k := by
      rintro rfl
      cases hl.symm.trans hk
    refine Tallies.right_of_find?_eq_none ?_
    rwa [Tallies.find?_set_of_ne t _ hne]
  quiet hn := by
    have hfalse : tally.reaches ≠ true := fun he => hn (hreaches.1 he)
    refine ⟨rfl, fun l tally' hr => ?_⟩
    by_cases he : l = k
    · subst he
      rw [Tallies.find?_set_self, hk]
      constructor
      · rintro ⟨⟩
        exact absurd hr hfalse
      · rintro ⟨⟩
        exact absurd hr hfalse
    · rw [Tallies.find?_set_of_ne t _ he]
  noticed hl :=
    .inr ⟨k, tally, _, hk, hreaches.2 hl, Tallies.find?_set_self .., Nat.lt_succ_self _⟩

/-- A function of the frame is met. -/
theorem function (identity : Identity) (ht : t.Right frame U (.function identity)) (h : leads) :
    Walked frame U t leads true (t.seeFunction identity) := by
  unfold Tallies.seeFunction
  cases hk : t.find? (.function identity) with
  | some tally =>
    obtain ⟨seen, reaches⟩ := tally
    obtain rfl : reaches = true := ht _ hk
    exact again hk (iff_of_true rfl h)
  | none =>
    have hfind {l : Counted} (hl : l ≠ .function identity) :
        ({ t.set (.function identity) ⟨1, true⟩ with closures := t.closures + 1 } :
          Tallies).find? l = t.find? l := Tallies.find?_set_of_ne t _ hl
    refine ⟨iff_of_true rfl h, ⟨Nat.le_succ _, fun {l tally} hl => ?_⟩, fun l hl => ?_,
      fun hn => absurd h hn, fun _ => .inl (Nat.lt_succ_self _)⟩
    · have hne : l ≠ .function identity := by
        rintro rfl
        cases hk.symm.trans hl
      exact ⟨tally, by rwa [hfind hne], rfl, Nat.le_refl _⟩
    · by_cases he : l = .function identity
      · subst he
        intro tally ht
        have hself := Tallies.find?_set_self t (.function identity) ⟨1, true⟩
        cases hself.symm.trans ht
        rfl
      · exact Tallies.right_of_find?_eq_none (by rwa [hfind he])

/-- An object is met for the first time and walked through. -/
theorem object {address : Nat} {properties : List Ref} (hU : Ref.Memory U)
    (hmem : U (.object address properties)) (hk : t.find? (.object address) = none)
    (h : Walked frame U (t.set (.object address) ⟨1, false⟩)
      ((Ref.object address properties).Leads frame) b t') :
    Walked frame U t ((Ref.object address properties).Leads frame) b
      (t'.setReaches (.object address) b) := by
  have hold {l : Counted} (hl : l ≠ .object address) :
      (t.set (.object address) ⟨1, false⟩).find? l = t.find? l := Tallies.find?_set_of_ne t _ hl
  have hne {l : Counted} {tally : Tally} (hl : t.find? l = some tally) : l ≠ .object address := by
    rintro rfl
    cases hk.symm.trans hl
  obtain ⟨inner, hinner, -, -⟩ := h.grows.kept (Tallies.find?_set_self t (.object address) _)
  have hset : t'.setReaches (.object address) b =
      t'.set (.object address) { inner with reaches := b } := by
    unfold Tallies.setReaches
    rw [hinner]
  have hself : (t'.setReaches (.object address) b).find? (.object address) =
      some { inner with reaches := b } := by
    rw [hset, Tallies.find?_set_self]
  have hother {l : Counted} (hl : l ≠ .object address) :
      (t'.setReaches (.object address) b).find? l = t'.find? l := by
    rw [hset, Tallies.find?_set_of_ne t' _ hl]
  have hclosures : (t'.setReaches (.object address) b).closures = t'.closures := by
    rw [hset]
    rfl
  refine ⟨h.reaches, ⟨?_, fun {l tally} hl => ?_⟩, fun l hl => ?_, fun hn => ⟨?_, fun l tally hr => ?_⟩,
    fun hl => ?_⟩
  · rw [hclosures]
    exact h.grows.closures
  · rw [hother (hne hl)]
    exact h.grows.kept ((hold (hne hl)).trans hl)
  · by_cases he : l = .object address
    · subst he
      intro qs hqs tally ht
      obtain rfl := hU.same hmem hqs
      cases hself.symm.trans ht
      exact h.reaches
    · exact (h.right l ((hold he).trans hl)).of_find?_eq (hother he)
  · rw [hclosures]
    exact (h.quiet hn).1
  · by_cases he : l = .object address
    · subst he
      rw [hself, hk]
      refine ⟨?_, nofun⟩
      rintro ⟨⟩
      exact absurd (h.reaches.1 hr) hn
    · rw [hother he, ← hold he]
      exact (h.quiet hn).2 l tally hr
  · rcases h.noticed hl with hlt | ⟨l, tally, tally', hl, hr, hl', hlt⟩
    · exact .inl (hclosures ▸ hlt)
    · have he : l ≠ .object address := by
        rintro rfl
        rw [Tallies.find?_set_self] at hl
        cases hl
        cases hr
      exact .inr ⟨l, tally, tally', (hold he).symm.trans hl, hr, (hother he).trans hl', hlt⟩

end Walked

namespace Ref

variable {frame : ScopeId} {U : Ref → Prop}

/-- What was tallied of functions, and of objects inside a value, is right. -/
structure Prepared (frame : ScopeId) (U : Ref → Prop) (t : Tallies) (r : Ref) : Prop where
  functions : ∀ identity, t.Right frame U (.function identity)
  objects : ∀ {address properties}, Part (.object address properties) r →
    t.Right frame U (.object address)

theorem Prepared.walked {t t' : Tallies} {leads : Prop} {b : Bool} {r : Ref}
    (h : Prepared frame U t r) (hw : Walked frame U t leads b t') : Prepared frame U t' r :=
  ⟨fun identity => hw.right_of (h.functions identity), fun hpart => hw.right_of (h.objects hpart)⟩

/-- Before the properties of an object are walked through, it has a tally that is not right yet;
but it does not lie inside them. -/
theorem Prepared.properties {t : Tallies} {address : Nat} {properties : List Ref}
    (hU : Memory U) (hmem : U (.object address properties))
    (h : Prepared frame U t (.object address properties)) {r : Ref} (hr : r ∈ properties) :
    Prepared frame U (t.set (.object address) ⟨1, false⟩) r where
  functions identity := (h.functions identity).of_find?_eq (Tallies.find?_set_of_ne t _ nofun)
  objects {address' properties'} hpart := by
    refine (h.objects (.inside hr hpart)).of_find?_eq (Tallies.find?_set_of_ne t _ ?_)
    rintro ⟨⟩
    have hinside {q s : Ref} (hp : Part q s) (hs : U s) : U q := by
      induction hp with
      | self => exact hs
      | inside hr _ ih => exact ih (hU.inside hs hr)
    obtain rfl := hU.same hmem (hinside hpart (hU.inside hmem hr))
    exact not_part_of_mem hr hpart

theorem exists_mem_cons_leads {r : Ref} {rs : List Ref} :
    (∃ q ∈ r :: rs, q.Leads frame) ↔ r.Leads frame ∨ ∃ q ∈ rs, q.Leads frame := by
  simp only [List.mem_cons, exists_eq_or_imp]

theorem leads_object_iff {address : Nat} {properties : List Ref} :
    (object address properties).Leads frame ↔ ∃ r ∈ properties, r.Leads frame := by
  constructor
  · intro h
    cases h with
    | object hr h => exact ⟨_, hr, h⟩
  · rintro ⟨r, hr, h⟩
    exact .object hr h

mutual

theorem count_walked (hU : Memory U) (r : Ref) (hr : U r) {t : Tallies}
    (ht : Prepared frame U t r) :
    Walked frame U t (r.Leads frame) (r.count frame t).1 (r.count frame t).2 := by
  match r with
  | plain => exact .nothing nofun
  | function identity scope =>
    unfold count
    by_cases hscope : scope = frame
    · subst hscope
      rw [if_pos rfl]
      exact .function identity (ht.functions identity) (.function identity)
    · rw [if_neg hscope]
      refine .nothing ?_
      rintro ⟨⟩
      exact hscope rfl
  | object address properties =>
    unfold count
    cases hk : t.find? (.object address) with
    | some tally => exact .again hk (ht.objects .self properties hr tally hk)
    | none =>
      have hinner := countAll_walked hU properties (fun q hq => hU.inside hr hq)
        fun q hq => ht.properties hU hr hq
      rw [← leads_object_iff] at hinner
      exact .object hU hr hk hinner

theorem countAll_walked (hU : Memory U) (rs : List Ref) (hrs : ∀ r ∈ rs, U r) {t : Tallies}
    (ht : ∀ r ∈ rs, Prepared frame U t r) :
    Walked frame U t (∃ r ∈ rs, r.Leads frame) (countAll frame t rs).1 (countAll frame t rs).2 := by
  match rs with
  | [] => exact .nothing nofun
  | r :: rs =>
    obtain ⟨hr, hrs⟩ := List.forall_mem_cons.1 hrs
    obtain ⟨ht, hts⟩ := List.forall_mem_cons.1 ht
    have hfirst := count_walked hU r hr ht
    have hrest := countAll_walked hU rs hrs fun q hq => (hts q hq).walked hfirst
    rw [exists_mem_cons_leads]
    exact hfirst.append hrest

end

end Ref

/-! ## What is released -/

/-- Something that reaches the frame has further references. -/
theorem escaped_iff {t all : Tallies} :
    (t.entries.any fun (k, _) =>
      (t.find? k).any fun tally => tally.reaches && tally.seen != all.seen k) = true ↔
      ∃ k tally, t.find? k = some tally ∧ tally.reaches = true ∧ tally.seen ≠ all.seen k := by
  simp only [List.any_eq_true, Option.any_eq_true, Bool.and_eq_true, bne_iff_ne]
  constructor
  · rintro ⟨⟨k, _⟩, -, tally, hk, hreaches, hne⟩
    exact ⟨k, tally, hk, hreaches, hne⟩
  · rintro ⟨k, tally, hk, hreaches, hne⟩
    exact ⟨(k, tally), Tallies.mem_of_find? hk, tally, hk, hreaches, hne⟩

/-- A frame is cleared if its own values lead to a function of the frame and no others do, and if
the asker has the only handle. -/
theorem releases_iff {frame : ScopeId} {own elsewhere : List Ref}
    (h : Ref.Consistent (own ++ elsewhere)) {handles : Nat} (hhandles : 1 ≤ handles) :
    releases frame own elsewhere handles = true ↔
      (∃ r ∈ own, r.Leads frame) ∧ (∀ r ∈ elsewhere, ¬ r.Leads frame) ∧ handles = 1 := by
  let U : Ref → Prop := fun q => ∃ r ∈ own ++ elsewhere, Ref.Part q r
  have hU : Ref.Memory U := Ref.memory_of_consistent h
  have hmem {r : Ref} (hr : r ∈ own ++ elsewhere) : U r := ⟨r, hr, .self⟩
  have hnone : ∀ r ∈ own, Ref.Prepared frame U {} r := fun r _ =>
    ⟨fun _ => Tallies.right_of_find?_eq_none rfl, fun _ => Tallies.right_of_find?_eq_none rfl⟩
  have hown := Ref.countAll_walked hU own (fun r hr => hmem (List.mem_append_left elsewhere hr))
    hnone
  have hright (k : Counted) := hown.right k rfl
  have hall := Ref.countAll_walked hU elsewhere
    (fun r hr => hmem (List.mem_append_right own hr))
    fun r _ => ⟨fun identity => hright (.function identity),
      fun {address _} _ => hright (.object address)⟩
  unfold releases
  generalize Ref.countAll frame {} own = walk at hown hall hright ⊢
  obtain ⟨leads, t⟩ := walk
  dsimp only at hown hall hright ⊢
  generalize Ref.countAll frame t elsewhere = walk' at hall ⊢
  obtain ⟨leads', all⟩ := walk'
  dsimp only at hall ⊢
  have hle := hall.grows.closures
  rw [Bool.not_eq_true', Bool.or_eq_false_iff, Bool.or_eq_false_iff, beq_eq_false_iff_ne,
    bne_eq_false_iff_eq, hown.closures_ne_zero_iff, ← Bool.not_eq_true, escaped_iff]
  constructor
  · rintro ⟨⟨hleads, hescaped⟩, hcount⟩
    refine ⟨hleads, fun r hr hl => ?_, by omega⟩
    rcases hall.noticed ⟨r, hr, hl⟩ with hlt | ⟨k, tally, tally', hk, hreaches, hk', hlt⟩
    · omega
    · refine hescaped ⟨k, tally, hk, hreaches, ?_⟩
      unfold Tallies.seen
      rw [hk']
      exact Nat.ne_of_lt hlt
  · rintro ⟨hleads, hnone, rfl⟩
    obtain ⟨hsame, hkept⟩ := hall.quiet fun ⟨r, hr, hl⟩ => hnone r hr hl
    refine ⟨⟨hleads, ?_⟩, by rw [hsame]⟩
    rintro ⟨k, tally, hk, hreaches, hne⟩
    refine hne ?_
    unfold Tallies.seen
    rw [(hkept k tally hreaches).2 hk]
    rfl

/-! ## Frames of a heap -/

namespace Ref

mutual

/-- How a value lies in memory; any address can be that of an object. -/
inductive Shows : Ref → Value → Prop
  | null : Shows .plain .null
  | number (x : Float) : Shows .plain (.number x)
  | boolean (b : Bool) : Shows .plain (.boolean b)
  | string (s : String) : Shows .plain (.string s)
  | native (n : Native) : Shows .plain (.native n)
  | function (f : Closure) : Shows (.function f.identity f.scope) (.function f)
  | object {address : Nat} {rs : List Ref} {es : List (String × Value)} (h : EntriesShow rs es) :
      Shows (.object address rs) (.object ⟨es⟩)

inductive EntriesShow : List Ref → List (String × Value) → Prop
  | nil : EntriesShow [] []
  | cons {r : Ref} {rs : List Ref} {key : String} {v : Value} {es : List (String × Value)}
      (h : Shows r v) (hs : EntriesShow rs es) : EntriesShow (r :: rs) ((key, v) :: es)

end

mutual

theorem Shows.leads_iff {frame : ScopeId} {r : Ref} {v : Value} (h : Shows r v) :
    r.Leads frame ↔ frame ∈ v.scopes := by
  match h with
  | .null | .number _ | .boolean _ | .string _ | .native _ => exact ⟨nofun, nofun⟩
  | .function f =>
    rw [Value.scopes, List.mem_singleton]
    constructor
    · rintro ⟨⟩
      rfl
    · rintro rfl
      exact .function f.identity
  | .object hs =>
    rw [leads_object_iff, hs.leads_iff]
    rfl

theorem EntriesShow.leads_iff {frame : ScopeId} {rs : List Ref} {es : List (String × Value)}
    (h : EntriesShow rs es) : (∃ r ∈ rs, r.Leads frame) ↔ frame ∈ Value.entriesScopes es := by
  match h with
  | .nil => exact ⟨nofun, nofun⟩
  | .cons h hs =>
    rw [exists_mem_cons_leads, h.leads_iff, hs.leads_iff]
    exact List.mem_append.symm

end

/-- The values lie in memory as `rs`, one by one, in any order. -/
def Lay (rs : List Ref) (vs : List Value) : Prop :=
  ∃ ws, List.Forall₂ Shows rs ws ∧ ws.Perm vs

theorem Lay.leads_iff {frame : ScopeId} {rs : List Ref} {vs : List Value} (h : Lay rs vs) :
    (∃ r ∈ rs, r.Leads frame) ↔ ∃ v ∈ vs, frame ∈ v.scopes := by
  obtain ⟨ws, hws, hperm⟩ := h
  have hone : (∃ r ∈ rs, r.Leads frame) ↔ ∃ v ∈ ws, frame ∈ v.scopes := by
    clear hperm
    induction hws with
    | nil => exact ⟨nofun, nofun⟩
    | cons h _ ih => simp only [List.mem_cons, exists_eq_or_imp, h.leads_iff, ih]
  rw [hone]
  simp only [hperm.mem_iff]

end Ref

/-- Counting references finds out whether a frame is unreachable, however its values and those of
the rest of memory share objects. -/
theorem Heap.releases_eq_unreachable {h : Heap} {i : ScopeId} {elsewhere : List Value}
    {own rest : List Ref} (hown : Ref.Lay own (h.cell i).values)
    (hrest : Ref.Lay rest (elsewhere ++ h.valuesOutside i)) (hconsistent : Ref.Consistent (own ++ rest))
    {handles : Nat} (hhandles : 1 ≤ handles) :
    releases i own rest (handles + h.children i) = h.unreachable i elsewhere handles := by
  have hmine : (h.cell i).leadsTo i = true ↔ ∃ r ∈ own, r.Leads i := by
    rw [hown.leads_iff]
    simp only [Cell.leadsTo, List.any_eq_true, List.contains_iff_mem]
  have hothers : h.escapes i elsewhere = true ↔ ∃ r ∈ rest, r.Leads i := by
    rw [hrest.leads_iff]
    simp only [escapes, List.any_eq_true, List.contains_iff_mem]
  rw [Bool.eq_iff_iff, releases_iff hconsistent (Nat.le_add_right_of_le hhandles), ← hmine]
  unfold unreachable
  rw [Bool.and_eq_true, Bool.and_eq_true, Bool.not_eq_true', ← Bool.not_eq_true, hothers, beq_iff_eq,
    and_assoc]
  simp only [not_exists, not_and]

end ScopeScript
