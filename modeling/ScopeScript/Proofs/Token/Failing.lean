import Mathlib.Logic.Relation
import ScopeScript.Proofs.Token.Patterns

/-!
# Where reading fails

A text that has no tokens is tokens and blanks up to one position, and at that position stands
something that no token starts with (`Offends`).  The position is a boundary between tokens of the
whole text: what stands before it can be read, and none of its tokens would go on after it.

    source = read ++ unread,   source → … → unread,   unread offends

Every step `→` drops one blank or takes one token.  The steps go one way only and none of them
leaves an offending text, so there is one such position, and `tokensOf` finds it.
-/

namespace ScopeScript.Token

/-! ## Steps -/

/-- One blank or one token less. -/
inductive Next : List Char → List Char → Prop
  | blank {c : Char} {cs : List Char} (hc : c ∈ [' ', '\t', '\r', '\n']) : Next (c :: cs) cs
  | token {t : Token} {cs rest : List Char} (h : InFront t cs rest) : Next cs rest

section Steps

variable {line : Nat} {t : Token} {c : Char} {cs rest unread : List Char}

/-- What a token starts with. -/
theorem Spelled.exists_first (h : t.Spelled) :
    ∃ c cs, t.source.toList = c :: cs ∧
      (t.kind = .number ∧ c.isDigit ∧ (∀ d ∈ cs, isNumberChar d) ∧ cs.count '.' ≤ 1 ∨
        isWordChar c ∨ (c = '"' ∧ '"' ∈ cs) ∨ ∃ kind, c ∈ symbolsOf kind) := by
  by_cases hk : t.kind ∈ wordKinds
  · obtain ⟨hne, hchars⟩ := h.isWord hk
    obtain ⟨c, cs, htext⟩ := List.exists_cons_of_ne_nil hne
    rw [htext] at hchars
    refine ⟨c, cs, ?_, .inr (.inl (hchars c List.mem_cons_self))⟩
    rw [source_eq_text (ne_string_of_word hk), htext]
  obtain ⟨kind, text, line⟩ := t
  have hsymbol (hne : kind ≠ .string) (hs : ∃ c ∈ symbolsOf kind, text.toList = [c]) :
      ∃ c cs, (source ⟨kind, text, line⟩).toList = c :: cs ∧ ∃ kind, c ∈ symbolsOf kind := by
    obtain ⟨c, hc, htext⟩ := hs
    exact ⟨c, [], by rw [source_eq_text hne, htext], kind, hc⟩
  cases kind with
  | number =>
    obtain ⟨c, cs, htext, hc, hcs, hpoints⟩ := h
    exact ⟨c, cs, htext, .inl ⟨rfl, hc, hcs, hpoints⟩⟩
  | identifier | letKeyword | constKeyword | fnKeyword => simp [wordKinds] at hk
  | string => exact ⟨'"', text.toList ++ ['"'], by simp [source], .inr (.inr (.inl (by simp)))⟩
  | eof => exact absurd h id
  | _ =>
    obtain ⟨c, cs, hsource, hc⟩ := hsymbol (by decide) h
    exact ⟨c, cs, hsource, .inr (.inr (.inr hc))⟩

/-- No token starts with a blank. -/
theorem InFront.not_blank (h : InFront t (c :: cs) rest) : c ∉ [' ', '\t', '\r', '\n'] := by
  obtain ⟨d, ds, hsource, hfirst⟩ := h.spelled.exists_first
  have hsplit := h.split
  rw [hsource, List.cons_append] at hsplit
  obtain rfl : c = d := (List.cons.inj hsplit).1
  intro hblank
  simp only [List.mem_cons, List.not_mem_nil, or_false] at hblank
  rcases hfirst with ⟨-, hdigit, -⟩ | hword | ⟨hquote, -⟩ | ⟨kind, hkind⟩
  · rcases hblank with rfl | rfl | rfl | rfl <;> cases hdigit
  · rcases hblank with rfl | rfl | rfl | rfl <;> cases hword
  · rcases hblank with rfl | rfl | rfl | rfl <;> cases hquote
  · rcases hblank with rfl | rfl | rfl | rfl <;> cases mem_symbolsOf_iff.1 hkind

/-- Two tokens in front take the same piece, the longest one. -/
theorem InFront.rest_unique {t' : Token} {rest' : List Char} (h : InFront t cs rest)
    (h' : InFront t' cs rest') : rest = rest' := by
  have hsplit : t.source.toList ++ rest = t'.source.toList ++ rest' := h.split.symm.trans h'.split
  have hle := h'.longest.longest t.source.toList (hsplit ▸ List.prefix_append _ _) h.longest.lexeme
  have hge := h.longest.longest t'.source.toList (hsplit ▸ List.prefix_append _ _) h'.longest.lexeme
  exact (List.append_inj hsplit (Nat.le_antisymm hle hge)).2

theorem Next.rightUnique : Relator.RightUnique Next := by
  intro cs rest rest' h h'
  cases h with
  | blank hc =>
    cases h' with
    | blank _ => rfl
    | token ht' => exact absurd hc ht'.not_blank
  | token ht =>
    cases h' with
    | blank hc => exact absurd hc ht.not_blank
    | token ht' => exact ht.rest_unique ht'

/-- No token starts with what offends. -/
theorem Offends.not_inFront {e : ScanError} (h : Offends line cs e) : ¬ InFront t cs rest := by
  intro ht
  obtain ⟨d, ds, hsource, hfirst⟩ := ht.spelled.exists_first
  have hsplit := ht.split
  rw [hsource, List.cons_append] at hsplit
  cases h with
  | string hopen =>
    obtain ⟨rfl, rfl⟩ := List.cons.inj hsplit
    rcases hfirst with ⟨-, hdigit, -⟩ | hword | ⟨-, hclosed⟩ | ⟨kind, hkind⟩
    · cases hdigit
    · cases hword
    · exact hopen (List.mem_append_left rest hclosed)
    · cases mem_symbolsOf_iff.1 hkind
  | @number c run after hc hrun hafter hpoints =>
    obtain ⟨rfl, htail⟩ := List.cons.inj hsplit
    rcases hfirst with ⟨-, -, hds, hone⟩ | hword | ⟨rfl, -⟩ | ⟨kind, hkind⟩
    · have hle := ht.longest.longest (c :: run) (by rw [← ht.split]; exact List.prefix_append _ _)
        (.number hc hrun)
      have hge : ds.length ≤ run.length :=
        length_le_of_prefix ⟨rest, htail.symm⟩ hds hafter
      rw [hsource, List.length_cons, List.length_cons] at hle
      obtain ⟨rfl, -⟩ := List.append_inj htail (Nat.le_antisymm (Nat.le_of_succ_le_succ hle) hge)
      have hpoint : c ≠ '.' := by
        rintro rfl
        cases hc
      rw [List.count_cons_of_ne hpoint] at hpoints
      omega
    · rw [isDigit_of_isWordChar hword] at hc
      cases hc
    · cases hc
    · rw [(classes_of_symbol (mem_symbolsOf_iff.1 hkind)).2.2.1] at hc
      cases hc
  | char hblank hletter hunderscore hdigit hquote hsymbol =>
    obtain ⟨rfl, -⟩ := List.cons.inj hsplit
    rcases hfirst with ⟨-, hdigit', -⟩ | hword | ⟨hquote', -⟩ | ⟨kind, hkind⟩
    · rw [hdigit] at hdigit'
      cases hdigit'
    · simp [isWordChar, hletter, hunderscore] at hword
    · exact hquote hquote'
    · exact hsymbol kind hkind

/-- Nor with a blank: an offending text is where the steps end. -/
theorem Offends.not_next {e : ScanError} (h : Offends line cs e) : ¬ Next cs rest := by
  rintro (hc | ht)
  · simp only [List.mem_cons, List.not_mem_nil, or_false] at hc
    cases h with
    | string => rcases hc with hc | hc | hc | hc <;> cases hc
    | number hdigit => rcases hc with rfl | rfl | rfl | rfl <;> cases hdigit
    | char hblank => exact hblank (by simpa using hc)
  · exact h.not_inFront ht

/-! ## Runs -/

/-- A match that is longest is so in front of less, too. -/
theorem IsLongest.of_append {more : List Char} (h : IsLongest cs (rest ++ more)) :
    IsLongest cs rest where
  lexeme := h.lexeme
  longest p hp := h.longest p (hp.trans ⟨more, by simp⟩)

/-- What is read on the way from `cs` to `unread` gives its tokens, with or without the rest. -/
theorem scan_steps (h : Relation.ReflTransGen Next cs unread) :
    ∃ read, cs = read ++ unread ∧ ∀ line, ∃ ts,
      scan line cs = (scan (line + read.count '\n') unread).map (ts ++ ·) ∧
      scan line read = .ok (ts ++ [endAt (line + read.count '\n')]) := by
  induction h using Relation.ReflTransGen.head_induction_on with
  | refl =>
    refine ⟨[], rfl, fun line => ⟨[], ?_, scan_nil⟩⟩
    show scan line unread = (scan line unread).map id
    cases scan line unread <;> rfl
  | @head cs mid hnext _ ih =>
    obtain ⟨read, rfl, hread⟩ := ih
    cases hnext with
    | @blank c _ hc =>
      refine ⟨c :: read, rfl, fun line => ?_⟩
      obtain ⟨ts, hall, hpart⟩ := hread (line + [c].count '\n')
      have hcount : line + (c :: read).count '\n' =
          line + [c].count '\n' + read.count '\n' := by
        rw [← List.singleton_append, List.count_append, Nat.add_assoc]
      rw [hcount, scan_blank_cons hc, scan_blank_cons hc]
      exact ⟨ts, hall, hpart⟩
    | @token t _ _ ht =>
      have hpart : InFront t (t.source.toList ++ read) read :=
        ⟨rfl, ht.spelled, ht.longest.of_append⟩
      refine ⟨t.source.toList ++ read, by rw [ht.split, List.append_assoc], fun line => ?_⟩
      obtain ⟨ts, hall, hpart'⟩ := hread (line + t.source.toList.count '\n')
      rw [List.count_append, ← Nat.add_assoc]
      refine ⟨⟨t.kind, t.text, line⟩ :: ts, ?_, ?_⟩
      · rw [ht.scan_eq line, hall]
        cases scan _ unread <;> rfl
      · rw [hpart.scan_eq line, hpart']
        rfl

theorem eq_error_of_map_cons {r : Except ScanError (List Token)} {e : ScanError}
    (h : r.map (t :: ·) = .error e) : r = .error e := by
  cases r with
  | ok ts => cases h
  | error e' =>
    cases h
    rfl

/-- A scanner that fails gets as far as something that offends. -/
theorem exists_offends {e : ScanError} (h : scan line cs = .error e) :
    ∃ read unread, cs = read ++ unread ∧ Relation.ReflTransGen Next cs unread ∧
      Offends (line + read.count '\n') unread e := by
  induction line, cs using scan_induction with
  | nil line =>
    rw [scan_nil] at h
    cases h
  | @blank line c cs hblank ih =>
    rw [scan_blank_cons hblank] at h
    obtain ⟨read, unread, rfl, hsteps, hoffends⟩ := ih h
    refine ⟨c :: read, unread, rfl, .head (.blank hblank) hsteps, ?_⟩
    rwa [← List.singleton_append, List.count_append, ← Nat.add_assoc]
  | @token t cs rest ht ih =>
    rw [ht.scan_eq t.line] at h
    obtain ⟨read, unread, hsplit, hsteps, hoffends⟩ := ih (eq_error_of_map_cons h)
    refine ⟨t.source.toList ++ read, unread, ?_, .head (.token ht) hsteps, ?_⟩
    · rw [ht.split, hsplit, List.append_assoc]
    · rwa [List.count_append, ← Nat.add_assoc]
  | offends he =>
    rw [he.scan_eq] at h
    cases h
    exact ⟨[], _, rfl, .refl, he⟩

end Steps

/-! ## Whole texts -/

/-- A boundary between tokens of `source`, with something that offends after it. -/
structure FailsAt (source : String) (read unread : List Char) (e : ScanError) : Prop where
  split : source.toList = read ++ unread
  boundary : Relation.ReflTransGen Next source.toList unread
  readable : ∃ ts, tokensOf (String.ofList read) = .ok ts
  offends : Offends (1 + read.count '\n') unread e

section Failing

variable {source : String} {read unread read' unread' : List Char} {e e' : ScanError}

/-- Of two positions that steps lead to, neither is before the other if both offend. -/
theorem FailsAt.unread_unique (h : FailsAt source read unread e)
    (h' : FailsAt source read' unread' e') : unread = unread' := by
  have hstays {cs cs' : List Char} (hnone : ∀ rest, ¬ Next cs rest)
      (hsteps : Relation.ReflTransGen Next cs cs') : cs = cs' := by
    rcases hsteps.cases_head with heq | ⟨mid, hnext, -⟩
    · exact heq
    · exact absurd hnext (hnone mid)
  rcases Relation.ReflTransGen.total_of_right_unique Next.rightUnique h.boundary h'.boundary with
    hsteps | hsteps
  · exact hstays (fun _ => h.offends.not_next) hsteps
  · exact (hstays (fun _ => h'.offends.not_next) hsteps).symm

theorem FailsAt.tokensOf_eq (h : FailsAt source read unread e) : tokensOf source = .error e := by
  obtain ⟨before, hsplit, hread⟩ := scan_steps h.boundary
  obtain rfl : read = before := List.append_cancel_right (h.split.symm.trans hsplit)
  obtain ⟨ts, hall, -⟩ := hread 1
  rw [tokensOf, hall, h.offends.scan_eq]
  rfl

/-- A text has no tokens just if it offends at some boundary between tokens, and then for what
offends there.  There is no second such position, before it or after it. -/
theorem tokensOf_fails (source : String) :
    (∀ e, tokensOf source = .error e ↔ ∃ read unread, FailsAt source read unread e) ∧
      ∀ {read unread e read' unread' e'}, FailsAt source read unread e →
        FailsAt source read' unread' e' → read = read' ∧ unread = unread' ∧ e = e' := by
  refine ⟨fun e => ⟨fun h => ?_, fun ⟨read, unread, h⟩ => h.tokensOf_eq⟩, fun h h' => ?_⟩
  · obtain ⟨read, unread, hsplit, hsteps, hoffends⟩ := exists_offends h
    obtain ⟨before, hbefore, hread⟩ := scan_steps hsteps
    obtain rfl : read = before := List.append_cancel_right (hsplit.symm.trans hbefore)
    obtain ⟨ts, -, hpart⟩ := hread 1
    have hreadable : tokensOf (String.ofList read) =
        .ok (ts ++ [endAt (1 + read.count '\n')]) := by
      rw [tokensOf, String.toList_ofList]
      exact hpart
    exact ⟨read, unread, hsplit, hsteps, ⟨_, hreadable⟩, hoffends⟩
  · obtain rfl := h.unread_unique h'
    have hread := List.append_cancel_right (h.split.symm.trans h'.split)
    exact ⟨hread, rfl, Except.error.inj (h.tokensOf_eq.symm.trans h'.tokensOf_eq)⟩

end Failing

/-- A number that goes on over its second point, after a string over two lines. -/
example : tokensOf "\"a\n\" 1.2.3@" = .error (.malformedNumber "1.2.3" 2) := by cbv

/-! ## Lines -/

/-- On this line a token of `source` starts, or its end is, or something that offends. -/
def StartsOn (source : String) (line : Nat) : Prop :=
  ∃ read unread, source.toList = read ++ unread ∧
    Relation.ReflTransGen Next source.toList unread ∧ line = 1 + read.count '\n' ∧
    (unread = [] ∨ (∃ t rest, InFront t unread rest) ∨ ∃ e, Offends line unread e)

section Lines

variable {source : String} {line : Nat} {cs : List Char} {ts : List Token} {t : Token}

theorem StartsOn.bounds (h : StartsOn source line) :
    1 ≤ line ∧ line ≤ 1 + source.toList.count '\n' := by
  obtain ⟨read, unread, hsplit, -, rfl, -⟩ := h
  rw [hsplit, List.count_append]
  omega

/-- The scanner gives a token the line of the place where it finds it. -/
theorem exists_start (h : scan line cs = .ok ts) (ht : t ∈ ts) :
    ∃ read unread, cs = read ++ unread ∧ Relation.ReflTransGen Next cs unread ∧
      t.line = line + read.count '\n' ∧ (unread = [] ∨ ∃ rest, InFront t unread rest) := by
  induction line, cs using scan_induction generalizing ts with
  | nil line =>
    rw [scan_nil] at h
    cases h
    obtain rfl := List.mem_singleton.1 ht
    exact ⟨[], [], rfl, .refl, rfl, .inl rfl⟩
  | @blank line c cs hblank ih =>
    rw [scan_blank_cons hblank] at h
    obtain ⟨read, unread, rfl, hsteps, hline, hfront⟩ := ih h ht
    refine ⟨c :: read, unread, rfl, .head (.blank hblank) hsteps, ?_, hfront⟩
    rwa [← List.singleton_append, List.count_append, ← Nat.add_assoc]
  | @token u cs rest hu ih =>
    rw [hu.scan_eq u.line] at h
    obtain ⟨us, hus, rfl⟩ := exists_of_map_cons_eq_ok h
    rcases List.mem_cons.1 ht with rfl | ht
    · exact ⟨[], cs, rfl, .refl, rfl, .inr ⟨rest, hu⟩⟩
    · obtain ⟨read, unread, hsplit, hsteps, hline, hfront⟩ := ih hus ht
      refine ⟨u.source.toList ++ read, unread, ?_, .head (.token hu) hsteps, ?_, hfront⟩
      · rw [hu.split, hsplit, List.append_assoc]
      · rwa [List.count_append, ← Nat.add_assoc]
  | offends he =>
    rw [he.scan_eq] at h
    cases h

theorem startsOn_of_mem (h : tokensOf source = .ok ts) (ht : t ∈ ts) :
    StartsOn source t.line := by
  obtain ⟨read, unread, hsplit, hsteps, hline, hfront⟩ := exists_start h ht
  exact ⟨read, unread, hsplit, hsteps, hline, hfront.imp_right fun hrest => .inl ⟨t, hrest⟩⟩

theorem startsOn_of_error {e : ScanError} (h : tokensOf source = .error e) :
    StartsOn source e.line := by
  obtain ⟨read, unread, hsplit, hsteps, hoffends⟩ := exists_offends h
  have hline : e.line = 1 + read.count '\n' := by
    cases hoffends <;> rfl
  exact ⟨read, unread, hsplit, hsteps, hline, .inr (.inr ⟨e, hline ▸ hoffends⟩)⟩

end Lines

end ScopeScript.Token
