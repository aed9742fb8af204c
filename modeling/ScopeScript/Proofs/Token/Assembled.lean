import ScopeScript.Proofs.Token.Cut
import ScopeScript.Proofs.Token.Numbers

/-!
# Texts put together from tokens

Tokens with gaps around them make a text.  It is read as just these tokens, on the lines that the
line feeds in its gaps and strings give, as long as no two tokens touch that fuse:

    a word and a word, a number and a number, a number and a point

Any other two may touch.  The first character of a token says which class the token belongs to
(`Spelled.exists_leading`), so that a token is taken whole where nothing that it goes on with
follows (`Spelled.isLongest_iff`).
-/

namespace ScopeScript.Token

/-! ## Tokens next to each other -/

/-- Two tokens that are not read as such when nothing stands between them. -/
def Fuses (t u : Token) : Prop :=
  t.kind ∈ wordKinds ∧ u.kind ∈ wordKinds ∨
    t.kind = .number ∧ (u.kind = .number ∨ u.kind = .dot)

instance (t u : Token) : Decidable (Fuses t u) := inferInstanceAs (Decidable (_ ∨ _))

/-- Tokens that fuse have a gap between them. -/
def Parted (pieces : List Piece) : Prop :=
  pieces.IsChain fun p q => p.gap = [] → ¬ Fuses p.token q.token

/-- The line feeds in a token, which can only be a string, and in the gap after it. -/
def Piece.feeds (p : Piece) : Nat :=
  (if p.token.kind = .string then p.token.text.toList.count '\n' else 0) + p.gap.count '\n'

/-- The tokens of the pieces and an end token, the first of them on `line`. -/
def placed (line : Nat) : List Piece → List Token
  | [] => [endAt line]
  | p :: ps => { p.token with line } :: placed (line + p.feeds) ps

/-! ## Tokens by their characters -/

section Characters

variable {t : Token} {rest : List Char}

/-- A point is the only symbol that a number goes on with. -/
theorem isNumberChar_symbol_iff {c : Char} {kind : TokenKind} (hc : c ∈ symbolsOf kind) :
    isNumberChar c ↔ kind = .number ∨ kind = .dot := by
  have hkind := mem_symbolsOf_iff.1 hc
  have hdigit : c.isDigit = false := (classes_of_symbol hkind).2.2.1
  constructor
  · intro hnumber
    obtain rfl : c = '.' := by simpa [isNumberChar, hdigit] using hnumber
    exact .inr (Option.some.inj hkind).symm
  · rintro (rfl | rfl)
    · cases hc
    · obtain rfl := List.mem_singleton.1 hc
      rfl

/-- The first character of a token says which class of tokens it belongs to. -/
theorem Spelled.exists_leading (h : t.Spelled) :
    ∃ c cs, t.source.toList = c :: cs ∧ c ∉ [' ', '\t', '\r', '\n'] ∧
      (isNumberChar c ↔ t.kind = .number ∨ t.kind = .dot) ∧
      (isWordChar c ↔ t.kind ∈ wordKinds) := by
  have hblank {c : Char} (hc : isBlank c = false) : c ∉ [' ', '\t', '\r', '\n'] := by
    intro hmem
    simp only [List.mem_cons, List.not_mem_nil, or_false] at hmem
    rcases hmem with rfl | rfl | rfl | rfl <;> cases hc
  obtain ⟨kind, text, line⟩ := t
  have hword (hk : kind ∈ wordKinds) (hw : IsWord text) (hne : kind ≠ .number ∧ kind ≠ .dot) :
      ∃ c cs, (source ⟨kind, text, line⟩).toList = c :: cs ∧ c ∉ [' ', '\t', '\r', '\n'] ∧
        (isNumberChar c ↔ kind = .number ∨ kind = .dot) ∧ (isWordChar c ↔ kind ∈ wordKinds) := by
    obtain ⟨hnil, hall⟩ := hw
    obtain ⟨c, cs, htext⟩ := List.exists_cons_of_ne_nil hnil
    have hc : isWordChar c := hall c (by simp [htext])
    refine ⟨c, cs, ?_, hblank (not_blank (by decide) hc).2, ?_, iff_of_true hc hk⟩
    · rw [source_eq_text (ne_string_of_word hk), htext]
    · exact iff_of_false (fun hn => not_isWordChar_of_isNumberChar hn hc) (by simpa using hne)
  have hsymbol (hs : ∃ c ∈ symbolsOf kind, text.toList = [c]) (hkind : kind ≠ .string)
      (hk : kind ∉ wordKinds) :
      ∃ c cs, (source ⟨kind, text, line⟩).toList = c :: cs ∧ c ∉ [' ', '\t', '\r', '\n'] ∧
        (isNumberChar c ↔ kind = .number ∨ kind = .dot) ∧ (isWordChar c ↔ kind ∈ wordKinds) := by
    obtain ⟨c, hc, htext⟩ := hs
    obtain ⟨-, hnot, -, hnoword, -⟩ := classes_of_symbol (mem_symbolsOf_iff.1 hc)
    refine ⟨c, [], ?_, hblank hnot, isNumberChar_symbol_iff hc, iff_of_false (by simp [hnoword]) hk⟩
    rw [source_eq_text hkind, htext]
  cases kind with
  | number =>
    obtain ⟨c, cs, htext, hc, -, -⟩ := h
    have hnumber : isNumberChar c := by simp [isNumberChar, hc]
    refine ⟨c, cs, ?_, hblank (not_blank (by decide) hc).2, iff_of_true hnumber (.inl rfl), ?_⟩
    · rw [source_eq_text (by rintro ⟨⟩), htext]
    · exact iff_of_false (not_isWordChar_of_isNumberChar hnumber) (by simp [wordKinds])
  | identifier | letKeyword | constKeyword | fnKeyword =>
    have hk := h.isWord (by simp [wordKinds])
    exact hword (by simp [wordKinds]) hk ⟨by rintro ⟨⟩, by rintro ⟨⟩⟩
  | string =>
    refine ⟨'"', text.toList ++ ['"'], by simp [source], by decide, ?_, ?_⟩
    · exact iff_of_false (by decide) (by simp)
    · exact iff_of_false (by decide) (by simp [wordKinds])
  | eof => exact absurd h id
  | _ => exact hsymbol h (by rintro ⟨⟩) (by simp [wordKinds])

/-- Only strings have line feeds in them. -/
theorem Spelled.count_source (h : t.Spelled) :
    t.source.toList.count '\n' = if t.kind = .string then t.text.toList.count '\n' else 0 := by
  obtain ⟨kind, text, line⟩ := t
  have hsymbol (hs : ∃ c ∈ symbolsOf kind, text.toList = [c]) : text.toList.count '\n' = 0 := by
    obtain ⟨c, hc, htext⟩ := hs
    have hfeed := (classes_of_symbol (mem_symbolsOf_iff.1 hc)).1
    simp [htext, hfeed]
  cases kind with
  | number =>
    obtain ⟨c, cs, htext, hc, hcs, -⟩ := h
    show text.toList.count '\n' = 0
    rw [htext]
    refine count_feed (q := isNumberChar) (by decide) (List.forall_mem_cons.2 ⟨?_, hcs⟩)
    simp [isNumberChar, hc]
  | identifier | letKeyword | constKeyword | fnKeyword =>
    exact count_feed (by decide) (h.isWord (by simp [wordKinds])).2
  | string => simp [source]
  | eof => exact absurd h id
  | _ => exact hsymbol h

/-- A token is the longest match in front of what does not go on with it, and of nothing else. -/
theorem Spelled.isLongest_iff (h : t.Spelled) :
    IsLongest t.source.toList rest ↔
      (t.kind = .number → ∀ c ∈ rest.head?, ¬ isNumberChar c) ∧
        (t.kind ∈ wordKinds → ∀ c ∈ rest.head?, ¬ isWordChar c) := by
  refine ⟨fun hlongest => ⟨h.not_isNumberChar_after hlongest, h.not_isWordChar_after hlongest⟩, ?_⟩
  rintro ⟨hnumber, hword⟩
  obtain ⟨kind, text, line⟩ := t
  have hwhole (hk : kind ∈ wordKinds) (hw : IsWord text) :
      IsLongest (source ⟨kind, text, line⟩).toList rest := by
    obtain ⟨hnil, hall⟩ := hw
    obtain ⟨c, cs, htext⟩ := List.exists_cons_of_ne_nil hnil
    rw [htext] at hall
    rw [source_eq_text (ne_string_of_word hk), htext]
    exact isLongest_word (hall c List.mem_cons_self)
      (fun d hd => hall d (List.mem_cons_of_mem c hd)) fun d hd => Bool.eq_false_iff.2 (hword hk d hd)
  have hsymbol (hs : ∃ c ∈ symbolsOf kind, text.toList = [c]) (hkind : kind ≠ .string) :
      IsLongest (source ⟨kind, text, line⟩).toList rest := by
    obtain ⟨c, hc, htext⟩ := hs
    rw [source_eq_text hkind, htext]
    exact isLongest_symbol hc
  cases kind with
  | number =>
    obtain ⟨c, cs, htext, hc, hcs, -⟩ := h
    rw [source_eq_text (by rintro ⟨⟩), htext]
    exact isLongest_number hc hcs fun d hd => Bool.eq_false_iff.2 (hnumber rfl d hd)
  | identifier | letKeyword | constKeyword | fnKeyword =>
    exact hwhole (by simp [wordKinds]) (h.isWord (by simp [wordKinds]))
  | string =>
    have hsource : (source ⟨.string, text, line⟩).toList = '"' :: (text.toList ++ ['"']) := by
      simp [source]
    rw [hsource]
    exact isLongest_string h
  | eof => exact absurd h id
  | _ => exact hsymbol h (by rintro ⟨⟩)

end Characters

/-! ## Reading -/

section Reading

variable {t : Token} {line : Nat} {rest : List Char} {pieces : List Piece}

theorem IsGap.scan_eq {gap : List Char} (h : IsGap gap) (line : Nat) (rest : List Char) :
    scan line (gap ++ rest) = scan (line + gap.count '\n') rest := by
  refine scan_gap (fun c hc => ?_) line rest
  have hmem := h c hc
  simp only [List.mem_cons, List.not_mem_nil, or_false] at hmem
  rcases hmem with rfl | rfl | rfl | rfl <;> rfl

/-- Whatever a gap starts with, no token goes on with it. -/
theorem IsGap.endsToken {gap : List Char} (h : IsGap gap) : ∀ c ∈ gap.head?, EndsToken c := by
  intro c hc
  have hmem := h c (List.mem_of_mem_head? hc)
  simp only [List.mem_cons, List.not_mem_nil, or_false] at hmem
  rcases hmem with rfl | rfl | rfl | rfl <;> exact .of_blank rfl

/-- A token of a text is taken whole if what touches it does not fuse with it, and only then. -/
theorem isLongest_piece_iff {p : Piece} (hp : p.token.Spelled) (hgap : IsGap p.gap)
    (hpieces : ∀ q ∈ pieces, q.token.Spelled) :
    IsLongest p.token.source.toList (p.gap ++ pieces.flatMap Piece.chars) ↔
      ∀ q ∈ pieces.head?, p.gap = [] → ¬ Fuses p.token q.token := by
  rw [hp.isLongest_iff]
  cases hg : p.gap with
  | cons c cs =>
    have hc : EndsToken c := hgap.endsToken c (by simp [hg])
    simp [hc.1, hc.2]
  | nil =>
    cases pieces with
    | nil => simp
    | cons q pieces =>
      obtain ⟨c, cs, hsource, -, hnumber, hword⟩ := (hpieces q List.mem_cons_self).exists_leading
      have hhead : (([] : List Char) ++ (q :: pieces).flatMap Piece.chars).head? = some c := by
        simp [Piece.chars, hsource]
      rw [hhead]
      simp only [Option.mem_def, Option.some.injEq, forall_eq', List.head?_cons, hnumber, hword]
      constructor
      · rintro ⟨hpnumber, hpword⟩ - (⟨hp, hq⟩ | ⟨hp, hq⟩)
        · exact hpword hp hq
        · exact hpnumber hp hq
      · intro h
        exact ⟨fun hp hq => h trivial (.inr ⟨hp, hq⟩),
          fun hp hq => h trivial (.inl ⟨hp, hq⟩)⟩

/-- The scanner takes the token in front whole only if it is the longest match. -/
theorem isLongest_of_scan (ht : t.Spelled) {u : Token} {us : List Token}
    (hscan : scan line (t.source.toList ++ rest) = .ok (u :: us)) (hu : u.unlined = t.unlined) :
    IsLongest t.source.toList rest := by
  obtain ⟨c, cs, hsource, hblank, -, -⟩ := ht.exists_leading
  have hcons : t.source.toList ++ rest = c :: (cs ++ rest) := by rw [hsource, List.cons_append]
  rcases front line hblank (cs ++ rest) with ⟨v, after, -, hv⟩ | ⟨e, he⟩
  · rw [hcons, hv.scan_eq line] at hscan
    obtain ⟨us', -, hcons'⟩ := exists_of_map_cons_eq_ok hscan
    obtain ⟨rfl, -⟩ := List.cons.inj hcons'
    obtain ⟨hkind, htext, -⟩ := Token.mk.inj hu
    change v.kind = t.kind at hkind
    change v.text = t.text at htext
    have hvt : v.source = t.source := by simp only [source, hkind, htext]
    have hsplit := hv.split
    rw [← hcons, hvt] at hsplit
    rw [List.append_cancel_left hsplit, ← hvt]
    exact hv.longest
  · rw [hcons, he.scan_eq] at hscan
    cases hscan

/-- What stands in front is taken off, token and gap. -/
theorem scan_piece {p : Piece} (hp : p.token.Spelled) (hgap : IsGap p.gap)
    (hlongest : IsLongest p.token.source.toList (p.gap ++ rest)) (line : Nat) :
    scan line (p.chars ++ rest) =
      (scan (line + p.feeds) rest).map ({ p.token with line } :: ·) := by
  have hfront : InFront p.token (p.token.source.toList ++ (p.gap ++ rest)) (p.gap ++ rest) :=
    ⟨rfl, hp, hlongest⟩
  rw [Piece.chars, List.append_assoc, hfront.scan_eq line, hgap.scan_eq, hp.count_source,
    Nat.add_assoc]
  rfl

theorem scan_pieces (hpieces : ∀ p ∈ pieces, p.token.Spelled ∧ IsGap p.gap)
    (hparted : Parted pieces) (line : Nat) :
    scan line (pieces.flatMap Piece.chars) = .ok (placed line pieces) := by
  induction pieces generalizing line with
  | nil => exact scan_nil
  | cons p pieces ih =>
    obtain ⟨⟨hp, hgap⟩, hrest⟩ := List.forall_mem_cons.1 hpieces
    obtain ⟨hnext, hparted⟩ := List.isChain_cons.1 hparted
    have hlongest := (isLongest_piece_iff hp hgap fun q hq => (hrest q hq).1).2 hnext
    rw [List.flatMap_cons, scan_piece hp hgap hlongest, ih hrest hparted]
    rfl

/-- If the tokens come back, those that fuse were parted. -/
theorem parted_of_scan (hpieces : ∀ p ∈ pieces, p.token.Spelled ∧ IsGap p.gap) {line : Nat}
    {tokens : List Token} (hscan : scan line (pieces.flatMap Piece.chars) = .ok tokens)
    (htokens : tokens.map unlined = (placed line pieces).map unlined) : Parted pieces := by
  induction pieces generalizing line tokens with
  | nil => exact .nil
  | cons p pieces ih =>
    obtain ⟨⟨hp, hgap⟩, hrest⟩ := List.forall_mem_cons.1 hpieces
    obtain ⟨u, us, rfl, hu, hus⟩ := List.map_eq_cons_iff.1 htokens
    have hlongest : IsLongest p.token.source.toList (p.gap ++ pieces.flatMap Piece.chars) := by
      rw [List.flatMap_cons, Piece.chars, List.append_assoc] at hscan
      exact isLongest_of_scan hp hscan hu
    have hnext := (isLongest_piece_iff hp hgap fun q hq => (hrest q hq).1).1 hlongest
    rw [List.flatMap_cons, scan_piece hp hgap hlongest] at hscan
    obtain ⟨us', hus', hcons⟩ := exists_of_map_cons_eq_ok hscan
    obtain ⟨-, rfl⟩ := List.cons.inj hcons
    exact List.isChain_cons.2 ⟨hnext, ih hrest hus' hus⟩

end Reading

/-! ## Whole texts -/

/-- A text made of tokens and gaps is read as these tokens on their lines if those that fuse are
parted.  If they are not, it is read as other tokens, or not at all. -/
theorem tokensOf_assembled {lead : List Char} {pieces : List Piece} (hlead : IsGap lead)
    (hpieces : ∀ p ∈ pieces, p.token.Spelled ∧ IsGap p.gap) :
    let source := String.ofList (lead ++ pieces.flatMap Piece.chars)
    let tokens := placed (1 + lead.count '\n') pieces
    (Parted pieces → tokensOf source = .ok tokens) ∧
      (¬ Parted pieces → ∀ us, tokensOf source = .ok us → us.map unlined ≠ tokens.map unlined) := by
  intro source tokens
  have hscan : tokensOf source = scan (1 + lead.count '\n') (pieces.flatMap Piece.chars) := by
    rw [tokensOf, String.toList_ofList, hlead.scan_eq]
  rw [hscan]
  constructor
  · intro hparted
    exact scan_pieces hpieces hparted _
  · intro hfused us hus htokens
    exact hfused (parted_of_scan hpieces hus htokens)

/-- Tokens that touch wherever they may, over four lines; `2.` and the point may not. -/
def crowded : List Piece :=
  [⟨⟨.number, "1", 0⟩, []⟩, ⟨⟨.identifier, "a", 0⟩, []⟩, ⟨⟨.number, "2.", 0⟩, [' ']⟩,
    ⟨⟨.dot, ".", 0⟩, []⟩, ⟨⟨.number, "5", 0⟩, []⟩, ⟨⟨.string, "x\ny", 0⟩, []⟩,
    ⟨⟨.string, "", 0⟩, ['\r', '\n']⟩, ⟨⟨.letKeyword, "let", 0⟩, []⟩]

/-- A number and a point, which touch. -/
def fused : List Piece := [⟨⟨.number, "1", 0⟩, []⟩, ⟨⟨.dot, ".", 0⟩, []⟩]

theorem tokensOf_assembled_crowded :
    let source := "\n1a2. .5\"x\ny\"\"\"\r\nlet"
    let tokens : List Token :=
      [⟨.number, "1", 2⟩, ⟨.identifier, "a", 2⟩, ⟨.number, "2.", 2⟩, ⟨.dot, ".", 2⟩,
        ⟨.number, "5", 2⟩, ⟨.string, "x\ny", 2⟩, ⟨.string, "", 3⟩, ⟨.letKeyword, "let", 4⟩,
        ⟨.eof, "", 4⟩]
    source = String.ofList (['\n'] ++ crowded.flatMap Piece.chars) ∧
      IsGap ['\n'] ∧ (∀ p ∈ crowded, p.token.Spelled ∧ IsGap p.gap) ∧ Parted crowded ∧
      tokensOf source = .ok tokens ∧ ¬ Parted fused ∧
      ∀ us, tokensOf "1." = .ok us →
        us.map unlined ≠ [⟨.number, "1", 0⟩, ⟨.dot, ".", 0⟩, ⟨.eof, "", 0⟩] := by
  intro source tokens
  have hgap {gap : List Char} (h : gap.all (· ∈ [' ', '\t', '\r', '\n'])) : IsGap gap := by
    intro c hc
    simpa using List.all_eq_true.1 h c hc
  have hlead : IsGap ['\n'] := hgap (by decide)
  have hpieces : ∀ p ∈ crowded, p.token.Spelled ∧ IsGap p.gap := by
    simp only [crowded, List.forall_mem_cons]
    refine ⟨⟨⟨'1', [], rfl, rfl, nofun, by decide⟩, hgap (by decide)⟩,
      ⟨⟨.of_all (by decide) rfl, by decide, by decide, by decide⟩, hgap (by decide)⟩,
      ⟨⟨'2', ['.'], rfl, rfl, by simp [isNumberChar], by decide⟩, hgap (by decide)⟩,
      ⟨⟨'.', by decide, rfl⟩, hgap (by decide)⟩,
      ⟨⟨'5', [], rfl, rfl, nofun, by decide⟩, hgap (by decide)⟩,
      ⟨(by decide : '"' ∉ "x\ny".toList), hgap (by decide)⟩,
      ⟨(by decide : '"' ∉ "".toList), hgap (by decide)⟩, ⟨rfl, hgap (by decide)⟩, nofun⟩
  have hparted : Parted crowded := by
    unfold Parted crowded
    decide
  have hfused : ∀ p ∈ fused, p.token.Spelled ∧ IsGap p.gap := by
    simp only [fused, List.forall_mem_cons]
    exact ⟨⟨⟨'1', [], rfl, rfl, nofun, by decide⟩, hgap rfl⟩,
      ⟨⟨'.', by decide, rfl⟩, hgap rfl⟩, nofun⟩
  have htouch : ¬ Parted fused := by
    unfold Parted fused
    decide
  exact ⟨by decide, hlead, hpieces, hparted, (tokensOf_assembled hlead hpieces).1 hparted, htouch,
    (tokensOf_assembled (nofun : IsGap []) hfused).2 htouch⟩

end ScopeScript.Token
