import ScopeScript.Proofs.Token.Patterns

/-!
# Texts cut into tokens

A text that has tokens is made of them and of gaps, which are blanks:

    gap₀ token₁ gap₁ … tokenₙ gapₙ

No character is lost or taken twice.  Every token is the longest piece that any pattern of the
language matches where it starts (`IsLongest`), and its text and kind fit each other (`Spelled`).
Its line is found by counting the line feeds before its first character.

`Cut line cs ts` follows the scanner from token to token.  `tokensOf_cut` says the same about the
positions of a whole text.
-/

namespace ScopeScript.Token

/-! ## The scanner cuts -/

def IsGap (cs : List Char) : Prop := ∀ c ∈ cs, c ∈ [' ', '\t', '\r', '\n']

/-- The tokens that `cs` is cut into, with `line` as the line of its first character. -/
inductive Cut : Nat → List Char → List Token → Prop
  | done {line : Nat} {gap : List Char} (hgap : IsGap gap) :
      Cut line gap [endAt (line + gap.count '\n')]
  | token {line : Nat} {gap rest : List Char} {t : Token} {ts : List Token} (hgap : IsGap gap)
      (hline : t.line = line + gap.count '\n') (hspelled : t.Spelled)
      (hlongest : IsLongest t.source.toList rest)
      (hrest : Cut (t.line + t.source.toList.count '\n') rest ts) :
      Cut line (gap ++ (t.source.toList ++ rest)) (t :: ts)

section Scanner

variable {line : Nat} {c : Char} {cs : List Char} {ts : List Token}

/-- A blank in front goes to the first gap. -/
theorem Cut.blank (hc : c ∈ [' ', '\t', '\r', '\n']) (h : Cut (line + [c].count '\n') cs ts) :
    Cut line (c :: cs) ts := by
  have hgap {gap : List Char} (hgap : IsGap gap) : IsGap (c :: gap) :=
    List.forall_mem_cons.2 ⟨hc, hgap⟩
  have hcount (gap : List Char) :
      line + (c :: gap).count '\n' = line + [c].count '\n' + gap.count '\n' := by
    rw [← List.singleton_append, List.count_append, Nat.add_assoc]
  cases h with
  | @done _ gap hdone =>
    rw [← hcount]
    exact .done (hgap hdone)
  | @token _ gap _ _ _ htoken hline hspelled hlongest hrest =>
    have hline' := hline.trans (hcount gap).symm
    exact Cut.token (hgap htoken) hline' hspelled hlongest hrest

/-- A token that stands in front. -/
theorem Cut.cons {t : Token} (hline : t.line = line) (hspelled : t.Spelled)
    (hlongest : IsLongest t.source.toList cs)
    (h : Cut (line + t.source.toList.count '\n') cs ts) :
    Cut line (t.source.toList ++ cs) (t :: ts) := by
  subst hline
  have hgap : IsGap [] := nofun
  exact Cut.token hgap rfl hspelled hlongest h

theorem cut_of_scan (h : scan line cs = .ok ts) : Cut line cs ts := by
  induction line, cs using scan_induction generalizing ts with
  | nil line =>
    rw [scan_nil] at h
    cases h
    exact .done (List.forall_mem_nil _)
  | blank hblank ih =>
    rw [scan_blank_cons hblank] at h
    exact .blank hblank (ih h)
  | @token t cs rest ht ih =>
    rw [ht.scan_eq t.line] at h
    obtain ⟨us, hus, rfl⟩ := exists_of_map_cons_eq_ok h
    rw [ht.split]
    exact .cons rfl ht.spelled ht.longest (ih hus)
  | offends he =>
    rw [he.scan_eq] at h
    cases h

end Scanner

/-! ## Positions -/

/-- A token and the gap after it. -/
structure Piece where
  token : Token
  gap : List Char

def Piece.chars (p : Piece) : List Char := p.token.source.toList ++ p.gap

/-- Each token between the text read before it, gaps included, and the text left after it. -/
theorem Cut.exists_pieces {line : Nat} {cs : List Char} {ts : List Token} (h : Cut line cs ts) :
    ∃ lead pieces, cs = lead ++ pieces.flatMap Piece.chars ∧
      IsGap lead ∧ (∀ p ∈ pieces, IsGap p.gap) ∧
      ts = pieces.map Piece.token ++ [endAt (line + cs.count '\n')] ∧
      ∀ before p after, pieces = before ++ p :: after →
        p.token.line = line + (lead ++ before.flatMap Piece.chars).count '\n' ∧
        p.token.Spelled ∧
        IsLongest p.token.source.toList (p.gap ++ after.flatMap Piece.chars) := by
  induction h with
  | @done line gap hgap =>
    exact ⟨gap, [], by simp, hgap, nofun, rfl, fun before p after he => by simp at he⟩
  | @token line gap rest t ts hgap hline hspelled hlongest _ ih =>
    obtain ⟨lead, pieces, rfl, hlead, hgaps, rfl, hat⟩ := ih
    have hcount (cs : List Char) : t.line + t.source.toList.count '\n' + cs.count '\n' =
        line + (gap ++ (t.source.toList ++ cs)).count '\n' := by
      simp only [hline, List.count_append]
      omega
    refine ⟨gap, ⟨t, lead⟩ :: pieces, ?_, hgap, List.forall_mem_cons.2 ⟨hlead, hgaps⟩, ?_, ?_⟩
    · simp [Piece.chars]
    · rw [hcount, List.map_cons, List.cons_append]
    · intro before p after he
      cases before with
      | nil =>
        obtain ⟨rfl, rfl⟩ := List.cons.inj he
        exact ⟨by simpa using hline, hspelled, hlongest⟩
      | cons q before =>
        obtain ⟨rfl, hpieces⟩ := List.cons.inj he
        obtain ⟨hpline, hp⟩ := hat before p after hpieces
        refine ⟨?_, hp⟩
        rw [hpline, hcount]
        simp only [List.flatMap_cons, Piece.chars, List.append_assoc]

/-- A number does not go on after it, and a word neither before nor after it. -/
structure Apart (t : Token) (read unread : List Char) : Prop where
  number : t.kind = .number → ∀ c ∈ unread.head?, ¬ isNumberChar c
  word : t.kind ∈ wordKinds → ∀ c ∈ unread.head?, ¬ isWordChar c
  word_left : t.kind ∈ wordKinds → ∀ c ∈ read.getLast?, ¬ isWordChar c

/-- The text of a string is cut out of it by positions of bytes, one after its start and one before
its end; its line is found from the line that a counter of line feeds has reached at its end. -/
structure CutOut (t : Token) (counter : Nat) : Prop where
  feeds_le : t.source.toList.count '\n' ≤ counter
  line_eq : t.line = counter - t.source.toList.count '\n'
  two_le : 2 ≤ t.source.utf8ByteSize
  text_eq : ∃ first last : t.source.Pos, first.offset.byteIdx = 1 ∧
    last.offset.byteIdx = t.source.utf8ByteSize - 1 ∧ first ≤ last ∧
    t.source.extract first last = t.text

/-- A quote is one byte, whatever stands between two of them. -/
theorem extract_between_quotes (text : String) :
    let quoted := "\"" ++ text ++ "\""
    2 ≤ quoted.utf8ByteSize ∧ ∃ first last : quoted.Pos, first.offset.byteIdx = 1 ∧
      last.offset.byteIdx = quoted.utf8ByteSize - 1 ∧ first ≤ last ∧
      quoted.extract first last = text := by
  intro quoted
  have hquote : "\"".utf8ByteSize = 1 := rfl
  have hsize : quoted.utf8ByteSize = 1 + text.utf8ByteSize + 1 := by
    rw [String.utf8ByteSize_append, String.utf8ByteSize_append, hquote]
  have hfirst : String.Pos.Raw.IsValid quoted ⟨1⟩ :=
    String.Pos.Raw.isValid_iff_exists_append.2 ⟨"\"", text ++ "\"", String.append_assoc, rfl⟩
  have hlast : String.Pos.Raw.IsValid quoted ⟨quoted.utf8ByteSize - 1⟩ := by
    refine String.Pos.Raw.isValid_iff_exists_append.2 ⟨"\"" ++ text, "\"", rfl, ?_⟩
    rw [hsize]
    simp [String.rawEndPos, String.utf8ByteSize_append, hquote]
  refine ⟨by omega, ⟨⟨1⟩, hfirst⟩, ⟨⟨quoted.utf8ByteSize - 1⟩, hlast⟩, rfl, rfl, ?_, ?_⟩
  · show 1 ≤ quoted.utf8ByteSize - 1
    omega
  · have hinner : ("\"" ++ text).toByteArray.size = 1 + text.utf8ByteSize := by
      rw [String.size_toByteArray, String.utf8ByteSize_append, hquote]
    have htext : ("\"".toByteArray ++ text.toByteArray).extract 1 (1 + text.utf8ByteSize) =
        text.toByteArray := by
      refine ByteArray.extract_append_eq_right rfl ?_
      rw [String.size_toByteArray, String.size_toByteArray, hquote]
    rw [← String.toByteArray_inj, String.toByteArray_extract]
    show quoted.toByteArray.extract 1 (quoted.utf8ByteSize - 1) = text.toByteArray
    rw [hsize, Nat.add_sub_cancel, String.toByteArray_append, ByteArray.extract_append, hinner,
      String.toByteArray_append, htext]
    simp

theorem cutOut_string {t : Token} (hk : t.kind = .string) {read : List Char}
    (hline : t.line = 1 + read.count '\n') :
    t.CutOut (1 + (read ++ t.source.toList).count '\n') := by
  have hsource : t.source = "\"" ++ t.text ++ "\"" := by simp [source, hk]
  have hbytes := extract_between_quotes t.text
  dsimp only at hbytes
  rw [← hsource] at hbytes
  refine ⟨?_, ?_, hbytes.1, hbytes.2⟩
  · rw [List.count_append]
    omega
  · rw [List.count_append]
    omega

/-- A token that is no word ends in a character that is in no word. -/
theorem Spelled.getLast_not_isWordChar {t : Token} (h : t.Spelled) (hk : t.kind ∉ wordKinds) :
    ∀ c ∈ t.source.toList.getLast?, ¬ isWordChar c := by
  obtain ⟨kind, text, line⟩ := t
  have hsymbol {k : TokenKind} (hs : ∃ c ∈ symbolsOf k, text.toList = [c]) :
      ∀ c ∈ text.toList.getLast?, ¬ isWordChar c := by
    obtain ⟨d, hd, htext⟩ := hs
    intro c hc
    rw [htext] at hc
    obtain rfl : d = c := by simpa using hc
    simp [(classes_of_symbol (mem_symbolsOf_iff.1 hd)).2.2.2.1]
  cases kind with
  | number =>
    obtain ⟨d, ds, htext, hd, hds, -⟩ := h
    intro c hc
    have hmem : c ∈ d :: ds := htext ▸ List.mem_of_getLast? hc
    refine not_isWordChar_of_isNumberChar ?_
    rcases List.mem_cons.1 hmem with rfl | hmem
    · simp [isNumberChar, hd]
    · exact hds c hmem
  | string =>
    intro c hc
    have hsource : (source ⟨.string, text, line⟩).toList = '"' :: text.toList ++ ['"'] := by
      simp [source]
    rw [hsource, List.getLast?_concat] at hc
    obtain rfl : '"' = c := Option.some.inj hc
    decide
  | identifier | letKeyword | constKeyword | fnKeyword => simp [wordKinds] at hk
  | eof => exact absurd h id
  | _ => exact hsymbol h

/-- What stands before a word is a blank or a token of another class. -/
theorem getLast?_before_word {lead : List Char} {pieces : List Piece} (hlead : IsGap lead)
    (hgaps : ∀ p ∈ pieces, IsGap p.gap)
    (hat : ∀ before p after, pieces = before ++ p :: after →
      p.token.Spelled ∧ IsLongest p.token.source.toList (p.gap ++ after.flatMap Piece.chars))
    {before after : List Piece} {p : Piece} (he : pieces = before ++ p :: after)
    (hk : p.token.kind ∈ wordKinds) :
    ∀ c ∈ (lead ++ before.flatMap Piece.chars).getLast?, ¬ isWordChar c := by
  have hblank {gap : List Char} (hgap : IsGap gap) {c : Char} (hc : c ∈ gap) : ¬ isWordChar c := by
    have hmem := hgap c hc
    simp only [List.mem_cons, List.not_mem_nil, or_false] at hmem
    rcases hmem with rfl | rfl | rfl | rfl <;> decide
  obtain ⟨d, ds, htext⟩ := List.exists_cons_of_ne_nil ((hat before p after he).1.isWord hk).1
  have hd : isWordChar d := ((hat before p after he).1.isWord hk).2 d (by simp [htext])
  intro c hc
  rcases List.eq_nil_or_concat before with rfl | ⟨init, q, rfl⟩
  · rw [List.flatMap_nil, List.append_nil] at hc
    exact hblank hlead (List.mem_of_getLast? hc)
  · have hpieces : pieces = init ++ q :: p :: after := by simp [he]
    obtain ⟨hspelled, hlongest⟩ := hat init q (p :: after) hpieces
    have hread : lead ++ (init ++ [q]).flatMap Piece.chars =
        lead ++ init.flatMap Piece.chars ++ (q.token.source.toList ++ q.gap) := by
      simp [Piece.chars]
    rw [List.concat_eq_append, hread, List.getLast?_append, Option.mem_def,
      Option.or_eq_some_iff] at hc
    have hne : q.token.source.toList ++ q.gap ≠ [] := by
      intro hnil
      have hlexeme := hlongest.lexeme
      rw [(List.append_eq_nil_iff.1 hnil).1] at hlexeme
      cases hlexeme
    obtain hc | ⟨hnone, -⟩ := hc
    · cases hgap : q.gap with
      | cons g gs =>
        rw [hgap, List.getLast?_append, List.getLast?_cons, Option.some_or] at hc
        have hlast : (g :: gs).getLast? = some c := List.getLast?_cons.trans hc
        have hmem : c ∈ q.gap := hgap ▸ List.mem_of_getLast? hlast
        exact hblank (hgaps q (by simp [hpieces])) hmem
      | nil =>
        rw [hgap, List.append_nil] at hc
        by_cases hqk : q.token.kind ∈ wordKinds
        · -- two words next to each other would be one
          have hnext : d ∈ (q.gap ++ (p :: after).flatMap Piece.chars).head? := by
            simp [hgap, Piece.chars, source_eq_text (ne_string_of_word hk), htext]
          exact absurd hd (hspelled.not_isWordChar_after hlongest hqk d hnext)
        · exact hspelled.getLast_not_isWordChar hqk c hc
    · exact absurd (List.getLast?_eq_none_iff.1 hnone) hne

/-! ## Whole texts -/

/-- A text that has tokens is made of these and of blanks between them, and ends with its one end
token.  Every token stands where the longest match is, on the line of its first character; what a
string is cut out by lies within it. -/
theorem tokensOf_cut {source : String} {tokens : List Token} (h : tokensOf source = .ok tokens) :
    ∃ lead pieces, source.toList = lead ++ pieces.flatMap Piece.chars ∧
      IsGap lead ∧ (∀ p ∈ pieces, IsGap p.gap) ∧
      tokens = pieces.map Piece.token ++ [⟨.eof, "", 1 + source.toList.count '\n'⟩] ∧
      ∀ before p after, pieces = before ++ p :: after →
        let read := lead ++ before.flatMap Piece.chars
        let unread := p.gap ++ after.flatMap Piece.chars
        p.token.line = 1 + read.count '\n' ∧ p.token.Spelled ∧
          IsLongest p.token.source.toList unread ∧ p.token.Apart read unread ∧
          (p.token.kind = .string → p.token.CutOut (1 + (read ++ p.token.source.toList).count '\n')) := by
  obtain ⟨lead, pieces, hsource, hlead, hgaps, htokens, hat⟩ := (cut_of_scan h).exists_pieces
  refine ⟨lead, pieces, hsource, hlead, hgaps, htokens, fun before p after he => ?_⟩
  obtain ⟨hline, hspelled, hlongest⟩ := hat before p after he
  have hleft := fun hk => getLast?_before_word hlead hgaps
    (fun before p after he => (hat before p after he).2) he hk
  exact ⟨hline, hspelled, hlongest,
    ⟨hspelled.not_isNumberChar_after hlongest, hspelled.not_isWordChar_after hlongest, hleft⟩,
    fun hk => cutOut_string hk hline⟩

/-- A string over two lines, with a character of two bytes, between tokens that touch it. -/
theorem tokensOf_cut_twoLines :
    let source := "let s=\t\"é\n\"+2."
    let tokens : List Token :=
      [⟨.letKeyword, "let", 1⟩, ⟨.identifier, "s", 1⟩, ⟨.equals, "=", 1⟩, ⟨.string, "é\n", 1⟩,
        ⟨.operator, "+", 2⟩, ⟨.number, "2.", 2⟩, ⟨.eof, "", 2⟩]
    tokensOf source = .ok tokens ∧
      ∃ lead pieces, source.toList = lead ++ pieces.flatMap Piece.chars ∧
        IsGap lead ∧ (∀ p ∈ pieces, IsGap p.gap) ∧
        tokens = pieces.map Piece.token ++ [⟨.eof, "", 1 + source.toList.count '\n'⟩] ∧
        ∀ before p after, pieces = before ++ p :: after →
          let read := lead ++ before.flatMap Piece.chars
          let unread := p.gap ++ after.flatMap Piece.chars
          p.token.line = 1 + read.count '\n' ∧ p.token.Spelled ∧
            IsLongest p.token.source.toList unread ∧ p.token.Apart read unread ∧
            (p.token.kind = .string →
              p.token.CutOut (1 + (read ++ p.token.source.toList).count '\n')) := by
  intro source tokens
  have htokens : tokensOf source = .ok tokens := by decide +kernel
  exact ⟨htokens, tokensOf_cut htokens⟩

end ScopeScript.Token
