import ScopeScript.Token.Scan
import ScopeScript.Proofs.Grammar.Lines

/-!
# Tokens written with spaces

A list of tokens that texts can have is written with one space between two tokens.  Reading that
text gives the tokens back, with lines of their own and an end token (`tokensOf_spaced`): a space
ends every token, and no token takes in a space unless it is a string.
-/

namespace ScopeScript.Token

/-! ## Texts of tokens -/

/-- Digits, and perhaps a point and further digits. -/
def IsDecimal (text : String) : Prop :=
  ∃ whole fraction : List Char, whole ≠ [] ∧ (∀ c ∈ whole, c.isDigit) ∧
    (∀ c ∈ fraction, c.isDigit) ∧
    (text.toList = whole ∨ text.toList = whole ++ '.' :: fraction)

def IsWord (text : String) : Prop := text.toList ≠ [] ∧ ∀ c ∈ text.toList, isWordChar c

theorem IsWord.of_all {text : String} (hne : text.toList ≠ [])
    (hall : text.toList.all isWordChar = true) : IsWord text :=
  ⟨hne, List.all_eq_true.1 hall⟩

/-- A token that a text can have. -/
def Legal (t : Token) : Prop :=
  match t.kind with
  | .number => IsDecimal t.text
  | .identifier | .letKeyword | .constKeyword | .fnKeyword =>
    IsWord t.text ∧ wordKind t.text.toList = t.kind
  | .string => '"' ∉ t.text.toList
  | .eof => False
  | kind => ∃ c, t.text.toList = [c] ∧ symbolKind? c = some kind

/-- How a token is written. -/
def source (t : Token) : String :=
  if t.kind = .string then "\"" ++ t.text ++ "\"" else t.text

/-- Tokens with a space between each two. -/
def spaced (ts : List Token) : String := " ".intercalate (ts.map source)

/-! ## Reading one token -/

/-- What follows a token that is written with spaces. -/
def AfterToken (cs : List Char) : Prop := cs = [] ∨ ∃ rest, cs = ' ' :: rest

section Reading

variable {line : Nat} {cs : List Char}

theorem AfterToken.head? (h : AfterToken cs) {p : Char → Bool} (hp : p ' ' = false) :
    ∀ c ∈ cs.head?, p c = false := by
  rcases h with rfl | ⟨rest, rfl⟩
  · exact nofun
  · simpa using hp

theorem takeWhile_run {p : Char → Bool} {run : List Char} (hrun : ∀ c ∈ run, p c)
    (hcs : ∀ c ∈ cs.head?, p c = false) : (run ++ cs).takeWhile p = run := by
  rw [List.takeWhile_append_of_pos hrun]
  cases cs with
  | nil => rw [List.takeWhile_nil, List.append_nil]
  | cons c cs => simp [hcs c rfl]

theorem dropWhile_run {p : Char → Bool} {run : List Char} (hrun : ∀ c ∈ run, p c)
    (hcs : ∀ c ∈ cs.head?, p c = false) : (run ++ cs).dropWhile p = cs := by
  rw [List.dropWhile_append_of_pos hrun]
  cases cs with
  | nil => rfl
  | cons c cs => simp [hcs c rfl]

theorem scan_nil : scan line [] = .ok [endAt line] := by
  rw [scan]

theorem scan_space : scan line (' ' :: cs) = scan line cs := by
  rw [scan, if_neg (by decide), if_pos (by decide)]

/-- A class of characters without blanks in it. -/
theorem not_blank {p : Char → Bool} (hp : [' ', '\t', '\r', '\n'].all fun c => !p c) {c : Char}
    (hc : p c) : c ≠ '\n' ∧ isBlank c = false := by
  have hne (d : Char) (hd : d ∈ [' ', '\t', '\r', '\n']) : c ≠ d := by
    rintro rfl
    have := List.all_eq_true.1 hp c hd
    rw [hc] at this
    cases this
  have hspace := hne ' ' (by decide)
  have htab := hne '\t' (by decide)
  have hreturn := hne '\r' (by decide)
  have hfeed := hne '\n' (by decide)
  exact ⟨hfeed, by simp [isBlank, hspace, htab, hreturn, hfeed]⟩

theorem isDigit_of_isWordChar {c : Char} (hc : isWordChar c) : c.isDigit = false := by
  have hlow : 65 ≤ c.toNat := by
    rcases Bool.or_eq_true_iff.1 hc with halpha | hunderscore
    · rcases Bool.or_eq_true_iff.1 halpha with hupper | hlower
      · exact (of_decide_eq_true hupper).1
      · have : (97 : Nat) ≤ c.toNat := of_decide_eq_true (Bool.and_eq_true_iff.1 hlower).1
        omega
    · obtain rfl := eq_of_beq hunderscore
      decide
  refine Bool.eq_false_iff.2 fun hdigit => ?_
  have hhigh : c.toNat ≤ 57 := (Char.isDigit_iff_toNat.1 hdigit).2
  omega

theorem scan_number {c : Char} {run : List Char} (hc : c.isDigit) (hrun : ∀ d ∈ run, isNumberChar d)
    (hpoints : (c :: run).count '.' ≤ 1) (hcs : ∀ d ∈ cs.head?, isNumberChar d = false) :
    scan line (c :: run ++ cs) =
      (scan line cs).map (⟨.number, String.ofList (c :: run), line⟩ :: ·) := by
  obtain ⟨hfeed, hblank⟩ := not_blank (by decide) hc
  rw [List.cons_append, scan, if_neg hfeed, hblank, if_neg Bool.false_ne_true, if_pos hc,
    takeWhile_run hrun hcs, dropWhile_run hrun hcs, if_neg (Nat.not_lt.2 hpoints)]
  rfl

theorem scan_word {c : Char} {run : List Char} (hc : isWordChar c) (hrun : ∀ d ∈ run, isWordChar d)
    (hcs : ∀ d ∈ cs.head?, isWordChar d = false) :
    scan line (c :: run ++ cs) =
      (scan line cs).map (⟨wordKind (c :: run), String.ofList (c :: run), line⟩ :: ·) := by
  obtain ⟨hfeed, hblank⟩ := not_blank (by decide) hc
  rw [List.cons_append, scan, if_neg hfeed, hblank, if_neg Bool.false_ne_true,
    isDigit_of_isWordChar hc, if_neg Bool.false_ne_true, if_pos hc,
    takeWhile_run hrun hcs, dropWhile_run hrun hcs]
  rfl

theorem scan_string {body : List Char} (hbody : '"' ∉ body) :
    scan line ('"' :: body ++ '"' :: cs) =
      (scan (line + body.count '\n') cs).map (⟨.string, String.ofList body, line⟩ :: ·) := by
  have hp : ∀ c ∈ body, (c != '"') = true := by
    intro c hc
    rw [bne_iff_ne]
    rintro rfl
    exact hbody hc
  have htake : (body ++ '"' :: cs).takeWhile (· != '"') = body := by
    rw [List.takeWhile_append_of_pos hp, List.takeWhile_cons]
    simp
  have hdrop : (body ++ '"' :: cs).dropWhile (· != '"') = '"' :: cs := by
    rw [List.dropWhile_append_of_pos hp, List.dropWhile_cons]
    simp
  rw [List.cons_append, scan, if_neg (by decide), if_neg (by decide), if_neg (by decide),
    if_neg (by decide), if_pos rfl, htake, hdrop]
  rfl

/-- Symbols are in no other class of characters. -/
theorem classes_of_symbol {c : Char} {kind : TokenKind} (hc : symbolKind? c = some kind) :
    c ≠ '\n' ∧ isBlank c = false ∧ c.isDigit = false ∧ isWordChar c = false ∧ c ≠ '"' := by
  unfold symbolKind? at hc
  split at hc
  all_goals
    first
    | decide
    | cases hc

theorem scan_symbol {c : Char} {kind : TokenKind} (hc : symbolKind? c = some kind) :
    scan line (c :: cs) = (scan line cs).map (⟨kind, c.toString, line⟩ :: ·) := by
  obtain ⟨hfeed, hblank, hdigit, hword, hquote⟩ := classes_of_symbol hc
  rw [scan, if_neg hfeed, hblank, hdigit, hword, if_neg Bool.false_ne_true,
    if_neg Bool.false_ne_true, if_neg Bool.false_ne_true, if_neg hquote, hc]
  rfl

end Reading

/-- A decimal starts with a digit and has at most one point. -/
theorem IsDecimal.exists_cons {text : String} (h : IsDecimal text) :
    ∃ c run, text.toList = c :: run ∧ c.isDigit ∧ (∀ d ∈ run, isNumberChar d) ∧
      (c :: run).count '.' ≤ 1 := by
  obtain ⟨whole, fraction, hne, hwhole, hfraction, htext⟩ := h
  have hnumber {cs : List Char} (hcs : ∀ c ∈ cs, c.isDigit) : ∀ c ∈ cs, isNumberChar c := by
    intro c hc
    unfold isNumberChar
    rw [hcs c hc]
    rfl
  have hpoints {cs : List Char} (hcs : ∀ c ∈ cs, c.isDigit) : cs.count '.' = 0 := by
    rw [List.count_eq_zero]
    intro hc
    exact absurd (hcs '.' hc) (by decide)
  obtain ⟨c, run, rfl⟩ := List.exists_cons_of_ne_nil hne
  have hrun : ∀ d ∈ run, d.isDigit := fun d hd => hwhole d (List.mem_cons_of_mem c hd)
  rcases htext with htext | htext
  · refine ⟨c, run, htext, hwhole c List.mem_cons_self, hnumber hrun, ?_⟩
    rw [hpoints hwhole]
    exact Nat.zero_le 1
  · refine ⟨c, run ++ '.' :: fraction, htext, hwhole c List.mem_cons_self, ?_, ?_⟩
    · intro d hd
      rcases List.mem_append.1 hd with hd | hd
      · exact hnumber hrun d hd
      · rcases List.mem_cons.1 hd with rfl | hd
        · rfl
        · exact hnumber hfraction d hd
    · have hcount : (c :: run ++ '.' :: fraction).count '.' = 1 := by
        rw [List.count_append, hpoints hwhole, List.count_cons_self, hpoints hfraction]
      exact Nat.le_of_eq hcount

/-- A legal token is read as what it is, on the line where it stands. -/
theorem scan_source {t : Token} (h : t.Legal) (line : Nat) {cs : List Char} (hcs : AfterToken cs) :
    ∃ line', scan line (t.source.toList ++ cs) =
      (scan line' cs).map (⟨t.kind, t.text, line⟩ :: ·) := by
  obtain ⟨kind, text, line₀⟩ := t
  have hword (hw : IsWord text) (hk : wordKind text.toList = kind) :
      scan line (text.toList ++ cs) = (scan line cs).map (⟨kind, text, line⟩ :: ·) := by
    obtain ⟨c, run, hcons⟩ := List.exists_cons_of_ne_nil hw.1
    have hchars := hw.2
    rw [hcons] at hchars hk
    rw [hcons, scan_word (hchars c List.mem_cons_self)
      (fun d hd => hchars d (List.mem_cons_of_mem c hd)) (hcs.head? (by decide)), hk, ← hcons,
      String.ofList_toList]
  have hsymbol {k : TokenKind} (hs : ∃ c, text.toList = [c] ∧ symbolKind? c = some k) :
      scan line (text.toList ++ cs) = (scan line cs).map (⟨k, text, line⟩ :: ·) := by
    obtain ⟨c, htext, hc⟩ := hs
    have hstring : c.toString = text := by
      rw [← String.toList_inj, htext]
      simp
    rw [htext, List.singleton_append, scan_symbol hc, hstring]
  cases kind with
  | number =>
    obtain ⟨c, run, hcons, hc, hrun, hpoints⟩ := IsDecimal.exists_cons h
    refine ⟨line, ?_⟩
    show scan line (text.toList ++ cs) = _
    rw [hcons, scan_number hc hrun hpoints (hcs.head? (by decide)), ← hcons, String.ofList_toList]
  | identifier | letKeyword | constKeyword | fnKeyword => exact ⟨line, hword h.1 h.2⟩
  | string =>
    refine ⟨line + text.toList.count '\n', ?_⟩
    have hsource : (source ⟨.string, text, line₀⟩).toList ++ cs = '"' :: text.toList ++ '"' :: cs := by
      simp [source]
    rw [hsource, scan_string h, String.ofList_toList]
  | eof => exact absurd h id
  | _ => exact ⟨line, hsymbol h⟩

/-! ## Reading a list of tokens -/

theorem scan_spaced {ts : List Token} (h : ∀ t ∈ ts, t.Legal) (line : Nat) :
    ∃ us last, scan line (spaced ts).toList = .ok (us ++ [endAt last]) ∧
      us.map unlined = ts.map unlined := by
  induction ts generalizing line with
  | nil => exact ⟨[], line, scan_nil, rfl⟩
  | cons t ts ih =>
    have ht := h t List.mem_cons_self
    have hts : ∀ u ∈ ts, u.Legal := fun u hu => h u (List.mem_cons_of_mem t hu)
    cases ts with
    | nil =>
      have htext : (spaced [t]).toList = t.source.toList ++ [] := by simp [spaced]
      obtain ⟨line', hscan⟩ := scan_source ht line (.inl rfl)
      rw [htext, hscan, scan_nil]
      exact ⟨[⟨t.kind, t.text, line⟩], line', rfl, rfl⟩
    | cons u ts =>
      have htext : (spaced (t :: u :: ts)).toList =
          t.source.toList ++ ' ' :: (spaced (u :: ts)).toList := by
        simp [spaced]
      obtain ⟨line', hscan⟩ := scan_source ht line (.inr ⟨(spaced (u :: ts)).toList, rfl⟩)
      obtain ⟨us, last, hus, hmap⟩ := ih hts line'
      rw [htext, hscan, scan_space, hus]
      refine ⟨⟨t.kind, t.text, line⟩ :: us, last, rfl, ?_⟩
      rw [List.map_cons, List.map_cons, hmap]
      rfl

/-- The text of legal tokens has just these tokens. -/
theorem tokensOf_spaced {ts : List Token} (h : ∀ t ∈ ts, t.Legal) :
    ∃ us last, tokensOf (spaced ts) = .ok (us ++ [endAt last]) ∧
      us.map unlined = ts.map unlined :=
  scan_spaced h 1

end ScopeScript.Token
