import Mathlib.Data.List.TakeWhile
import ScopeScript.Proofs.Layout.Scanning

/-!
# What stands in front of a text

A token takes the longest piece that any pattern of the language matches (`IsLongest`), and its
text and kind fit each other (`Spelled`).  In front of a text there is

    a blank               and it is dropped
    a token               and it is taken        (`InFront.scan_eq`)
    what starts neither   and reading fails      (`Offends.scan_eq`)

and no two of these at once.  `front` finds the second or the third.
-/

namespace ScopeScript.Token

/-! ## Patterns -/

/-- The characters that are tokens of the given kind by themselves. -/
def symbolsOf : TokenKind → List Char
  | .leftParen => ['(']
  | .rightParen => [')']
  | .leftBrace => ['\x7b']
  | .rightBrace => ['\x7d']
  | .leftBracket => ['[']
  | .rightBracket => [']']
  | .comma => [',']
  | .colon => [':']
  | .semicolon => [';']
  | .dot => ['.']
  | .equals => ['=']
  | .operator => ['+', '-', '*', '/', '%']
  | _ => []

/-- What some pattern matches, of tokens or of what separates them.  Keywords are matched as words
too, and the points of a number are not counted here. -/
inductive Lexeme : List Char → Prop
  | number {c : Char} {cs : List Char} (hc : c.isDigit) (hcs : ∀ d ∈ cs, isNumberChar d) :
      Lexeme (c :: cs)
  | word {c : Char} {cs : List Char} (hc : isWordChar c) (hcs : ∀ d ∈ cs, isWordChar d) :
      Lexeme (c :: cs)
  | string {cs : List Char} (h : '"' ∉ cs) : Lexeme ('"' :: (cs ++ ['"']))
  | symbol {c : Char} {kind : TokenKind} (h : c ∈ symbolsOf kind) : Lexeme [c]
  | feed : Lexeme ['\n']
  | blanks {c : Char} {cs : List Char} (h : ∀ d ∈ c :: cs, d ∈ [' ', '\t', '\r']) : Lexeme (c :: cs)

/-- In front of `rest`, no pattern matches more than `cs`. -/
structure IsLongest (cs rest : List Char) : Prop where
  lexeme : Lexeme cs
  longest : ∀ p, p <+: cs ++ rest → Lexeme p → p.length ≤ cs.length

/-- The text of a token is one of those that its kind has. -/
def Spelled (t : Token) : Prop :=
  match t.kind with
  | .number =>
    ∃ c cs, t.text.toList = c :: cs ∧ c.isDigit ∧ (∀ d ∈ cs, isNumberChar d) ∧ cs.count '.' ≤ 1
  | .identifier => IsWord t.text ∧ t.text ≠ "let" ∧ t.text ≠ "const" ∧ t.text ≠ "fn"
  | .letKeyword => t.text = "let"
  | .constKeyword => t.text = "const"
  | .fnKeyword => t.text = "fn"
  | .string => '"' ∉ t.text.toList
  | .eof => False
  | kind => ∃ c ∈ symbolsOf kind, t.text.toList = [c]

/-- No token can be taken off the front of `cs`, which stands on line `line`. -/
inductive Offends (line : Nat) : List Char → ScanError → Prop
  /-- A quote without another one after it. -/
  | string {cs : List Char} (h : '"' ∉ cs) : Offends line ('"' :: cs) (.unterminatedString line)
  /-- All the digits and points from a digit on, with two points or more. -/
  | number {c : Char} {run rest : List Char} (hc : c.isDigit) (hrun : ∀ d ∈ run, isNumberChar d)
      (hrest : ∀ d ∈ rest.head?, isNumberChar d = false) (hpoints : 2 ≤ (c :: run).count '.') :
      Offends line (c :: run ++ rest) (.malformedNumber (String.ofList (c :: run)) line)
  | char {c : Char} {cs : List Char} (hblank : c ∉ [' ', '\t', '\r', '\n'])
      (hletter : c.isAlpha = false) (hunderscore : c ≠ '_') (hdigit : c.isDigit = false)
      (hquote : c ≠ '"') (hsymbol : ∀ kind, c ∉ symbolsOf kind) :
      Offends line (c :: cs) (.unexpectedChar c line)

/-! ## What starts with a character -/

section First

variable {c : Char} {cs rest p : List Char}

theorem mem_symbolsOf_iff {kind : TokenKind} : c ∈ symbolsOf kind ↔ symbolKind? c = some kind := by
  constructor
  · intro h
    cases kind <;> simp only [symbolsOf, List.mem_cons, List.not_mem_nil, or_false] at h
    case operator => rcases h with rfl | rfl | rfl | rfl | rfl <;> rfl
    all_goals
      subst h
      rfl
  · intro h
    unfold symbolKind? at h
    split at h
    all_goals
      first
      | cases h; decide
      | cases h

/-- A prefix of one class does not go beyond where the class ends. -/
theorem length_le_of_prefix {q : Char → Bool} (hp : p <+: cs ++ rest) (hall : ∀ d ∈ p, q d)
    (hrest : ∀ d ∈ rest.head?, q d = false) : p.length ≤ cs.length := by
  rcases List.prefix_or_prefix_of_prefix hp (List.prefix_append cs rest) with h | ⟨more, rfl⟩
  · exact h.length_le
  · cases more with
    | nil => simp
    | cons d more =>
      have hd : d ∈ rest.head? := by
        obtain ⟨after, hafter⟩ := (List.prefix_append_right_inj cs).1 hp
        simp [← hafter]
      have hq := hall d (by simp)
      rw [hrest d hd] at hq
      cases hq

/-- What starts with `c` is a single character or all in the class `q`. -/
theorem isLongest_of_class {q : Char → Bool} (h : Lexeme (c :: cs))
    (hclass : ∀ ds, Lexeme (c :: ds) → ds = [] ∨ ∀ d ∈ c :: ds, q d)
    (hrest : ∀ d ∈ rest.head?, q d = false) : IsLongest (c :: cs) rest where
  lexeme := h
  longest p hp hlexeme := by
    cases p with
    | nil => exact Nat.zero_le _
    | cons d ds =>
      obtain rfl : d = c := (List.cons_prefix_cons.1 hp).1
      rcases hclass ds hlexeme with rfl | hall
      · simp
      · exact length_le_of_prefix hp hall hrest

theorem isLongest_number (hc : c.isDigit) (hcs : ∀ d ∈ cs, isNumberChar d)
    (hrest : ∀ d ∈ rest.head?, isNumberChar d = false) : IsLongest (c :: cs) rest := by
  refine isLongest_of_class (.number hc hcs) (fun ds h => ?_) hrest
  cases h with
  | number _ hds =>
    have hc' : isNumberChar c := by simp [isNumberChar, hc]
    exact .inr (List.forall_mem_cons.2 ⟨hc', hds⟩)
  | word hword _ =>
    rw [isDigit_of_isWordChar hword] at hc
    cases hc
  | string _ => cases hc
  | symbol _ => exact .inl rfl
  | feed => exact .inl rfl
  | blanks hblanks =>
    have hblank := hblanks c List.mem_cons_self
    simp only [List.mem_cons, List.not_mem_nil, or_false] at hblank
    rcases hblank with rfl | rfl | rfl <;> cases hc

theorem isLongest_word (hc : isWordChar c) (hcs : ∀ d ∈ cs, isWordChar d)
    (hrest : ∀ d ∈ rest.head?, isWordChar d = false) : IsLongest (c :: cs) rest := by
  refine isLongest_of_class (.word hc hcs) (fun ds h => ?_) hrest
  cases h with
  | number hdigit _ =>
    rw [isDigit_of_isWordChar hc] at hdigit
    cases hdigit
  | word _ hds => exact .inr (List.forall_mem_cons.2 ⟨hc, hds⟩)
  | string _ => cases hc
  | symbol _ => exact .inl rfl
  | feed => exact .inl rfl
  | blanks hblanks =>
    have hblank := hblanks c List.mem_cons_self
    simp only [List.mem_cons, List.not_mem_nil, or_false] at hblank
    rcases hblank with rfl | rfl | rfl <;> cases hc

theorem isLongest_symbol {kind : TokenKind} (hc : c ∈ symbolsOf kind) : IsLongest [c] rest := by
  obtain ⟨-, hblank, hdigit, hword, hquote⟩ := classes_of_symbol (mem_symbolsOf_iff.1 hc)
  refine isLongest_of_class (q := fun _ => false) (.symbol hc) (fun ds h => .inl ?_)
    fun _ _ => rfl
  cases h with
  | number hdigit' _ =>
    rw [hdigit] at hdigit'
    cases hdigit'
  | word hword' _ =>
    rw [hword] at hword'
    cases hword'
  | string _ => exact absurd rfl hquote
  | symbol _ => rfl
  | feed => rfl
  | blanks hblanks =>
    have hblank' := hblanks c List.mem_cons_self
    simp only [List.mem_cons, List.not_mem_nil, or_false] at hblank'
    rcases hblank' with rfl | rfl | rfl <;> cases hblank

/-- A string ends at the first quote after the one that opens it. -/
theorem isLongest_string (h : '"' ∉ cs) : IsLongest ('"' :: (cs ++ ['"'])) rest where
  lexeme := .string h
  longest p hp hlexeme := by
    cases hlexeme with
    | number hc _ | word hc _ =>
      obtain rfl := (List.cons_prefix_cons.1 hp).1
      cases hc
    | @string ds hds =>
      have hbody : ds ++ ['"'] <+: cs ++ '"' :: rest := by
        simpa using (List.cons_prefix_cons.1 hp).2
      have hdsbody : ds <+: cs ++ '"' :: rest := (List.prefix_append ds _).trans hbody
      have hle : ds.length ≤ cs.length := by
        refine length_le_of_prefix (q := (· != '"')) hdsbody (fun d hd => ?_) (by simp)
        rw [bne_iff_ne]
        rintro rfl
        exact hds hd
      simpa using hle
    | symbol _ | feed => simp
    | blanks hblanks =>
      obtain rfl := (List.cons_prefix_cons.1 hp).1
      exact absurd (hblanks '"' List.mem_cons_self) (by decide)

end First

/-! ## Texts of tokens -/

def wordKinds : List TokenKind := [.letKeyword, .constKeyword, .fnKeyword, .identifier]

theorem Spelled.isWord {t : Token} (h : t.Spelled) (hk : t.kind ∈ wordKinds) : IsWord t.text := by
  obtain ⟨kind, text, line⟩ := t
  simp only [wordKinds, List.mem_cons, List.not_mem_nil, or_false] at hk
  rcases hk with rfl | rfl | rfl | rfl
  · obtain rfl : text = "let" := h
    exact (IsWord.of_all (by decide) rfl : IsWord "let")
  · obtain rfl : text = "const" := h
    exact (IsWord.of_all (by decide) rfl : IsWord "const")
  · obtain rfl : text = "fn" := h
    exact (IsWord.of_all (by decide) rfl : IsWord "fn")
  · exact h.1

theorem not_isWordChar_of_isNumberChar {c : Char} (hc : isNumberChar c) : ¬ isWordChar c := by
  intro hword
  rcases Bool.or_eq_true_iff.1 hc with hdigit | hpoint
  · rw [isDigit_of_isWordChar hword] at hdigit
    cases hdigit
  · obtain rfl := eq_of_beq hpoint
    cases hword

theorem source_eq_text {t : Token} (hk : t.kind ≠ .string) : t.source = t.text := if_neg hk

theorem ne_string_of_word {t : Token} (hk : t.kind ∈ wordKinds) : t.kind ≠ .string := by
  intro hs
  rw [hs] at hk
  exact absurd hk (by decide)

section Apart

variable {t : Token} {unread : List Char} {c : Char}

/-- A longer match would have been taken. -/
theorem IsLongest.not_lexeme {cs : List Char} (h : IsLongest cs unread) (hc : c ∈ unread.head?) :
    ¬ Lexeme (cs ++ [c]) := by
  intro hlexeme
  obtain ⟨rest, rfl⟩ := List.head?_eq_some_iff.1 hc
  have hle := h.longest (cs ++ [c]) (by simp) hlexeme
  rw [List.length_append] at hle
  exact Nat.not_succ_le_self _ hle

theorem Spelled.not_isNumberChar_after (h : t.Spelled) (hlongest : IsLongest t.source.toList unread)
    (hk : t.kind = .number) : ∀ c ∈ unread.head?, ¬ isNumberChar c := by
  intro c hc hnumber
  obtain ⟨kind, text, line⟩ := t
  obtain rfl : kind = .number := hk
  obtain ⟨d, ds, htext, hd, hds, -⟩ := h
  refine hlongest.not_lexeme hc ?_
  rw [source_eq_text (by rintro ⟨⟩), htext]
  refine .number hd fun e he => ?_
  rcases List.mem_append.1 he with he | he
  · exact hds e he
  · rwa [List.mem_singleton.1 he]

theorem Spelled.not_isWordChar_after (h : t.Spelled) (hlongest : IsLongest t.source.toList unread)
    (hk : t.kind ∈ wordKinds) : ∀ c ∈ unread.head?, ¬ isWordChar c := by
  intro c hc hword
  obtain ⟨hne, hall⟩ := h.isWord hk
  obtain ⟨d, ds, htext⟩ := List.exists_cons_of_ne_nil hne
  rw [htext] at hall
  refine hlongest.not_lexeme hc ?_
  rw [source_eq_text (ne_string_of_word hk), htext]
  refine .word (hall d List.mem_cons_self) fun e he => ?_
  rcases List.mem_append.1 he with he | he
  · exact hall e (List.mem_cons_of_mem d he)
  · rwa [List.mem_singleton.1 he]

end Apart

/-! ## Tokens in front -/

/-- The text `cs` is that of `t` and `rest` after it, and no pattern goes on into `rest`. -/
structure InFront (t : Token) (cs rest : List Char) : Prop where
  split : cs = t.source.toList ++ rest
  spelled : t.Spelled
  longest : IsLongest t.source.toList rest

section Front

variable {line : Nat} {t : Token} {c : Char} {cs rest : List Char}

theorem Lexeme.ne_nil (h : Lexeme cs) : cs ≠ [] := by
  rintro rfl
  cases h

theorem InFront.length_lt (h : InFront t cs rest) : rest.length < cs.length := by
  have hpos := List.length_pos_iff.2 h.longest.lexeme.ne_nil
  rw [h.split, List.length_append]
  omega

theorem inFront_of_text {kind : TokenKind} (hkind : kind ≠ .string) {text : List Char}
    (hspelled : (⟨kind, String.ofList text, line⟩ : Token).Spelled) (hlongest : IsLongest text rest) :
    InFront ⟨kind, String.ofList text, line⟩ (text ++ rest) rest := by
  have hsource : (source ⟨kind, String.ofList text, line⟩).toList = text := by
    rw [source_eq_text hkind, String.toList_ofList]
  exact ⟨by rw [hsource], hspelled, hsource.symm ▸ hlongest⟩

/-- The rest of a run does not go on with it. -/
theorem head?_dropWhile_eq_false (p : Char → Bool) (cs : List Char) :
    ∀ d ∈ (cs.dropWhile p).head?, p d = false := by
  intro d hd
  obtain ⟨rest, hrest⟩ := List.head?_eq_some_iff.1 hd
  have hne : cs.dropWhile p ≠ [] := by simp [hrest]
  have := List.head_dropWhile_not p hne
  simpa [hrest] using this

theorem wordKind_spelled (hc : isWordChar c) (hcs : ∀ d ∈ cs, isWordChar d) :
    (⟨wordKind (c :: cs), String.ofList (c :: cs), line⟩ : Token).Spelled := by
  by_cases hlet : c :: cs = ['l', 'e', 't']
  · rw [hlet]
    exact rfl
  by_cases hconst : c :: cs = ['c', 'o', 'n', 's', 't']
  · rw [hconst]
    exact rfl
  by_cases hfn : c :: cs = ['f', 'n']
  · rw [hfn]
    exact rfl
  have hkind : wordKind (c :: cs) = .identifier := by
    unfold wordKind
    rw [if_neg hlet, if_neg hconst, if_neg hfn]
  have hword : IsWord (String.ofList (c :: cs)) := by
    unfold IsWord
    rw [String.toList_ofList]
    exact ⟨List.cons_ne_nil _ _, List.forall_mem_cons.2 ⟨hc, hcs⟩⟩
  have hne {word : List Char} (h : c :: cs ≠ word) : String.ofList (c :: cs) ≠ String.ofList word :=
    fun he => h (String.ofList_injective he)
  rw [hkind]
  exact ⟨hword, hne hlet, hne hconst, hne hfn⟩

theorem inFront_string {body : List Char} (hbody : '"' ∉ body) :
    InFront ⟨.string, String.ofList body, line⟩ ('"' :: (body ++ '"' :: rest)) rest := by
  have hsource : (source ⟨.string, String.ofList body, line⟩).toList = '"' :: (body ++ ['"']) := by
    simp [source]
  refine ⟨?_, ?_, hsource.symm ▸ isLongest_string hbody⟩
  · rw [hsource]
    simp
  · show '"' ∉ (String.ofList body).toList
    rwa [String.toList_ofList]

theorem inFront_symbol {kind : TokenKind} (hc : c ∈ symbolsOf kind) :
    InFront ⟨kind, String.ofList [c], line⟩ (c :: cs) cs := by
  have hspelled : (⟨kind, String.ofList [c], line⟩ : Token).Spelled := by
    cases kind <;> first | cases hc; done | exact ⟨c, hc, String.toList_ofList⟩
  have hkind : kind ≠ .string := by
    rintro rfl
    cases hc
  exact inFront_of_text hkind hspelled (isLongest_symbol hc)

/-- What is no blank is a token, or no token starts with it. -/
theorem front (line : Nat) (hblank : c ∉ [' ', '\t', '\r', '\n']) (cs : List Char) :
    (∃ t rest, t.line = line ∧ InFront t (c :: cs) rest) ∨ ∃ e, Offends line (c :: cs) e := by
  have hrun (q : Char → Bool) : ∀ d ∈ cs.takeWhile q, q d := List.all_eq_true.1 List.all_takeWhile
  have hsplit (q : Char → Bool) : c :: cs = c :: cs.takeWhile q ++ cs.dropWhile q := by
    rw [List.cons_append, List.takeWhile_append_dropWhile]
  by_cases hdigit : c.isDigit
  · rw [hsplit isNumberChar]
    by_cases hpoints : 2 ≤ (c :: cs.takeWhile isNumberChar).count '.'
    · exact .inr ⟨_, .number hdigit (hrun _) (head?_dropWhile_eq_false _ _) hpoints⟩
    · have hone : (cs.takeWhile isNumberChar).count '.' ≤ 1 :=
        Nat.le_trans List.count_le_count_cons (Nat.le_of_not_lt hpoints)
      have hspelled : (⟨.number, String.ofList (c :: cs.takeWhile isNumberChar), line⟩ :
          Token).Spelled := ⟨c, _, String.toList_ofList, hdigit, hrun _, hone⟩
      exact .inl ⟨_, _, rfl, inFront_of_text (by decide) hspelled
        (isLongest_number hdigit (hrun _) (head?_dropWhile_eq_false _ _))⟩
  by_cases hword : isWordChar c
  · rw [hsplit isWordChar]
    exact .inl ⟨_, _, rfl, inFront_of_text (wordKind_ne (by decide) _)
      (wordKind_spelled hword (hrun _))
      (isLongest_word hword (hrun _) (head?_dropWhile_eq_false _ _))⟩
  by_cases hquote : c = '"'
  · subst hquote
    by_cases hclosed : '"' ∈ cs
    · obtain ⟨body, rest, rfl, hbody⟩ := List.eq_append_cons_of_mem hclosed
      exact .inl ⟨_, _, rfl, inFront_string hbody⟩
    · exact .inr ⟨_, .string hclosed⟩
  by_cases hsymbol : ∃ kind, c ∈ symbolsOf kind
  · obtain ⟨kind, hkind⟩ := hsymbol
    exact .inl ⟨_, _, rfl, inFront_symbol hkind⟩
  · obtain ⟨hletter, hunderscore⟩ : c.isAlpha = false ∧ c ≠ '_' := by
      simpa [isWordChar] using hword
    exact .inr ⟨_, .char hblank hletter hunderscore (Bool.eq_false_iff.2 hdigit) hquote
      (not_exists.1 hsymbol)⟩

/-! ## What the scanner does with it -/

theorem count_feed {q : Char → Bool} (hq : q '\n' = false) (hcs : ∀ d ∈ cs, q d) :
    cs.count '\n' = 0 := by
  rw [List.count_eq_zero]
  intro hmem
  have := hcs _ hmem
  rw [hq] at this
  cases this

theorem Spelled.wordKind_eq (h : t.Spelled) (hk : t.kind ∈ wordKinds) :
    wordKind t.text.toList = t.kind := by
  obtain ⟨kind, text, line⟩ := t
  simp only [wordKinds, List.mem_cons, List.not_mem_nil, or_false] at hk
  rcases hk with rfl | rfl | rfl | rfl
  · obtain rfl : text = "let" := h
    exact (by decide : wordKind "let".toList = .letKeyword)
  · obtain rfl : text = "const" := h
    exact (by decide : wordKind "const".toList = .constKeyword)
  · obtain rfl : text = "fn" := h
    exact (by decide : wordKind "fn".toList = .fnKeyword)
  · obtain ⟨-, hlet, hconst, hfn⟩ := h
    have hne {word : List Char} (h : text ≠ String.ofList word) : text.toList ≠ word :=
      fun he => h (by rw [← he, String.ofList_toList])
    show wordKind text.toList = .identifier
    unfold wordKind
    rw [if_neg (hne hlet), if_neg (hne hconst), if_neg (hne hfn)]

theorem Spelled.scan_eq_of_word (h : t.Spelled) (hlongest : IsLongest t.source.toList rest)
    (hk : t.kind ∈ wordKinds) (line : Nat) :
    scan line (t.source.toList ++ rest) =
      (scan (line + t.source.toList.count '\n') rest).map (⟨t.kind, t.text, line⟩ :: ·) := by
  obtain ⟨hne, hchars⟩ := h.isWord hk
  have hkind := h.wordKind_eq hk
  have hafter := h.not_isWordChar_after hlongest hk
  rw [source_eq_text (ne_string_of_word hk), count_feed (by decide) hchars, Nat.add_zero]
  obtain ⟨c, run, htext⟩ := List.exists_cons_of_ne_nil hne
  rw [htext] at hchars hkind ⊢
  rw [scan_word (hchars c List.mem_cons_self) (fun d hd => hchars d (List.mem_cons_of_mem c hd))
    (fun d hd => Bool.eq_false_iff.2 (hafter d hd)), hkind, ← htext, String.ofList_toList]

theorem scan_eq_of_symbol (hk : t.kind ≠ .string) (h : ∃ c ∈ symbolsOf t.kind, t.text.toList = [c])
    (line : Nat) (rest : List Char) :
    scan line (t.source.toList ++ rest) =
      (scan (line + t.source.toList.count '\n') rest).map (⟨t.kind, t.text, line⟩ :: ·) := by
  obtain ⟨c, hc, htext⟩ := h
  have hstring : c.toString = t.text := by
    rw [← String.toList_inj, htext]
    simp
  have hkind := mem_symbolsOf_iff.1 hc
  have hfeed : c ≠ '\n' := (classes_of_symbol hkind).1
  have hcount : [c].count '\n' = 0 := by simp [hfeed]
  rw [source_eq_text hk, htext, hcount, List.singleton_append, scan_symbol hkind, hstring]
  rfl

/-- The scanner takes the token in front and counts the line feeds in it. -/
theorem InFront.scan_eq (h : InFront t cs rest) (line : Nat) :
    scan line cs =
      (scan (line + t.source.toList.count '\n') rest).map (⟨t.kind, t.text, line⟩ :: ·) := by
  obtain ⟨rfl, hspelled, hlongest⟩ := h
  obtain ⟨kind, text, line₀⟩ := t
  cases kind with
  | number =>
    have hafter := hspelled.not_isNumberChar_after hlongest rfl
    obtain ⟨c, run, htext, hc, hrun, hpoints⟩ := hspelled
    have hpoint : c ≠ '.' := by
      rintro rfl
      cases hc
    have hcount : (c :: run).count '\n' = 0 := by
      refine count_feed (q := isNumberChar) (by decide) (List.forall_mem_cons.2 ⟨?_, hrun⟩)
      simp [isNumberChar, hc]
    rw [source_eq_text (by rintro ⟨⟩), htext, hcount,
      scan_number hc hrun (by simpa [hpoint] using hpoints)
        (fun d hd => Bool.eq_false_iff.2 (hafter d hd)), ← htext, String.ofList_toList]
    rfl
  | identifier | letKeyword | constKeyword | fnKeyword =>
    exact hspelled.scan_eq_of_word hlongest (by simp [wordKinds]) line
  | string =>
    have hsource : (source ⟨.string, text, line₀⟩).toList = '"' :: (text.toList ++ ['"']) := by
      simp [source]
    have hcount : ('"' :: (text.toList ++ ['"'])).count '\n' = text.toList.count '\n' := by simp
    have hsplit : '"' :: (text.toList ++ ['"']) ++ rest = '"' :: text.toList ++ '"' :: rest := by
      simp
    rw [hsource, hcount, hsplit, scan_string hspelled, String.ofList_toList]
  | eof => exact absurd hspelled id
  | _ => exact scan_eq_of_symbol (by rintro ⟨⟩) hspelled line rest

theorem scan_blank_cons (hblank : c ∈ [' ', '\t', '\r', '\n']) (line : Nat) (cs : List Char) :
    scan line (c :: cs) = scan (line + [c].count '\n') cs := by
  simp only [List.mem_cons, List.not_mem_nil, or_false] at hblank
  refine scan_gap (w := [c]) (fun d hd => ?_) line cs
  rw [List.mem_singleton.1 hd]
  rcases hblank with rfl | rfl | rfl | rfl <;> rfl

theorem isBlank_eq_false (hblank : c ∉ [' ', '\t', '\r', '\n']) : isBlank c = false := by
  simp only [List.mem_cons, List.not_mem_nil, or_false, not_or] at hblank
  simp [isBlank, hblank]

theorem Offends.scan_eq {e : ScanError} (h : Offends line cs e) : scan line cs = .error e := by
  cases h with
  | @string cs hopen =>
    have hdrop : cs.dropWhile (· != '"') = [] := by
      rw [List.dropWhile_eq_nil_iff]
      intro d hd
      rw [bne_iff_ne]
      rintro rfl
      exact hopen hd
    rw [scan_quote, hdrop]
    rfl
  | number hc hrun hrest hpoints =>
    rw [List.cons_append, scan_digit hc, takeWhile_run hrun hrest]
    exact if_pos hpoints
  | @char c cs hblank hletter hunderscore hdigit hquote hsymbol =>
    have hnone : symbolKind? c = none := by
      cases hkind : symbolKind? c with
      | none => rfl
      | some kind => exact absurd (mem_symbolsOf_iff.2 hkind) (hsymbol kind)
    refine scan_unexpected (fun hfeed => hblank (by simp [hfeed])) ?_ ?_ ?_ hquote hnone
    · rw [isBlank_eq_false hblank]
      exact Bool.false_ne_true
    · rw [hdigit]
      exact Bool.false_ne_true
    · simp [isWordChar, hletter, hunderscore]

end Front

/-- From the end of a text to its start, token by token: what the scanner does with `cs` it also
does with a blank or a token in front of it. -/
theorem scan_induction {motive : Nat → List Char → Prop} (nil : ∀ line, motive line [])
    (blank : ∀ {line : Nat} {c : Char} {cs : List Char}, c ∈ [' ', '\t', '\r', '\n'] →
      motive (line + [c].count '\n') cs → motive line (c :: cs))
    (token : ∀ {t : Token} {cs rest : List Char}, InFront t cs rest →
      motive (t.line + t.source.toList.count '\n') rest → motive t.line cs)
    (offends : ∀ {line : Nat} {cs : List Char} {e : ScanError}, Offends line cs e → motive line cs)
    (line : Nat) (cs : List Char) : motive line cs := by
  induction hn : cs.length using Nat.strong_induction_on generalizing line cs with
  | h n ih =>
    subst hn
    cases cs with
    | nil => exact nil line
    | cons c cs =>
      by_cases hblank : c ∈ [' ', '\t', '\r', '\n']
      · exact blank hblank (ih _ (Nat.lt_succ_self _) _ _ rfl)
      rcases front line hblank cs with ⟨t, rest, rfl, ht⟩ | ⟨e, he⟩
      · exact token ht (ih _ ht.length_lt _ _ rfl)
      · exact offends he

/-- The tokens of a text are those that texts can have, and an end token. -/
theorem spelled_of_scan {line : Nat} {cs : List Char} {ts : List Token}
    (h : scan line cs = .ok ts) : ∀ t ∈ ts, t.Spelled ∨ t.kind = .eof := by
  induction line, cs using scan_induction generalizing ts with
  | nil line =>
    rw [scan_nil] at h
    cases h
    simp [endAt]
  | blank hblank ih =>
    rw [scan_blank_cons hblank] at h
    exact ih h
  | @token t cs rest ht ih =>
    rw [ht.scan_eq t.line] at h
    obtain ⟨us, hus, rfl⟩ := exists_of_map_cons_eq_ok h
    exact List.forall_mem_cons.2 ⟨.inl ht.spelled, ih hus⟩
  | offends he =>
    rw [he.scan_eq] at h
    cases h

end ScopeScript.Token
