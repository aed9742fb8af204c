import ScopeScript.Proofs.Token.Spaced

/-!
# Reading texts piece by piece

The line that a text starts on goes into the lines of its tokens and of its error, and nowhere else
(`scan_unlined`).  A text that can be read ends between two tokens if what follows starts with a
character that no token goes on with (`scan_append`):

    scan line (cs ++ c :: rest) = the tokens of cs, then scan line' (c :: rest)

where `line'` is the line that `cs` ends on.
-/

namespace ScopeScript

def ScanError.unlined : ScanError → ScanError
  | .unexpectedChar c _ => .unexpectedChar c 0
  | .unterminatedString _ => .unterminatedString 0
  | .malformedNumber text _ => .malformedNumber text 0

namespace Token

/-! ## The first token -/

section First

variable {line : Nat} {c : Char} {cs : List Char}

theorem bind_return_cons (t : Token) (r : Except ScanError (List Token)) :
    (do return t :: (← r)) = r.map (t :: ·) := by
  cases r <;> rfl

theorem scan_feed : scan line ('\n' :: cs) = scan (line + 1) cs := by
  rw [scan, if_pos rfl]

theorem scan_blank (hfeed : c ≠ '\n') (hblank : isBlank c) : scan line (c :: cs) = scan line cs := by
  rw [scan, if_neg hfeed, if_pos hblank]

theorem scan_digit (hc : c.isDigit) :
    scan line (c :: cs) =
      if 1 < (c :: cs.takeWhile isNumberChar).count '.' then
        .error (.malformedNumber (String.ofList (c :: cs.takeWhile isNumberChar)) line)
      else (scan line (cs.dropWhile isNumberChar)).map
        (⟨.number, String.ofList (c :: cs.takeWhile isNumberChar), line⟩ :: ·) := by
  obtain ⟨hfeed, hblank⟩ := not_blank (by decide) hc
  rw [scan, if_neg hfeed, hblank, if_neg Bool.false_ne_true, if_pos hc]
  simp only [bind_return_cons]

theorem scan_wordChar (hc : isWordChar c) :
    scan line (c :: cs) = (scan line (cs.dropWhile isWordChar)).map
      (⟨wordKind (c :: cs.takeWhile isWordChar), String.ofList (c :: cs.takeWhile isWordChar),
        line⟩ :: ·) := by
  obtain ⟨hfeed, hblank⟩ := not_blank (by decide) hc
  rw [scan, if_neg hfeed, hblank, if_neg Bool.false_ne_true, isDigit_of_isWordChar hc,
    if_neg Bool.false_ne_true, if_pos hc]
  simp only [bind_return_cons]

theorem scan_quote :
    scan line ('"' :: cs) =
      if (cs.dropWhile (· != '"')).isEmpty then .error (.unterminatedString line)
      else (scan (line + (cs.takeWhile (· != '"')).count '\n') (cs.dropWhile (· != '"')).tail).map
        (⟨.string, String.ofList (cs.takeWhile (· != '"')), line⟩ :: ·) := by
  rw [scan, if_neg (by decide), if_neg (by decide), if_neg (by decide), if_neg (by decide),
    if_pos rfl]
  simp only [bind_return_cons]

/-- A character that belongs to no class. -/
theorem scan_unexpected (hfeed : c ≠ '\n') (hblank : ¬ isBlank c) (hdigit : ¬ c.isDigit)
    (hword : ¬ isWordChar c) (hquote : c ≠ '"') (hc : symbolKind? c = none) :
    scan line (c :: cs) = .error (.unexpectedChar c line) := by
  rw [scan, if_neg hfeed, if_neg hblank, if_neg hdigit, if_neg hword, if_neg hquote, hc]

end First

/-! ## The first line -/

/-- What reading gives, without lines. -/
def withoutLines (r : Except ScanError (List Token)) : Except ScanError (List Token) :=
  (r.map (List.map unlined)).mapError ScanError.unlined

theorem withoutLines_map_cons (t : Token) (r : Except ScanError (List Token)) :
    withoutLines (r.map (t :: ·)) = (withoutLines r).map (t.unlined :: ·) := by
  cases r <;> rfl

theorem withoutLines_map_append (ts : List Token) (r : Except ScanError (List Token)) :
    withoutLines (r.map (ts ++ ·)) = (withoutLines r).map (ts.map unlined ++ ·) := by
  cases r with
  | ok us => exact congrArg Except.ok List.map_append
  | error e => rfl

theorem scan_unlined (line line' : Nat) (cs : List Char) :
    withoutLines (scan line cs) = withoutLines (scan line' cs) := by
  induction line, cs using scan.induct generalizing line' with
  | case1 line =>
    rw [scan_nil, scan_nil]
    rfl
  | case2 line cs ih =>
    rw [scan_feed, scan_feed]
    exact ih (line' + 1)
  | case3 line c cs hfeed hblank ih =>
    rw [scan_blank hfeed hblank, scan_blank hfeed hblank]
    exact ih line'
  | case4 line c cs hfeed hblank hc run hpoints =>
    rw [scan_digit hc, scan_digit hc, if_pos hpoints, if_pos hpoints]
    rfl
  | case5 line c cs hfeed hblank hc run hpoints ih =>
    rw [scan_digit hc, scan_digit hc, if_neg hpoints, if_neg hpoints, withoutLines_map_cons,
      withoutLines_map_cons, ih line']
    rfl
  | case6 line c cs hfeed hblank hdigit hc ih =>
    rw [scan_wordChar hc, scan_wordChar hc, withoutLines_map_cons, withoutLines_map_cons, ih line']
    rfl
  | case7 line cs close hopen =>
    rw [scan_quote, scan_quote, if_pos hopen, if_pos hopen]
    rfl
  | case8 line cs body close hclosed _ _ _ _ ih =>
    rw [scan_quote, scan_quote, if_neg hclosed, if_neg hclosed, withoutLines_map_cons,
      withoutLines_map_cons, ih]
    rfl
  | case9 line c cs hfeed hblank hdigit hword hquote hc =>
    rw [scan_unexpected hfeed hblank hdigit hword hquote hc,
      scan_unexpected hfeed hblank hdigit hword hquote hc]
    rfl
  | case10 line c cs hfeed hblank hdigit hword hquote kind hc ih =>
    rw [scan_symbol hc, scan_symbol hc, withoutLines_map_cons, withoutLines_map_cons, ih line']
    rfl

/-- Blanks in front of a text are dropped, and their line feeds are counted. -/
theorem scan_gap {w : List Char} (hw : ∀ c ∈ w, isBlank c) (line : Nat) (cs : List Char) :
    scan line (w ++ cs) = scan (line + w.count '\n') cs := by
  induction w generalizing line with
  | nil => rfl
  | cons c w ih =>
    rw [List.forall_mem_cons] at hw
    by_cases hfeed : c = '\n'
    · subst hfeed
      rw [List.cons_append, scan_feed, ih hw.2, List.count_cons_self, Nat.add_assoc,
        Nat.add_comm 1]
    · rw [List.cons_append, scan_blank hfeed hw.1, ih hw.2, List.count_cons_of_ne hfeed]

theorem scan_feeds (line k : Nat) (cs : List Char) :
    scan line (List.replicate k '\n' ++ cs) = scan (line + k) cs := by
  have hfeeds : ∀ c ∈ List.replicate k '\n', isBlank c := by simp [isBlank]
  rw [scan_gap hfeeds, List.count_replicate_self]

/-- Blanks in front of a text change nothing but lines. -/
theorem scan_blanks {w : List Char} (hw : ∀ c ∈ w, isBlank c) (line : Nat) (cs : List Char) :
    withoutLines (scan line (w ++ cs)) = withoutLines (scan line cs) := by
  rw [scan_gap hw, scan_unlined _ line]

/-! ## Two texts -/

/-- No word and no number goes on with this character. -/
def EndsToken (c : Char) : Prop := isNumberChar c = false ∧ isWordChar c = false

theorem EndsToken.of_blank {c : Char} (hc : isBlank c) : EndsToken c := by
  have hcases : ((c = ' ' ∨ c = '\t') ∨ c = '\r') ∨ c = '\n' := by simpa [isBlank] using hc
  rcases hcases with ((rfl | rfl) | rfl) | rfl
  · exact ⟨by decide, by decide⟩
  · exact ⟨by decide, by decide⟩
  · exact ⟨by decide, by decide⟩
  · exact ⟨by decide, by decide⟩

section Append

variable {p : Char → Bool} {c : Char}

theorem dropWhile_append_cons (hc : p c = false) (cs rest : List Char) :
    (cs ++ c :: rest).dropWhile p = cs.dropWhile p ++ c :: rest := by
  rw [List.dropWhile_append]
  split
  · next h => simp [List.isEmpty_iff.1 h, hc]
  · rfl

theorem takeWhile_append_cons (hc : p c = false) (cs rest : List Char) :
    (cs ++ c :: rest).takeWhile p = cs.takeWhile p := by
  rw [List.takeWhile_append]
  split
  · next h => simp [hc, (List.takeWhile_prefix p).eq_of_length h]
  · rfl

theorem dropWhile_append_of_ne_nil {cs : List Char} (h : cs.dropWhile p ≠ []) (rest : List Char) :
    (cs ++ rest).dropWhile p = cs.dropWhile p ++ rest := by
  rw [List.dropWhile_append, if_neg (by simpa using h)]

theorem takeWhile_append_of_ne_nil {cs : List Char} (h : cs.dropWhile p ≠ []) (rest : List Char) :
    (cs ++ rest).takeWhile p = cs.takeWhile p := by
  have hsplit := congrArg List.length (List.takeWhile_append_dropWhile (p := p) (l := cs))
  have hpos := List.length_pos_iff.2 h
  rw [List.length_append] at hsplit
  rw [List.takeWhile_append, if_neg (by omega)]

/-- A run of characters without line feeds is on one line. -/
theorem count_dropWhile (hp : p '\n' = false) (cs : List Char) :
    (cs.dropWhile p).count '\n' = cs.count '\n' := by
  induction cs with
  | nil => rfl
  | cons d cs ih =>
    by_cases hd : p d = true
    · have hne : d ≠ '\n' := by
        rintro rfl
        rw [hp] at hd
        cases hd
      simp [hd, ih, hne]
    · simp [hd]

end Append

/-- The text `cs` gives the tokens `us`, also in front of `c :: rest`, whose tokens then take the
place of the end token. -/
def Splits (line : Nat) (cs : List Char) (us : List Token) (c : Char) (rest : List Char) : Prop :=
  ∃ ts, us = ts ++ [endAt (line + cs.count '\n')] ∧ (∀ t ∈ ts, t.kind ≠ .eof) ∧
    scan line (cs ++ c :: rest) = (scan (line + cs.count '\n') (c :: rest)).map (ts ++ ·)

namespace Splits

variable {line line' : Nat} {cs cs' : List Char} {us : List Token} {c : Char} {rest : List Char}

theorem skip (h : Splits line' cs' us c rest)
    (hline : line' + cs'.count '\n' = line + cs.count '\n')
    (hscan : scan line (cs ++ c :: rest) = scan line' (cs' ++ c :: rest)) :
    Splits line cs us c rest := by
  obtain ⟨ts, hus, hne, hts⟩ := h
  rw [hline] at hus hts
  exact ⟨ts, hus, hne, hscan.trans hts⟩

theorem cons {t : Token} (h : Splits line' cs' us c rest) (ht : t.kind ≠ .eof)
    (hline : line' + cs'.count '\n' = line + cs.count '\n')
    (hscan : scan line (cs ++ c :: rest) = (scan line' (cs' ++ c :: rest)).map (t :: ·)) :
    Splits line cs (t :: us) c rest := by
  obtain ⟨ts, hus, hne, hts⟩ := h
  rw [hline] at hus hts
  refine ⟨t :: ts, by rw [hus, List.cons_append], ?_, ?_⟩
  · simpa [ht] using hne
  · rw [hscan, hts]
    cases scan (line + cs.count '\n') (c :: rest) <;> rfl

end Splits

theorem exists_of_map_cons_eq_ok {t : Token} {r : Except ScanError (List Token)}
    {us : List Token} (h : r.map (t :: ·) = .ok us) : ∃ us', r = .ok us' ∧ us = t :: us' := by
  cases r with
  | ok us' =>
    cases h
    exact ⟨us', rfl, rfl⟩
  | error e => cases h

theorem wordKind_ne {kind : TokenKind}
    (h : kind ∉ [.letKeyword, .constKeyword, .fnKeyword, .identifier]) (word : List Char) :
    wordKind word ≠ kind := by
  rintro rfl
  refine h ?_
  unfold wordKind
  split
  · decide
  · split
    · decide
    · split <;> decide

theorem symbolKind?_ne_eof (c : Char) : symbolKind? c ≠ some .eof := by
  unfold symbolKind?
  split <;> decide

theorem scan_append {line : Nat} {cs : List Char} {us : List Token} (h : scan line cs = .ok us)
    {c : Char} (hc : EndsToken c) (rest : List Char) : Splits line cs us c rest := by
  obtain ⟨hnumber, hword⟩ := hc
  induction line, cs using scan.induct generalizing us with
  | case1 line =>
    rw [scan_nil] at h
    cases h
    refine ⟨[], rfl, by simp, ?_⟩
    show scan line (c :: rest) = (scan line (c :: rest)).map id
    cases scan line (c :: rest) <;> rfl
  | case2 line cs ih =>
    rw [scan_feed] at h
    refine (ih h).skip ?_ scan_feed
    simp
    omega
  | case3 line d cs hfeed hblank ih =>
    rw [scan_blank hfeed hblank] at h
    exact (ih h).skip (by simp [hfeed]) (scan_blank hfeed hblank)
  | case4 line d cs hfeed hblank hd run =>
    rename_i hpoints
    rw [scan_digit hd, if_pos hpoints] at h
    cases h
  | case5 line d cs hfeed hblank hd run hpoints =>
    rename_i ih
    rw [scan_digit hd, if_neg hpoints] at h
    obtain ⟨us', hus', rfl⟩ := exists_of_map_cons_eq_ok h
    refine (ih hus').cons nofun ?_ ?_
    · simp [count_dropWhile (p := isNumberChar) (by decide), hfeed]
    · rw [List.cons_append, scan_digit hd, takeWhile_append_cons hnumber, if_neg hpoints,
        dropWhile_append_cons hnumber]
  | case6 line d cs hfeed hblank hdigit hd ih =>
    rw [scan_wordChar hd] at h
    obtain ⟨us', hus', rfl⟩ := exists_of_map_cons_eq_ok h
    refine (ih hus').cons (wordKind_ne (by decide) _) ?_ ?_
    · simp [count_dropWhile (p := isWordChar) (by decide), hfeed]
    · rw [List.cons_append, scan_wordChar hd, takeWhile_append_cons hword,
        dropWhile_append_cons hword]
  | case7 line cs close hopen =>
    rw [scan_quote, if_pos hopen] at h
    cases h
  | case8 line cs body close hclosed =>
    rename_i ih
    rw [scan_quote, if_neg hclosed] at h
    obtain ⟨us', hus', rfl⟩ := exists_of_map_cons_eq_ok h
    have hne : cs.dropWhile (· != '"') ≠ [] := fun hnil => hclosed (List.isEmpty_iff.2 hnil)
    obtain ⟨q, tail, hclose⟩ := List.exists_cons_of_ne_nil hne
    have hq : q = '"' := by
      have := List.head_dropWhile_not (· != '"') hne
      simpa [hclose] using this
    refine (ih hus').cons nofun ?_ ?_
    · have hsplit := congrArg (List.count '\n')
        (List.takeWhile_append_dropWhile (p := (· != '"')) (l := cs))
      rw [List.count_append] at hsplit
      simp [close, body, hclose, hq] at hsplit ⊢
      omega
    · rw [List.cons_append, scan_quote, dropWhile_append_of_ne_nil hne,
        takeWhile_append_of_ne_nil hne, if_neg (by simp [hclose])]
      simp [close, body, hclose]
  | case9 line d cs hfeed hblank hdigit hword' hquote hd =>
    rw [scan_unexpected hfeed hblank hdigit hword' hquote hd] at h
    cases h
  | case10 line d cs hfeed hblank hdigit hword' hquote kind hd ih =>
    rw [scan_symbol hd] at h
    obtain ⟨us', hus', rfl⟩ := exists_of_map_cons_eq_ok h
    refine (ih hus').cons ?_ (by simp [hfeed]) (scan_symbol hd)
    rintro rfl
    exact symbolKind?_ne_eof d hd

end Token

end ScopeScript
