import ScopeScript.Proofs.Grammar.Exact
import ScopeScript.Proofs.Token.Spaced

/-!
# Open brackets and finished phrases

`openBrackets stack ts` is the stack of brackets after the tokens `ts`: an opening one is pushed
with its line, a closing one of any kind takes the innermost one off.

The tokens of a phrase leave the stack as it was (`Spells.openBrackets_eq`), and they are the phrase
whatever follows them (`Spells.append`).  So they can be cut out and put in front of other tokens
(`Piece`).
-/

namespace ScopeScript

/-! ## Open brackets -/

/-- The open brackets after one more token, innermost first, each with the line it stands on. -/
def track (stack : List (Bracket × Nat)) (t : Token) : List (Bracket × Nat) :=
  match t.kind with
  | .leftParen => (.round, t.line) :: stack
  | .leftBracket => (.square, t.line) :: stack
  | .leftBrace => (.curly, t.line) :: stack
  | .rightParen | .rightBracket | .rightBrace => stack.tail
  | _ => stack

def openBrackets (stack : List (Bracket × Nat)) (ts : List Token) : List (Bracket × Nat) :=
  ts.foldl track stack

@[simp]
theorem openBrackets_nil (stack : List (Bracket × Nat)) : openBrackets stack [] = stack := rfl

@[simp]
theorem openBrackets_cons (stack : List (Bracket × Nat)) (t : Token) (ts : List Token) :
    openBrackets stack (t :: ts) = openBrackets (track stack t) ts := rfl

@[simp]
theorem openBrackets_append (stack : List (Bracket × Nat)) (ts us : List Token) :
    openBrackets stack (ts ++ us) = openBrackets (openBrackets stack ts) us :=
  List.foldl_append

theorem track_opening {t : Token} {b : Bracket} (h : t.kind = b.opening)
    (stack : List (Bracket × Nat)) : track stack t = (b, t.line) :: stack := by
  cases b <;> simp [track, h, Bracket.opening]

theorem track_closing {t : Token} {b : Bracket} (h : t.kind = b.closing)
    (stack : List (Bracket × Nat)) : track stack t = stack.tail := by
  cases b <;> simp [track, h, Bracket.closing]

/-- An open bracket was open before, or stands among the tokens. -/
theorem exists_opener {stack : List (Bracket × Nat)} {ts : List Token} {opened : Bracket × Nat}
    (h : opened ∈ openBrackets stack ts) : opened ∈ stack ∨ ∃ t ∈ ts, t.line = opened.2 := by
  induction ts generalizing stack with
  | nil => exact .inl h
  | cons t ts ih =>
    rcases ih h with htrack | ⟨u, hu, hline⟩
    · have hmem : opened ∈ stack ∨ t.line = opened.2 := by
        unfold track at htrack
        split at htrack
        case h_1 | h_2 | h_3 =>
          rcases List.mem_cons.1 htrack with rfl | hstack
          · exact .inr rfl
          · exact .inl hstack
        case h_4 | h_5 | h_6 => exact .inl (List.mem_of_mem_tail htrack)
        case h_7 => exact .inl htrack
      exact hmem.imp_right fun hline => ⟨t, List.mem_cons_self, hline⟩
    · exact .inr ⟨u, List.mem_cons_of_mem t hu, hline⟩

/-- The kinds of tokens that are neither brackets nor end tokens. -/
def TokenKind.isPlain : TokenKind → Bool
  | .leftParen | .leftBracket | .leftBrace | .rightParen | .rightBracket | .rightBrace => false
  | .eof => false
  | _ => true

theorem track_plain {t : Token} (h : t.kind.isPlain = true) (stack : List (Bracket × Nat)) :
    track stack t = stack := by
  unfold track
  split
  all_goals
    first
    | rfl
    | simp_all [TokenKind.isPlain]

namespace Grammar

open ScopeScript.Parser (next)

/-! ## Phrases -/

section Phrases

variable {ts rest : List Token} {phrase : Phrase}

theorem Spells.append (h : Spells ts phrase rest) (more : List Token) :
    Spells (ts ++ more) phrase (rest ++ more) := by
  induction h with
  | name h => exact .name h
  | number h hx => exact .number h hx
  | string h => exact .string h
  | group ho _ hc ih => exact .group ho ih hc
  | primary _ ih => exact .primary ih
  | dot _ ht hn ih => exact .dot ih ht hn
  | index _ ho _ hc ihe ihk => exact .index ihe ho ihk hc
  | call _ ho _ hc ihf iha => exact .call ihf ho iha hc
  | operand _ ih => exact .operand ih
  | times _ hk ht hop _ ihl ihr => exact .times ihl hk ht hop ihr
  | product _ ih => exact .product ih
  | plus _ hk ht hop _ ihl ihr => exact .plus ihl hk ht hop ihr
  | object ho _ hc ih => exact .object ho ih hc
  | sum _ ih => exact .sum ih
  | objectLevel _ ih => exact .objectLevel ih
  | assign _ ht _ ihl ihr => exact .assign ihl ht ihr
  | noArguments => exact .noArguments
  | lastArgument _ ih => exact .lastArgument ih
  | argument _ hc _ ihe ihes => exact .argument ihe hc ihes
  | shorthand h => exact .shorthand h
  | field hk hc _ ih => exact .field hk hc ih
  | noProperties => exact .noProperties
  | lastProperty _ ih => exact .lastProperty ih
  | propertyThen _ hc _ ihp ihps => exact .propertyThen ihp hc ihps

theorem Spells.openBrackets_eq (h : Spells ts phrase rest) (stack : List (Bracket × Nat)) :
    openBrackets stack ts = openBrackets stack rest := by
  induction h generalizing stack with
  | name h | number h | string h | shorthand h => simp [track, h]
  | group ho _ hc ih | object ho _ hc ih => simp [track, ho, hc, ih]
  | dot _ ht hn ih => simp [track, ht, hn, ih]
  | index _ ho _ hc ih ih' | call _ ho _ hc ih ih' => simp [track, ho, hc, ih, ih']
  | times _ hk _ _ _ ih ih' | plus _ hk _ _ _ ih ih' => simp [track, hk, ih, ih']
  | assign _ ht _ ih ih' | argument _ ht _ ih ih' | propertyThen _ ht _ ih ih' =>
    simp [track, ht, ih, ih']
  | field hk hc _ ih => simp [track, hk, hc, ih]
  | noArguments | noProperties => rfl
  | primary _ ih | operand _ ih | product _ ih | sum _ ih | objectLevel _ ih => exact ih stack
  | lastArgument _ ih | lastProperty _ ih => exact ih stack

theorem Parameters.append {params : List String} (h : Parameters ts params rest)
    (more : List Token) : Parameters (ts ++ more) params (rest ++ more) := by
  induction h with
  | none => exact .none
  | last h => exact .last h
  | cons h hc _ ih => exact .cons h hc ih

theorem Parameters.openBrackets_eq {params : List String} (h : Parameters ts params rest)
    (stack : List (Bracket × Nat)) : openBrackets stack ts = openBrackets stack rest := by
  induction h with
  | none => rfl
  | last h => simp [track, h]
  | cons h hc _ ih => simp [track, h, hc, ih]

end Phrases

mutual

theorem Statement.append {ts rest : List Token} {s : Stmt} (h : Statement false ts s rest)
    (more : List Token) : Statement false (ts ++ more) s (rest ++ more) := by
  match h with
  | .declare hk hn => exact .declare hk hn
  | .declareAs hk hn ht he _ => exact .declareAs hk hn ht (he.append more) nofun
  | .function hk hn ho hp hc ho' hb hc' =>
    exact .function hk hn ho (hp.append more) hc ho' (hb.append more) hc'
  | .expr he _ =>
    have hnext : next (ts ++ more) = next ts := by
      have hlt := he.length_lt
      cases ts with
      | nil => simp at hlt
      | cons t ts => rfl
    rw [← hnext]
    exact .expr (he.append more) nofun

theorem Statements.append {ts rest : List Token} {ss : List Stmt} (h : Statements false ts ss rest)
    (more : List Token) : Statements false (ts ++ more) ss (rest ++ more) := by
  match h with
  | .nil => exact .nil
  | .semicolon ht h => exact .semicolon ht (h.append more)
  | .cons hs hss => exact .cons (hs.append more) (hss.append more)

end

theorem isPlain_declarationKind (constant : Bool) : (declarationKind constant).isPlain = true := by
  cases constant <;> rfl

mutual

theorem Statement.openBrackets_eq {greedy : Bool} {ts rest : List Token} {s : Stmt}
    (h : Statement greedy ts s rest) (stack : List (Bracket × Nat)) :
    openBrackets stack ts = openBrackets stack rest := by
  match h with
  | .declare hk hn =>
    rw [openBrackets_cons, track_plain (hk ▸ isPlain_declarationKind _)]
    simp [track, hn]
  | .declareAs hk hn ht he _ =>
    rw [openBrackets_cons, track_plain (hk ▸ isPlain_declarationKind _)]
    simp [track, hn, ht, he.openBrackets_eq]
  | .function hk hn ho hp hc ho' hb hc' =>
    simp [track, hk, hn, ho, hp.openBrackets_eq, hc, ho', hb.openBrackets_eq, hc']
  | .expr he _ => exact he.openBrackets_eq stack

theorem Statements.openBrackets_eq {greedy : Bool} {ts rest : List Token} {ss : List Stmt}
    (h : Statements greedy ts ss rest) (stack : List (Bracket × Nat)) :
    openBrackets stack ts = openBrackets stack rest := by
  match h with
  | .nil => rfl
  | .semicolon ht h => simp [track, ht, h.openBrackets_eq]
  | .cons hs hss => rw [hs.openBrackets_eq, hss.openBrackets_eq]

end

/-! ## Pieces -/

/-- The tokens of `ts` before `rest` are `P` in front of any tokens.  There is no end token in them,
and they leave the open brackets as they were. -/
def Piece (P : List Token → List Token → Prop) (ts rest : List Token) : Prop :=
  ∃ us, ts = us ++ rest ∧ (∀ t ∈ us, t.kind ≠ .eof) ∧ (∀ stack, openBrackets stack us = stack) ∧
    ∀ rest', P (us ++ rest') rest'

/-- A `P` and a closing bracket. -/
def Closed (b : Bracket) (P : List Token → List Token → Prop) (ts rest : List Token) : Prop :=
  ∃ closer : Token, P ts (closer :: rest) ∧ closer.kind = b.closing

/-- A `P` in brackets. -/
def Enclosed (b : Bracket) (P : List Token → List Token → Prop) (ts rest : List Token) : Prop :=
  ∃ opener mid, ts = opener :: mid ∧ opener.kind = b.opening ∧ Closed b P mid rest

namespace Piece

variable {P Q : List Token → List Token → Prop} {ts mid rest : List Token}

theorem mono (h : Piece P ts rest) (hPQ : ∀ a b, P a b → Q a b) : Piece Q ts rest := by
  obtain ⟨us, hts, hne, hstack, hP⟩ := h
  exact ⟨us, hts, hne, hstack, fun rest' => hPQ _ _ (hP rest')⟩

theorem nil (h : ∀ a, P a a) : Piece P rest rest := ⟨[], rfl, nofun, fun _ => rfl, h⟩

theorem trans (h : Piece P ts mid) (h' : Piece Q mid rest) :
    Piece (fun a c => ∃ b, P a b ∧ Q b c) ts rest := by
  obtain ⟨us, rfl, hne, hstack, hP⟩ := h
  obtain ⟨vs, rfl, hne', hstack', hQ⟩ := h'
  refine ⟨us ++ vs, by rw [List.append_assoc], ?_, ?_, fun rest' => ?_⟩
  · intro t ht
    rcases List.mem_append.1 ht with ht | ht
    · exact hne t ht
    · exact hne' t ht
  · intro stack
    rw [openBrackets_append, hstack, hstack']
  · rw [List.append_assoc]
    exact ⟨vs ++ rest', hP _, hQ rest'⟩

theorem token {t : Token} {kind : TokenKind} (h : t.kind = kind) (hplain : kind.isPlain = true)
    (rest : List Token) : Piece (fun a b => a = t :: b) (t :: rest) rest := by
  subst h
  refine ⟨[t], rfl, ?_, track_plain hplain, fun _ => rfl⟩
  rintro u hu heof
  rw [List.mem_singleton.1 hu] at heof
  simp [heof, TokenKind.isPlain] at hplain

/-- The token that stands next. -/
theorem next {kind : TokenKind} (h : (next ts).kind = kind) (hplain : kind.isPlain = true) :
    Piece (fun a b => a = Parser.next ts :: b) ts ts.tail := by
  have hne : kind ≠ .eof := by
    rintro rfl
    cases hplain
  have hcons := cons_of_kind h hne
  have htoken := token h hplain ts.tail
  rwa [← hcons] at htoken

theorem enclosed {b : Bracket} {opener closer : Token} (ho : opener.kind = b.opening)
    (hc : closer.kind = b.closing) (h : Piece P ts (closer :: rest)) :
    Piece (Enclosed b P) (opener :: ts) rest := by
  obtain ⟨us, rfl, hne, hstack, hP⟩ := h
  refine ⟨opener :: us ++ [closer], by simp, ?_, fun stack => ?_, fun rest' => ?_⟩
  · have hopener : opener.kind ≠ .eof := ho ▸ Parser.opening_ne_eof b
    have hcloser : closer.kind ≠ .eof := hc ▸ Parser.closing_ne_eof b
    simpa [or_imp, forall_and, hopener, hcloser] using hne
  · rw [List.cons_append, openBrackets_cons, track_opening ho, openBrackets_append, hstack,
      openBrackets_cons, track_closing hc]
    rfl
  · refine ⟨opener, us ++ closer :: rest', by simp, ho, closer, hP (closer :: rest'), hc⟩

/-- What can be detached, leaves the brackets and takes more tokens behind it is a piece. -/
theorem of_detached (h : Detached P ts rest)
    (hstack : ∀ us, P us [] → ∀ stack, openBrackets stack us = stack)
    (happend : ∀ us more, P us [] → P (us ++ more) more) : Piece P ts rest := by
  obtain ⟨us, hts, hne, hP⟩ := h
  have hus := hP [] nofun
  rw [List.append_nil] at hus
  exact ⟨us, hts, hne, hstack us hus, fun rest' => happend us rest' hus⟩

end Piece

section Pieces

variable {ts rest : List Token}

theorem Spells.piece {phrase : Phrase} (h : Spells ts phrase rest) :
    Piece (fun a b => Spells a phrase b) ts rest :=
  .of_detached h.detached (fun _ hus => hus.openBrackets_eq) fun _ more hus => hus.append more

theorem Parameters.piece {params : List String} (h : Parameters ts params rest) :
    Piece (fun a b => Parameters a params b) ts rest :=
  .of_detached h.detached (fun _ hus => hus.openBrackets_eq) fun _ more hus => hus.append more

theorem Statement.piece {s : Stmt} (h : Statement false ts s rest) :
    Piece (fun a b => Statement false a s b) ts rest :=
  .of_detached h.detached (fun _ hus => hus.openBrackets_eq) fun _ more hus => hus.append more

theorem Statements.piece {ss : List Stmt} (h : Statements false ts ss rest) :
    Piece (fun a b => Statements false a ss b) ts rest :=
  .of_detached h.detached (fun _ hus => hus.openBrackets_eq) fun _ more hus => hus.append more

end Pieces

end Grammar

end ScopeScript
