import ScopeScript.Proofs.Routines.Steps

/-!
# Calls take tokens or go down

A call is made on tokens that are left, so on a suffix of what its caller was given, and it is made
on fewer tokens, or by a routine of higher rank.  This holds whatever answers the calls, if only
the answers leave suffixes and statements take tokens (`Steady`).

    steps_forward    everything happens on suffixes
    steps_descend    every call takes tokens or goes down
-/

namespace ScopeScript.Parser

/-- Parsers that take tokens off the front, of which the one of statements takes some. -/
structure Steady (c : Parsers) : Prop where
  suffix : ∀ r, Suffix (c r)
  statement : Consumes (c .statement)

variable {α β : Type} {c : Parsers}

/-! ## Forward -/

/-- The steps take tokens off the front, and so do the calls they make. -/
structure Steps.Forward (c : Parsers) (s : Steps α) : Prop where
  suffix : Suffix (s.parser c)
  calls : ∀ ts r us, (r, us) ∈ s.calls c ts → us <:+ ts

namespace Steps.Forward

theorem act {p : Parser α} (h : Suffix p) : (Steps.act p).Forward c := ⟨h, nofun⟩

theorem pure (a : α) : (Pure.pure a : Steps α).Forward c := act (suffix_pure a)

theorem fail (e : ParseError) : (Steps.fail e : Steps α).Forward c := act (suffix_throw e)

theorem call (hc : Steady c) (r : Routine) : (Steps.call r).Forward c := by
  refine ⟨hc.suffix r, fun ts r' us h => ?_⟩
  cases List.mem_singleton.1 h
  exact List.suffix_refl ts

theorem within {s : Steps α} (h : s.Forward c) (b : Bracket) (line : Nat) :
    (Steps.within b line s).Forward c := ⟨h.suffix.within b line, h.calls⟩

theorem bind {s : Steps α} {f : α → Steps β} (hs : s.Forward c) (hf : ∀ a, (f a).Forward c) :
    (s >>= f).Forward c := by
  refine ⟨hs.suffix.bind fun a => (hf a).suffix, fun ts r us h => ?_⟩
  rcases mem_calls_bind.1 h with h | ⟨a, rest, hrun, h⟩
  · exact hs.calls ts r us h
  · exact ((hf a).calls rest r us h).trans (hs.suffix.of_ok hrun)

theorem act_bind {p : Parser α} {f : α → Steps β} (hp : Suffix p) (hf : ∀ a, (f a).Forward c) :
    (Steps.act p >>= f).Forward c := (act hp).bind hf

end Steps.Forward

section Forward

theorem forward_orEmpty (b : Bracket) {s : Steps (List α)} (h : s.Forward c) :
    (Steps.orEmpty b s).Forward c := by
  refine .act_bind suffix_peekKind fun k => ?_
  split
  · exact .act_bind suffix_advance fun _ => .pure _
  · exact h

theorem forward_item (b : Bracket) (line : Nat) {first : Steps α} {others : Steps (List α)}
    (hfirst : first.Forward c) (hothers : others.Forward c) :
    (Steps.item b line first others).Forward c := by
  refine .act_bind suffix_peekKind fun k => ?_
  split
  · exact .fail _
  · refine hfirst.bind fun x => .act_bind suffix_peekKind fun k => ?_
    split
    · exact .act_bind suffix_advance fun _ => hothers.bind fun _ => .pure _
    · split
      · exact .act_bind suffix_advance fun _ => .pure _
      · split
        · exact .fail _
        · exact .act (suffix_refuse _)

theorem forward_link {level : Steps Expr} (accepts : BinaryOp → Bool) (left : Expr)
    {others : Expr → Steps Expr} (hlevel : level.Forward c) (hothers : ∀ e, (others e).Forward c) :
    (Steps.link level accepts left others).Forward c := by
  refine .act_bind suffix_peek fun t => ?_
  split
  · split
    · exact .act_bind suffix_advance fun _ => hlevel.bind fun _ => hothers _
    · exact .pure _
  · exact .pure _

/-- What stands in brackets and the bracket behind it. -/
theorem forward_closed {s : Steps α} (h : s.Forward c) (b : Bracket) (line : Nat) (f : α → β) :
    (Steps.within b line do
      let a ← s
      close b line
      return f a).Forward c :=
  (h.bind fun _ => .act_bind (suffix_close b line) fun _ => .pure _).within b line

section Parts

variable (hc : Steady c)

include hc

theorem forward_field (key : String) (line : Nat) : (Steps.field key line).Forward c := by
  have hcall (r : Routine) : (Steps.call r).Forward c := .call hc r
  refine .act_bind suffix_peekKind fun k => ?_
  split
  · exact .act_bind suffix_advance fun _ => (hcall _).bind fun _ => .pure _
  · split
    · exact (hcall _).bind fun _ => .pure _
    · refine .act_bind (suffix_expect _ _) fun _ => (hcall _).bind fun _ =>
        .act_bind suffix_peekKind fun k => ?_
      split
      · exact .act_bind suffix_advance fun _ => (hcall _).bind fun _ => .pure _
      · split
        · exact (hcall _).bind fun _ => .pure _
        · exact .act (suffix_refuse _)

theorem forward_declaration (constant : Bool) (line : Nat) :
    (Steps.declaration constant line).Forward c := by
  refine .act_bind suffix_identifier fun name => .act_bind suffix_peekKind fun k => ?_
  split
  · exact .act_bind suffix_advance fun _ => (Steps.Forward.call hc _).bind fun _ => .pure _
  · exact .pure _

theorem forward_function (line : Nat) : (Steps.function line).Forward c :=
  .act_bind suffix_identifier fun _ => .act_bind (suffix_expect _ _) fun _ =>
    ((forward_orEmpty _ (.call hc _)).within _ _).bind fun _ =>
      (Steps.Forward.call hc _).bind fun _ => .pure _

theorem steps_forward (r : Routine) : r.steps.Forward c := by
  have hcall (r : Routine) : (Steps.call r).Forward c := .call hc r
  cases r with
  | primary =>
    refine .act_bind suffix_peek fun t => ?_
    split
    · exact .act_bind suffix_advance fun _ => .pure _
    · refine .act_bind suffix_advance fun _ => ?_
      split
      · exact .pure _
      · exact .fail _
    · exact .act_bind suffix_advance fun _ => .pure _
    · exact .act_bind suffix_advance fun _ => forward_closed (hcall _) _ _ id
    · exact .act (suffix_refuse _)
  | suffixes e =>
    refine .act_bind suffix_peek fun t => ?_
    split
    · exact .act_bind suffix_advance fun _ => .act_bind suffix_peek fun _ =>
        .act_bind suffix_identifier fun _ => hcall _
    · refine .act_bind suffix_advance fun _ => .bind ?_ fun key => ?_
      · exact forward_closed (hcall _) _ _ id
      · exact hcall _
    · refine .act_bind suffix_advance fun _ => .bind ?_ fun es => ?_
      · exact (forward_orEmpty _ (hcall _)).within _ _
      · exact hcall _
    · exact .pure _
  | operand => exact (hcall _).bind fun _ => hcall _
  | factors left => exact forward_link _ _ (hcall .operand) fun e => hcall (.factors e)
  | multiplicative => exact (hcall _).bind fun _ => hcall _
  | terms left => exact forward_link _ _ (hcall .multiplicative) fun e => hcall (.terms e)
  | additive => exact (hcall _).bind fun _ => hcall _
  | properties =>
    refine .act_bind suffix_peek fun t => ?_
    split
    · exact .pure _
    · exact .act_bind suffix_identifier fun key => forward_field hc key _
  | objectLiteral =>
    refine .act_bind suffix_peek fun t => ?_
    split
    · exact .act_bind suffix_advance fun _ => forward_closed (hcall _) _ _ _
    · exact hcall _
  | expression =>
    refine (hcall _).bind fun left => .act_bind suffix_peek fun t => ?_
    split
    · exact .act_bind suffix_advance fun _ => (hcall _).bind fun _ => .pure _
    · exact .pure _
  | arguments line => exact forward_item _ _ (hcall _) (hcall _)
  | parameters line => exact forward_item _ _ (.act suffix_identifier) (hcall _)
  | semicolons =>
    refine .act_bind suffix_peekKind fun k => ?_
    split
    · exact .act_bind suffix_advance fun _ => hcall _
    · exact .pure _
  | statement =>
    refine .act_bind suffix_peek fun t => ?_
    split
    · exact .act_bind suffix_advance fun _ => forward_declaration hc _ _
    · exact .act_bind suffix_advance fun _ => forward_declaration hc _ _
    · exact .act_bind suffix_advance fun _ => forward_function hc _
    · exact (hcall _).bind fun _ => .pure _
  | statements inBlock =>
    refine (hcall _).bind fun _ => .act_bind suffix_peekKind fun k => ?_
    split
    · exact .pure _
    · exact (hcall _).bind fun _ => (hcall _).bind fun _ => .pure _
  | statementList =>
    exact .act_bind (suffix_expect _ _) fun _ => forward_closed (hcall _) _ _ id
  | program => exact hcall _

end Parts

end Forward

/-! ## Down -/

/-- On `ts`, the steps call only what is of lower rank than `r`, or on fewer tokens than `k`. -/
def Steps.Descends (c : Parsers) (r : Routine) (k : Nat) (s : Steps α) (ts : List Token) : Prop :=
  ∀ r' us, (r', us) ∈ s.calls c ts → us.length < k ∨ r'.rank < r.rank

namespace Steps.Descends

variable {r : Routine} {k : Nat} {ts : List Token}

/-- Behind the first token everything is allowed. -/
theorem of_forward {s : Steps α} (h : s.Forward c) (hk : ts.length < k) : s.Descends c r k ts :=
  fun r' us hmem => .inl (Nat.lt_of_le_of_lt (h.calls ts r' us hmem).length_le hk)

theorem act (p : Parser α) : (Steps.act p).Descends c r k ts := nofun

theorem call {r' : Routine} (h : r'.rank < r.rank) : (Steps.call r').Descends c r k ts := by
  intro r'' us hmem
  cases List.mem_singleton.1 hmem
  exact .inr h

theorem bind {s : Steps α} {f : α → Steps β} (hs : s.Descends c r k ts)
    (hf : ∀ a rest, s.parser c ts = .ok a rest → (f a).Descends c r k rest) :
    (s >>= f).Descends c r k ts := by
  intro r' us h
  rcases mem_calls_bind.1 h with h | ⟨a, rest, hrun, h⟩
  · exact hs r' us h
  · exact hf a rest hrun r' us h

theorem peek_bind {f : Token → Steps α} (h : (f (next ts)).Descends c r k ts) :
    (Steps.act peek >>= f).Descends c r k ts := by
  refine bind (act peek) fun a rest hrun => ?_
  cases hrun
  exact h

theorem peekKind_bind {f : TokenKind → Steps α} (h : (f (next ts).kind).Descends c r k ts) :
    (Steps.act peekKind >>= f).Descends c r k ts := by
  refine bind (act peekKind) fun a rest hrun => ?_
  cases hrun
  exact h

/-- A parser that takes tokens, and then anything. -/
theorem consume_bind {p : Parser α} {f : α → Steps β} (hp : ConsumesAt p ts)
    (hf : ∀ a, (f a).Forward c) (hk : ts.length ≤ k) : (Steps.act p >>= f).Descends c r k ts :=
  bind (act p) fun a rest hrun => of_forward (hf a) (Nat.lt_of_lt_of_le (hp a rest hrun) hk)

theorem advance_bind {f : Unit → Steps α} (hne : (next ts).kind ≠ .eof)
    (hf : ∀ a, (f a).Forward c) (hk : ts.length ≤ k) :
    (Steps.act advance >>= f).Descends c r k ts :=
  consume_bind (consumesAt_advance ts (suffix_pure ()) hne) hf hk

end Steps.Descends

section Descends

variable {r : Routine} {k : Nat} {ts : List Token}

theorem descends_item (b : Bracket) (line : Nat) {first : Steps α} {others : Steps (List α)}
    (hfirst : first.Forward c) (hfirst' : first.Descends c r k ts) (hothers : others.Forward c)
    (hk : ts.length ≤ k) : (Steps.item b line first others).Descends c r k ts := by
  refine .peekKind_bind ?_
  split
  · exact .act _
  · refine hfirst'.bind fun x rest hrun => .peekKind_bind ?_
    have hle := hfirst.suffix.length_le hrun
    split
    · next hcomma =>
      exact .advance_bind (by simp [hcomma]) (fun _ => hothers.bind fun _ => .pure _) (by omega)
    · split
      · next hclose =>
        exact .advance_bind (hclose ▸ closing_ne_eof b) (fun _ => .pure _) (by omega)
      · split
        · exact .act _
        · exact .act _

theorem descends_link {level : Steps Expr} (accepts : BinaryOp → Bool) (left : Expr)
    {others : Expr → Steps Expr} (hlevel : level.Forward c) (hothers : ∀ e, (others e).Forward c)
    (hk : ts.length ≤ k) : (Steps.link level accepts left others).Descends c r k ts := by
  refine .peek_bind ?_
  split
  · next op hop =>
    split
    · have hne : (next ts).kind ≠ .eof := fun heof => by
        simp [operatorOf?, heof] at hop
      exact .advance_bind hne (fun _ => hlevel.bind fun _ => hothers _) hk
    · exact .act _
  · exact .act _

/-- Every call of a routine is made after it took a token, or goes to a routine of lower rank. -/
theorem steps_descend (hc : Steady c) (r : Routine) (ts : List Token) :
    r.steps.Descends c r ts.length ts := by
  have hcall (r : Routine) : (Steps.call r).Forward c := .call hc r
  have hle : ts.length ≤ ts.length := Nat.le_refl _
  -- where a routine starts with a call of lower rank, its other calls need a look at what is left
  have hsecond {r' : Routine} {rest : List Token} {a : r'.Result} (h : c r' ts = .ok a rest) :
      rest.length ≤ ts.length := (hc.suffix r').length_le h
  cases r with
  | primary =>
    refine .peek_bind ?_
    split
    · exact .bind (.act _) fun _ _ _ => .act _
    · refine .bind (.act _) fun _ _ _ => ?_
      split
      · exact .act _
      · exact .act _
    · exact .bind (.act _) fun _ _ _ => .act _
    · next hk =>
      exact .advance_bind (by simp [hk]) (fun _ => forward_closed (hcall _) _ _ id) hle
    · exact .act _
  | suffixes e =>
    refine .peek_bind ?_
    split
    · next hk =>
      exact .advance_bind (by simp [hk]) (fun _ => .act_bind suffix_peek fun _ =>
        .act_bind suffix_identifier fun _ => hcall _) hle
    · next hk =>
      refine .advance_bind (by simp [hk]) (fun _ => .bind ?_ fun key => ?_) hle
      · exact forward_closed (hcall _) _ _ id
      · exact hcall _
    · next hk =>
      refine .advance_bind (by simp [hk]) (fun _ => .bind ?_ fun es => ?_) hle
      · exact (forward_orEmpty _ (hcall _)).within _ _
      · exact hcall _
    · exact .act _
  | operand => exact .bind (.call (by simp)) fun _ _ _ => .call (by simp)
  | factors left =>
    exact descends_link _ _ (hcall .operand) (fun e => hcall (.factors e)) hle
  | multiplicative => exact .bind (.call (by simp)) fun _ _ _ => .call (by simp)
  | terms left =>
    exact descends_link _ _ (hcall .multiplicative) (fun e => hcall (.terms e)) hle
  | additive => exact .bind (.call (by simp)) fun _ _ _ => .call (by simp)
  | properties =>
    refine .peek_bind ?_
    split
    · exact .act _
    · exact .consume_bind (consumes_identifier ts) (fun key => forward_field hc key _) hle
  | objectLiteral =>
    refine .peek_bind ?_
    split
    · next hk => exact .advance_bind (by simp [hk]) (fun _ => forward_closed (hcall _) _ _ _) hle
    · exact .call (by simp)
  | expression =>
    refine .bind (.call (by simp)) fun left rest hrun => .peek_bind ?_
    split
    · next hk =>
      exact .advance_bind (by simp [hk]) (fun _ => (hcall _).bind fun _ => .pure _) (hsecond hrun)
    · exact .act _
  | arguments line =>
    exact descends_item _ _ (hcall .expression) (.call (by simp)) (hcall (.arguments line)) hle
  | parameters line =>
    exact descends_item _ _ (.act suffix_identifier) (.act _) (hcall (.parameters line)) hle
  | semicolons =>
    refine .peekKind_bind ?_
    split
    · next hk => exact .advance_bind (by simp [hk]) (fun _ => hcall _) hle
    · exact .act _
  | statement =>
    refine .peek_bind ?_
    split
    · next hk => exact .advance_bind (by simp [hk]) (fun _ => forward_declaration hc _ _) hle
    · next hk => exact .advance_bind (by simp [hk]) (fun _ => forward_declaration hc _ _) hle
    · next hk => exact .advance_bind (by simp [hk]) (fun _ => forward_function hc _) hle
    · exact .bind (.call (by simp)) fun _ _ _ => .act _
  | statements inBlock =>
    refine .bind (.call (by simp)) fun _ mid hmid => .peekKind_bind ?_
    split
    · exact .act _
    · refine .bind (.call (by simp)) fun s rest hrest => ?_
      have hlt := hc.statement mid s rest hrest
      have hmid := hsecond hmid
      exact .of_forward ((hcall _).bind fun _ => .pure _) (by omega)
  | statementList =>
    exact .consume_bind (consumes_expect _ (by decide) ts)
      (fun _ => forward_closed (hcall _) _ _ id) hle
  | program => exact .call (by simp)

end Descends

end ScopeScript.Parser
