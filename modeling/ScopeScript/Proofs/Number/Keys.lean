import ScopeScript.Proofs.Eval.Objects
import ScopeScript.Proofs.Number.Integers

/-!
# Numbers as keys

The text of a number reads as the number whatever the number is: `inf` and `-inf` are numerals too,
and the one `NaN` stands for every NaN.  So two numbers have one text only if they are one double
(`formatNumber_injective`), and a number in square brackets names the property that no other number
names.

Main result: `numbers_told_apart`.
-/

namespace ScopeScript

open Binary64

/-! ## Bits -/

namespace Binary64

open Float.Model Float.Model.UnpackedFloat

variable {a b : UInt64} {x : Float}

theorem isNaNBits_iff :
    @isNaNBits Format.binary64 b.toBitVec = true ↔ infinityWord < b.toNat % 2 ^ 63 := by
  have hlt := b.toNat_lt
  have hexponent : (@unpackExponent Format.binary64 b.toBitVec).toNat =
      b.toNat / 2 ^ 52 % 2 ^ 11 := by
    simp [unpackExponent_def, Nat.shiftRight_eq_div_pow]
  have hmantissa : (@unpackMantissa Format.binary64 b.toBitVec).toNat = b.toNat % 2 ^ 52 := by
    simp [unpackMantissa_def]
  rw [isNaNBits, decide_eq_true_eq, ne_eq, ← BitVec.toNat_inj, ← BitVec.toNat_inj, hexponent,
    hmantissa, infinityWord_eq]
  show b.toNat / 2 ^ 52 % 2 ^ 11 = 2047 ∧ ¬ b.toNat % 2 ^ 52 = 0 ↔ _
  omega

theorem toBitVec_toBits_ofBits : (Float.ofBits b).toBits.toBitVec =
    if @isNaNBits Format.binary64 b.toBitVec then packedNaN Format.binary64 else b.toBitVec :=
  @pack_unpack Format.binary64 b.toBitVec (by decide)

theorem isNaN_ofBits : (Float.ofBits b).isNaN = @isNaNBits Format.binary64 b.toBitVec := by
  have hpacked : (Float.ofBits b).isNaN = true ↔
      (Float.ofBits b).toBits.toBitVec = packedNaN Format.binary64 :=
    isNaN_unpack_iff_of_valid (Float.ofBits b).toModel.valid
  rw [Bool.eq_iff_iff, hpacked, toBitVec_toBits_ofBits]
  split
  · next hnan => exact ⟨fun _ => hnan, fun _ => rfl⟩
  · exact ⟨fun h => h ▸ isNaNBits_packedNaN, fun h => absurd h ‹_›⟩

/-- Other doubles than NaNs keep their bits. -/
theorem toBits_ofBits (h : (Float.ofBits b).isNaN = false) : (Float.ofBits b).toBits = b := by
  rw [isNaN_ofBits] at h
  refine UInt64.toBitVec_inj.1 ?_
  rw [toBitVec_toBits_ofBits, h, if_neg Bool.false_ne_true]

theorem isNaN_iff_eq_nan : x.isNaN = true ↔ x = nan := by
  rw [Float.isNaN_eq_decide_eq_nan, decide_eq_true_eq]
  rfl

/-- The two patterns are one double; all NaNs are. -/
def SameDouble (a b : UInt64) : Prop :=
  a = b ∨ (Float.ofBits a).isNaN = true ∧ (Float.ofBits b).isNaN = true

theorem ofBits_eq_iff : Float.ofBits a = Float.ofBits b ↔ SameDouble a b := by
  constructor
  · intro h
    cases hnan : (Float.ofBits a).isNaN with
    | true => exact .inr ⟨hnan, h ▸ hnan⟩
    | false =>
      have hbits := congrArg Float.toBits h
      rw [toBits_ofBits hnan, toBits_ofBits (h ▸ hnan)] at hbits
      exact .inl hbits
  · rintro (rfl | ⟨ha, hb⟩)
    · rfl
    · rw [isNaN_iff_eq_nan.1 ha, isNaN_iff_eq_nan.1 hb]

theorem word_le_of_isNaN_eq_false (h : x.isNaN = false) : word x ≤ infinityWord := by
  rw [← Float.ofBits_toBits x, isNaN_ofBits, Bool.eq_false_iff, ne_eq, isNaNBits_iff] at h
  exact Nat.not_lt.1 h

end Binary64

/-! ## Texts -/

theorem formatNumber_of_infinite {x : Float} (h : word x = infinityWord) :
    formatNumber x = if isNegative x then "-inf" else "inf" := by
  rw [formatNumber_eq_positionalForm]
  unfold positionalForm signedForm
  dsimp only
  rw [h, if_neg (Nat.lt_irrefl _), if_pos rfl]
  cases isNegative x <;> rfl

theorem read?_of_infinite {x : Float} (h : word x = infinityWord) :
    Numeral.read? (formatNumber x) = some x := by
  have hx := ofWord_word x
  rw [h] at hx
  rw [formatNumber_of_infinite h]
  cases hsign : isNegative x <;> rw [hsign] at hx <;> exact congrArg some hx

/-- The text of a number is read as the number. -/
theorem read?_formatNumber (x : Float) : Numeral.read? (formatNumber x) = some x := by
  cases hnan : x.isNaN with
  | true =>
    rw [isNaN_iff_eq_nan.1 hnan]
    have htext : formatNumber nan = "NaN" := by decide +kernel
    rw [htext]
    rfl
  | false =>
    rcases Nat.lt_or_eq_of_le (word_le_of_isNaN_eq_false hnan) with hfinite | hinfinite
    · exact Numeral.read?_formatNumber hfinite
    · exact read?_of_infinite hinfinite

theorem formatNumber_injective : Function.Injective formatNumber := by
  intro x y h
  have hread := congrArg Numeral.read? h
  rw [read?_formatNumber, read?_formatNumber] at hread
  exact Option.some.inj hread

theorem formatNumber_eq_iff {a b : UInt64} :
    formatNumber (.ofBits a) = formatNumber (.ofBits b) ↔ SameDouble a b :=
  formatNumber_injective.eq_iff.trans ofBits_eq_iff

/-- The text of a finite number without a sign is one token. -/
theorem tokensOf_formatNumber {x : Float} (hx : word x < infinityWord)
    (hsign : isNegative x = false) :
    Token.tokensOf (formatNumber x) = .ok [⟨.number, formatNumber x, 1⟩, .endAt 1] := by
  obtain ⟨c, run, htext, hc, hrun, hpoints⟩ :=
    (Numeral.isDecimal_formatNumber hx hsign).exists_cons
  have hscan : Token.scan 1 (c :: run ++ []) = _ := Token.scan_number hc hrun hpoints nofun
  rw [List.append_nil, ← htext, String.ofList_toList, Token.scan_nil] at hscan
  exact hscan

/-! ## Keys -/

namespace Eval

variable {calls : Calls} {opts : Options} {scope : ScopeId}

/-- Two keys that read the same of every object are one text. -/
theorem key_eq_of_reads {k l : Expr} {x y : Float} {m m₁ m₂ : Machine} {line : Nat}
    (hk : expr calls opts scope k m = .ok (.number x) m₁)
    (hl : expr calls opts scope l m = .ok (.number y) m₂)
    (hreads : ∀ (object : Expr) (o : Record Value) (m₀ : Machine),
      expr calls opts scope object m₀ = .ok (.object o) m →
        ∃ v, expr calls opts scope (.index object k line) m₀ = .ok v m₁ ∧
          expr calls opts scope (.index object l line) m₀ = .ok v m₂) :
    formatNumber x = formatNumber y := by
  -- an object that has the one property only
  let o : Record Value := ⟨[(formatNumber x, .string "")]⟩
  have hobject : expr calls opts scope
      (.object [.field (formatNumber x) (.string "" line) line] line) m = .ok (.object o) m := rfl
  obtain ⟨v, hkv, hlv⟩ := hreads _ o m hobject
  rw [index_apply hobject hk rfl] at hkv
  rw [index_apply hobject hl rfl] at hlv
  by_contra hne
  have hfound : o.get? (formatNumber x) = some (.string "") := by simp [o, Record.get?]
  have hmissed : o.get? (formatNumber y) = none := by simp [o, Record.get?, hne]
  rw [hfound] at hkv
  rw [hmissed] at hlv
  cases hkv
  cases hlv

end Eval

open Eval in
/-- The text of a number reads as the number, bit for bit unless it is a NaN, and is one token where
it has no sign.  So numbers with one text are one double, whichever way they are written, and so are
numbers that read the same property of every object. -/
theorem numbers_told_apart :
    (∀ b : UInt64, (Float.ofBits b).isNaN = false →
      (Numeral.read? (formatNumber (.ofBits b))).map Float.toBits = some b) ∧
    (∀ x : Float, x.isFinite = true → isNegative x = false →
      Token.tokensOf (formatNumber x) = .ok [⟨.number, formatNumber x, 1⟩, .endAt 1]) ∧
    (∀ a b : UInt64, formatNumber (.ofBits a) = formatNumber (.ofBits b) ↔ SameDouble a b) ∧
    (∀ (x y : Float) (n : Int), safeInteger? x = some n → safeInteger? y = none →
      formatNumber x ≠ formatNumber y) ∧
    ∀ (calls : Calls) (opts : Options) (scope : ScopeId) (k l : Expr) (a b : UInt64)
      (m m₁ m₂ : Machine) (line : Nat),
      expr calls opts scope k m = .ok (.number (.ofBits a)) m₁ →
      expr calls opts scope l m = .ok (.number (.ofBits b)) m₂ →
        ((∀ (object : Expr) (o : Record Value) (m₀ : Machine),
          expr calls opts scope object m₀ = .ok (.object o) m →
            ∃ v, expr calls opts scope (.index object k line) m₀ = .ok v m₁ ∧
              expr calls opts scope (.index object l line) m₀ = .ok v m₂) ↔
          SameDouble a b) := by
  refine ⟨fun b hb => ?_, fun x hx => tokensOf_formatNumber (word_lt_of_isFinite hx),
    fun a b => formatNumber_eq_iff, fun x y n hx hy h => ?_,
    fun calls opts scope k l a b m m₁ m₂ line hk hl => ⟨fun hreads => ?_, fun hsame => ?_⟩⟩
  · rw [read?_formatNumber, Option.map_some, toBits_ofBits hb]
  · rw [formatNumber_injective h, hy] at hx
    cases hx
  · exact formatNumber_eq_iff.1 (key_eq_of_reads hk hl hreads)
  · intro object o m₀ hobject
    rw [index_apply hobject hk rfl, index_apply hobject hl rfl, formatNumber_eq_iff.2 hsame]
    exact ⟨_, rfl, rfl⟩

open Eval in
/-- The last number that is written as an integer and the next one, which is written in the other
way: some object has a property for only one of them. -/
theorem numbers_told_apart_large :
    let a : UInt64 := 0x433FFFFFFFFFFFFF
    let b : UInt64 := 0x4340000000000000
    let run := expr (callsWithin Host.none 0) {} 0
    ((Float.ofBits b).isNaN = false ∧ (Float.ofBits b).isFinite = true ∧
      isNegative (.ofBits b) = false) ∧
    (safeInteger? (.ofBits a) = some 9007199254740991 ∧ safeInteger? (.ofBits b) = none) ∧
    (Numeral.read? (formatNumber (.ofBits b))).map Float.toBits = some b ∧
    Token.tokensOf (formatNumber (.ofBits b)) =
      .ok [⟨.number, formatNumber (.ofBits b), 1⟩, .endAt 1] ∧
    formatNumber (.ofBits a) ≠ formatNumber (.ofBits b) ∧
    ¬ ∀ (object : Expr) (o : Record Value) (m : Machine), run object m = .ok (.object o) {} →
      ∃ v, run (.index object (.number (.ofBits a) 1) 1) m = .ok v {} ∧
        run (.index object (.number (.ofBits b) 1) 1) m = .ok v {} := by
  intro a b run
  have hnumber : (Float.ofBits b).isNaN = false := by decide +kernel
  have hfinite : (Float.ofBits b).isFinite = true := by decide +kernel
  have hsign : isNegative (.ofBits b) = false := by decide +kernel
  have hinteger : safeInteger? (.ofBits a) = some 9007199254740991 := by decide +kernel
  have hlarge : safeInteger? (.ofBits b) = none := by decide +kernel
  have hdistinct : ¬ SameDouble a b := by
    rintro (heq | ⟨-, hnan⟩)
    · exact absurd heq (by decide)
    · exact Bool.false_ne_true (hnumber.symm.trans hnan)
  obtain ⟨hread, htokens, -, hways, hkeys⟩ := numbers_told_apart
  exact ⟨⟨hnumber, hfinite, hsign⟩, ⟨hinteger, hlarge⟩, hread b hnumber, htokens _ hfinite hsign,
    hways _ _ _ hinteger hlarge, mt (hkeys _ _ _ _ _ a b {} {} {} 1 rfl rfl).1 hdistinct⟩

end ScopeScript
