import Mathlib
import ScopeScript.Number.Numeral
import ScopeScript.Proofs.Token.Patterns

/-!
# Scanned numbers

A number token that was read from a text is a run of digits with at most one point (`IsDecimal`),
and every such run is a numeral.  So no number that was scanned is refused as one.  It has no sign,
and reads as a double that is zero or more, perhaps infinity.

    scan_decimal    the number tokens of a text are decimals
    scan_readable   and spell numbers

Mathlib is imported whole, for no part of it has what is known about the bits of doubles.
-/

namespace ScopeScript

/-! ## Doubles without a sign -/

namespace Binary64

open Float.Model Float.Model.UnpackedFloat

theorem infinityWord_eq : infinityWord = 9218868437227405312 := rfl

/-- The sign of a word up to that of infinity is plus, and its exponent is not that of a NaN. -/
theorem bits_of_word {w : Nat} (hw : w ≤ infinityWord) :
    let bits : BitVec Format.binary64.numBits := (UInt64.ofNat w).toBitVec
    unpackSign bits = 0#1 ∧ isNaNBits bits = false := by
  intro bits
  rw [infinityWord_eq] at hw
  have hbits : bits.toNat = w := by
    simp [bits]
    omega
  refine ⟨?_, ?_⟩
  · refine BitVec.eq_of_toNat_eq ?_
    simp [unpackSign_def, hbits, Nat.shiftRight_eq_div_pow]
    omega
  · rw [isNaNBits, decide_eq_false_iff_not]
    rintro ⟨hexponent, hmantissa⟩
    have hexponent' := congrArg BitVec.toNat hexponent
    have hmantissa' : (unpackMantissa bits).toNat ≠ 0 := fun h =>
      hmantissa (BitVec.eq_of_toNat_eq h)
    simp [unpackExponent_def, unpackMantissa_def, hbits, Nat.shiftRight_eq_div_pow]
      at hexponent' hmantissa'
    omega

theorem unpack_ofBits {u : UInt64} (h : @isNaNBits Format.binary64 u.toBitVec = false) :
    (Float.ofBits u).toModel.unpack = UnpackedFloat.unpack Format.binary64 u.toBitVec := by
  have hpack := @pack_unpack Format.binary64 u.toBitVec
  rw [h, if_neg Bool.false_ne_true] at hpack
  exact congrArg (UnpackedFloat.unpack Format.binary64) hpack

theorem unpack_zero : (0.0 : Float).toModel.unpack = .zero .positive := by
  have hbits : (0.0 : Float).toBits = 0 := by decide +kernel
  show UnpackedFloat.unpack Format.binary64 (0.0 : Float).toBits.toBitVec = _
  rw [hbits]
  rfl

/-- Whatever is unpacked from bits with the sign plus is no less than zero, unless it is a NaN. -/
theorem zero_le_unpack {bits : BitVec Format.binary64.numBits} (hsign : unpackSign bits = 0#1)
    (hnan : isNaNBits bits = false) :
    (UnpackedFloat.unpack Format.binary64 bits).isNaN = false ∧
      (UnpackedFloat.zero .positive).le (UnpackedFloat.unpack Format.binary64 bits) = true := by
  have hplus : Sign.ofBitVec (unpackSign bits) = .positive := by
    rw [hsign]
    rfl
  have hnot : ¬ (unpackExponent bits = -1#11 ∧ unpackMantissa bits ≠ 0#52) := by
    simpa [isNaNBits] using hnan
  unfold UnpackedFloat.unpack
  dsimp only
  rw [hplus]
  split
  · next hexponent =>
    rw [if_pos (not_not.1 fun hmantissa => hnot ⟨hexponent, hmantissa⟩)]
    exact ⟨rfl, rfl⟩
  · split
    · split
      · exact ⟨rfl, rfl⟩
      · exact ⟨rfl, rfl⟩
    · exact ⟨rfl, rfl⟩

theorem ofWord_nonneg {w : Nat} (hw : w ≤ infinityWord) :
    (ofWord false w).isNaN = false ∧ 0.0 ≤ ofWord false w := by
  obtain ⟨hsign, hnan⟩ := bits_of_word hw
  have hunpack : (ofWord false w).toModel.unpack =
      UnpackedFloat.unpack Format.binary64 (UInt64.ofNat w).toBitVec := unpack_ofBits hnan
  obtain ⟨hnumber, hle⟩ := zero_le_unpack hsign hnan
  refine ⟨?_, ?_⟩
  · show (ofWord false w).toModel.unpack.isNaN = false
    rwa [hunpack]
  · refine decide_eq_true (p := (0.0 : Float).toModel ≤ (ofWord false w).toModel) ?_
    show (0.0 : Float).toModel.unpack.le (ofWord false w).toModel.unpack = true
    rwa [unpack_zero, hunpack]

end Binary64

theorem Decimal.toWord_le (d : Decimal) : d.toWord ≤ Binary64.infinityWord := by
  unfold toWord
  split
  · exact Nat.zero_le _
  · split
    · exact Nat.le_refl _
    · split
      · exact Nat.zero_le _
      · exact Nat.min_le_right _ _

/-! ## Decimals are numerals -/

namespace Numeral

theorem takeSign_digit {c : Char} (hc : c.isDigit) (cs : List Char) :
    takeSign (c :: cs) = (false, c :: cs) := by
  unfold takeSign
  split
  · next heq =>
    obtain ⟨rfl, -⟩ := List.cons.inj heq
    cases hc
  · next heq =>
    obtain ⟨rfl, -⟩ := List.cons.inj heq
    cases hc
  · rfl

theorem toLower_digit {c : Char} (hc : c.isDigit) : c.toLower = c := by
  have hhigh : c.toNat ≤ 57 := (Char.isDigit_iff_toNat.1 hc).2
  refine dif_neg fun hupper => ?_
  have hlow : 65 ≤ c.toNat := UInt32.le_iff_toNat_le.1 hupper.1
  omega

/-- What starts with a digit is no word. -/
theorem named?_digit {c : Char} (hc : c.isDigit) (cs : List Char) : named? (c :: cs) = none := by
  have hne {d : Char} (hd : d.isDigit = false) : c ≠ d := by
    rintro rfl
    rw [hd] at hc
    cases hc
  have hn : c ≠ 'n' := hne rfl
  have hi : c ≠ 'i' := hne rfl
  simp [named?, toLower_digit hc, hn, hi]

variable {whole fraction : List Char}

theorem splitDecimal_whole (hwhole : ∀ c ∈ whole, c.isDigit) :
    splitDecimal whole = (whole, [], []) := by
  have htake : whole.takeWhile Char.isDigit = whole := List.takeWhile_eq_self_iff.2 hwhole
  have hdrop : whole.dropWhile Char.isDigit = [] := List.dropWhile_eq_nil_iff.2 hwhole
  simp [splitDecimal, htake, hdrop]

theorem splitDecimal_point (hwhole : ∀ c ∈ whole, c.isDigit)
    (hfraction : ∀ c ∈ fraction, c.isDigit) :
    splitDecimal (whole ++ '.' :: fraction) = (whole, fraction, []) := by
  have htake : fraction.takeWhile Char.isDigit = fraction :=
    List.takeWhile_eq_self_iff.2 hfraction
  have hdrop : fraction.dropWhile Char.isDigit = [] := List.dropWhile_eq_nil_iff.2 hfraction
  have hpoint : Char.isDigit '.' = false := by decide
  simp [splitDecimal, List.takeWhile_append_of_pos hwhole, List.dropWhile_append_of_pos hwhole,
    htake, hdrop, hpoint]

/-- Digits, and perhaps a point and further digits, spell the decimal that one expects. -/
theorem unsigned?_digit {c : Char} {cs : List Char} (hc : c.isDigit)
    (hsplit : splitDecimal (c :: cs) = (whole, fraction, [])) (hne : whole ≠ []) :
    unsigned? (c :: cs) =
      some (.decimal ⟨digitsValue (whole ++ fraction), -(fraction.length : Int)⟩) := by
  simp [unsigned?, named?_digit hc, hsplit, hne, exponent?]

end Numeral

namespace Token

/-- A decimal is the numeral of a double that is zero or more. -/
theorem IsDecimal.read?_eq {text : String} (h : IsDecimal text) :
    ∃ x, Numeral.read? text = some x ∧ x.isNaN = false ∧ 0.0 ≤ x := by
  obtain ⟨whole, fraction, hne, hwhole, hfraction, htext⟩ := h
  obtain ⟨c, run, rfl⟩ := List.exists_cons_of_ne_nil hne
  have hc : c.isDigit := hwhole c List.mem_cons_self
  have hread (cs : List Char) (hcs : text.toList = c :: cs) {fraction : List Char}
      (hsplit : Numeral.splitDecimal (c :: cs) = (c :: run, fraction, [])) :
      ∃ x, Numeral.read? text = some x ∧ x.isNaN = false ∧ 0.0 ≤ x := by
    have hunsigned := Numeral.unsigned?_digit hc hsplit hne
    let d : Decimal := ⟨Numeral.digitsValue (c :: run ++ fraction), -(fraction.length : Int)⟩
    refine ⟨Binary64.ofWord false d.toWord, ?_, Binary64.ofWord_nonneg d.toWord_le⟩
    unfold Numeral.read?
    rw [hcs, Numeral.takeSign_digit hc]
    dsimp only
    rw [hunsigned]
    rfl
  rcases htext with htext | htext
  · exact hread run htext (Numeral.splitDecimal_whole hwhole)
  · exact hread _ htext (Numeral.splitDecimal_point hwhole hfraction)

theorem IsDecimal.readable {text : String} (h : IsDecimal text) :
    (Numeral.read? text).isSome := by
  obtain ⟨x, hx, -⟩ := h.read?_eq
  rw [hx]
  rfl

/-! ## Scanned numbers are decimals -/

theorem isDecimal_of_run {c : Char} {cs : List Char} (hc : c.isDigit)
    (hcs : ∀ d ∈ cs, isNumberChar d) (hpoints : (c :: cs).count '.' ≤ 1) :
    IsDecimal (String.ofList (c :: cs)) := by
  have hrun : ∀ d ∈ c :: cs, isNumberChar d := by
    intro d hd
    rcases List.mem_cons.1 hd with rfl | hd
    · simp [isNumberChar, hc]
    · exact hcs d hd
  have hwhole : ∀ d ∈ (c :: cs).takeWhile Char.isDigit, d.isDigit :=
    List.all_eq_true.1 List.all_takeWhile
  have hne : (c :: cs).takeWhile Char.isDigit ≠ [] := by simp [hc]
  have hsplit := List.takeWhile_append_dropWhile (p := Char.isDigit) (l := c :: cs)
  cases hdrop : (c :: cs).dropWhile Char.isDigit with
  | nil =>
    rw [hdrop, List.append_nil] at hsplit
    exact ⟨_, [], hne, hwhole, List.forall_mem_nil _, .inl (by rw [String.toList_ofList, hsplit])⟩
  | cons d fraction =>
    rw [hdrop] at hsplit
    have hd : d = '.' := by
      have hnot := List.head_dropWhile_not Char.isDigit (l := c :: cs) (by simp [hdrop])
      have hmem : d ∈ c :: cs := by
        rw [← hsplit]
        simp
      have hnumber := hrun d hmem
      simp only [hdrop, List.head_cons] at hnot
      simpa [isNumberChar, hnot] using hnumber
    subst hd
    refine ⟨_, fraction, hne, hwhole, fun x hx => ?_, .inr (by rw [String.toList_ofList, hsplit])⟩
    have hmem : x ∈ c :: cs := by
      rw [← hsplit]
      simp [hx]
    -- a second point would be one too many
    have hx' : x ≠ '.' := by
      rintro rfl
      rw [← hsplit, List.count_append, List.count_cons_self] at hpoints
      have := List.count_pos_iff.2 hx
      omega
    simpa [isNumberChar, hx'] using hrun x hmem

/-- The number tokens are the decimals. -/
theorem spelled_number_iff {text : String} {line : Nat} :
    (⟨.number, text, line⟩ : Token).Spelled ↔ IsDecimal text := by
  constructor
  · rintro ⟨c, run, htext, hc, hrun, hpoints⟩
    have hpoint : c ≠ '.' := by
      rintro rfl
      cases hc
    have hdecimal := isDecimal_of_run hc hrun (by rwa [List.count_cons_of_ne hpoint])
    rwa [← htext, String.ofList_toList] at hdecimal
  · intro h
    obtain ⟨c, run, htext, hc, hrun, hpoints⟩ := h.exists_cons
    exact ⟨c, run, htext, hc, hrun, Nat.le_trans List.count_le_count_cons hpoints⟩

theorem scan_decimal {line : Nat} {cs : List Char} {ts : List Token} (h : scan line cs = .ok ts) :
    ∀ t ∈ ts, t.kind = .number → IsDecimal t.text := by
  intro t ht hk
  rcases spelled_of_scan h t ht with hspelled | heof
  · obtain ⟨kind, text, line'⟩ := t
    obtain rfl : kind = .number := hk
    exact spelled_number_iff.1 hspelled
  · rw [hk] at heof
    cases heof

theorem scan_readable {line : Nat} {cs : List Char} {ts : List Token} (h : scan line cs = .ok ts) :
    ∀ t ∈ ts, t.kind = .number → (Numeral.read? t.text).isSome :=
  fun t ht hk => (scan_decimal h t ht hk).readable

end Token

end ScopeScript
