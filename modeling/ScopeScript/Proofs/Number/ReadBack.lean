import ScopeScript.Number.Written
import ScopeScript.Proofs.Number.Rounding
import ScopeScript.Proofs.Token.Numbers

/-!
# Numbers read back

The text of a finite number is a decimal with perhaps a minus sign before it, and reads as the
number that it was written for:

    Numeral.read? (formatNumber x) = some x          (Numeral.read?_formatNumber)

The digits of the shortest decimal lie where everything rounds to the word
(`Decimal.shortest_roundsTo`), and writing them in full keeps them there
(`Decimal.unsigned?_positional`).
-/

namespace ScopeScript

open Binary64

/-! ## Shortest decimals -/

namespace Decimal

variable {d : Decimal} {w : Nat}

/-- The test that the search makes of twice a quotient. -/
theorem inside_iff {num den p : Nat} (hp : p = 2 * num) :
    (if w % 2 == 0 then decide (lowerBound w * den ≤ p) && decide (p ≤ upperBound w * den)
      else decide (lowerBound w * den < p) && decide (p < upperBound w * den)) = true ↔
      Near w num den := by
  subst hp
  unfold lowerBound upperBound
  split
  · next heven =>
    have heven' : w % 2 = 0 := eq_of_beq heven
    simp only [Bool.and_eq_true, decide_eq_true_eq]
    exact ⟨fun h => ⟨h.1, h.2, fun hodd => by omega⟩, fun h => ⟨h.low, h.high⟩⟩
  · next hodd =>
    have hodd' : w % 2 = 1 := by
      rw [beq_iff_eq] at hodd
      omega
    simp only [Bool.and_eq_true, decide_eq_true_eq]
    exact ⟨fun h => ⟨Nat.le_of_lt h.1, Nat.le_of_lt h.2, fun _ => h⟩, fun h => h.odd hodd'⟩

theorem roundsTo_of_onGrid? {k : Int} (h : onGrid? w k = some d) : d.RoundsTo w := by
  unfold onGrid? at h
  extract_lets scale step value low high inside digits down up at h
  have hscale : scale = 10 ^ (-k).toNat := Nat.pow_eq
  have hpoint (n : Nat) : n * step = 2 * (n * 10 ^ k.toNat * unitsPerOne) := by
    simp only [step, Nat.pow_eq]
    ring
  have hinside (n : Nat) (hn : inside (n * step) = true) : RoundsTo ⟨n, k⟩ w := by
    unfold RoundsTo
    rw [← hscale]
    exact (inside_iff (hpoint n)).1 hn
  split at h
  · next hdown =>
    cases h
    exact hinside _ (Bool.and_eq_true_iff.1 hdown).1
  · split at h
    · next hup =>
      cases h
      exact hinside _ hup
    · cases h

/-- A decimal that is exactly the word. -/
theorem roundsTo_of_exact {n k : Nat} (hw : 0 < w) (h : n * unitsPerOne = units w * 10 ^ k) :
    RoundsTo ⟨n, -(k : Int)⟩ w := by
  have hnear : Near w (units w * 10 ^ k) (10 ^ k) := near_self hw (Nat.pow_pos (by norm_num))
  rw [← h] at hnear
  simpa [RoundsTo] using hnear

theorem shortest_roundsTo (hw : 0 < w) : (shortest w).RoundsTo w := by
  unfold shortest
  cases hgrid : (List.range 18).findSome? fun (n : Nat) => onGrid? w (ceilingPower w - n) with
  | some d =>
    obtain ⟨n, -, hn⟩ := List.exists_of_findSome?_eq_some hgrid
    exact roundsTo_of_onGrid? hn
  | none =>
    have hexact : Nat.pow 5 1074 * unitsPerOne = 10 ^ 1074 := by decide +kernel
    exact roundsTo_of_exact (k := 1074) hw (by rw [Nat.mul_assoc, hexact])

end Decimal

/-! ## Digits -/

namespace Numeral

theorem digitsValue_toDigits (n : Nat) : digitsValue (Nat.toDigits 10 n) = n :=
  Nat.ofDigitChars_ten_toDigits

/-- Zeros at the end count, zeros at the start do not. -/
theorem digitsValue_zeros (cs : List Char) (k : Nat) :
    digitsValue (cs ++ List.replicate k '0') = digitsValue cs * 10 ^ k := by
  show Nat.ofDigitChars 10 (cs ++ List.replicate k '0') 0 = _
  rw [Nat.ofDigitChars_append, Nat.ofDigitChars_replicate_zero, Nat.mul_comm]
  rfl

theorem zeros_digitsValue (cs : List Char) (k : Nat) :
    digitsValue (List.replicate k '0' ++ cs) = digitsValue cs := by
  show Nat.ofDigitChars 10 (List.replicate k '0' ++ cs) 0 = _
  rw [Nat.ofDigitChars_append, Nat.ofDigitChars_replicate_zero, Nat.mul_zero]
  rfl

theorem isDigit_toDigits {n : Nat} : ∀ c ∈ Nat.toDigits 10 n, c.isDigit :=
  fun _ => Nat.isDigit_of_mem_toDigits (by norm_num) (by norm_num)

/-- The two forms of a decimal, and what they spell. -/
theorem unsigned?_of_digits (whole fraction : List Char) {cs : List Char} (hne : whole ≠ [])
    (hwhole : ∀ c ∈ whole, c.isDigit) (hfraction : ∀ c ∈ fraction, c.isDigit)
    (hcs : cs = whole ∧ fraction = [] ∨ cs = whole ++ '.' :: fraction) :
    Token.IsDecimal (String.ofList cs) ∧
      unsigned? cs =
        some (.decimal ⟨digitsValue (whole ++ fraction), -(fraction.length : Int)⟩) := by
  obtain ⟨c, run, rfl⟩ := List.exists_cons_of_ne_nil hne
  have hc : c.isDigit := hwhole c List.mem_cons_self
  have hdecimal : Token.IsDecimal (String.ofList cs) := by
    refine ⟨c :: run, fraction, hne, hwhole, hfraction, ?_⟩
    rw [String.toList_ofList]
    exact hcs.imp_left And.left
  refine ⟨hdecimal, ?_⟩
  rcases hcs with ⟨rfl, rfl⟩ | rfl
  · exact unsigned?_digit hc (splitDecimal_whole hwhole) hne
  · exact unsigned?_digit hc (splitDecimal_point hwhole hfraction) hne

end Numeral

namespace Decimal

open Numeral

/-- The digits in full are a decimal, which rounds as `d` does. -/
theorem unsigned?_positional (d : Decimal) :
    Token.IsDecimal (String.ofList d.positional) ∧
      ∃ d', unsigned? d.positional = some (.decimal d') ∧ ∀ w, d.RoundsTo w → d'.RoundsTo w := by
  obtain ⟨n, e⟩ := d
  have hvalue := digitsValue_toDigits n
  have hdigit {cs : List Char} (hcs : ∀ c ∈ cs, c = '0' ∨ c ∈ Nat.toDigits 10 n) :
      ∀ c ∈ cs, c.isDigit := by
    intro c hc
    rcases hcs c hc with rfl | hc
    · rfl
    · exact isDigit_toDigits c hc
  have hsome : Nat.toDigits 10 n ≠ [] := Nat.toDigits_ne_nil
  unfold positional
  dsimp only
  generalize Nat.toDigits 10 n = digits at *
  split
  · -- a whole number
    next hexponent =>
    obtain ⟨k, rfl⟩ := Int.eq_ofNat_of_zero_le hexponent
    obtain ⟨hdecimal, hread⟩ := unsigned?_of_digits (digits ++ List.replicate k '0') []
      (by simp [hsome]) (hdigit (by simp; tauto)) nofun (.inl ⟨rfl, rfl⟩)
    refine ⟨hdecimal, _, hread, fun w hw => ?_⟩
    rw [List.append_nil, digitsValue_zeros, hvalue, List.length_nil]
    exact RoundsTo.of_zeros (n := n) (e := k) hw
  · next hexponent =>
    obtain ⟨k, rfl⟩ : ∃ k : Nat, e = -(k : Int) := ⟨(-e).toNat, by omega⟩
    have hk : (- -(k : Int)).toNat = k := by omega
    simp only [hk]
    split
    · -- some digits stand before the point
      next hplaces =>
      obtain ⟨hdecimal, hread⟩ := unsigned?_of_digits (digits.take (digits.length - k))
        (digits.drop (digits.length - k)) (by simp [hsome]; omega)
        (hdigit fun c hc => .inr (List.mem_of_mem_take hc))
        (hdigit fun c hc => .inr (List.mem_of_mem_drop hc)) (.inr rfl)
      refine ⟨hdecimal, _, hread, fun w hw => ?_⟩
      have hlength : (digits.drop (digits.length - k)).length = k := by
        rw [List.length_drop]
        omega
      rwa [List.take_append_drop, hvalue, hlength]
    · -- zeros stand between the point and the digits
      next hplaces =>
      let zeros := List.replicate (k - digits.length) '0'
      obtain ⟨hdecimal, hread⟩ := unsigned?_of_digits ['0'] (zeros ++ digits)
        (List.cons_ne_nil _ _) (hdigit (by simp)) (hdigit (by simp [zeros]; tauto)) (.inr rfl)
      refine ⟨hdecimal, _, hread, fun w hw => ?_⟩
      have hlength : (zeros ++ digits).length = k := by
        rw [List.length_append, List.length_replicate]
        omega
      have hall : ['0'] ++ (zeros ++ digits) =
          List.replicate (k - digits.length + 1) '0' ++ digits := by
        rw [← List.append_assoc]
        rfl
      rwa [hall, zeros_digitsValue, hvalue, hlength]

end Decimal

/-! ## Numbers -/

namespace Binary64

open Float.Model Float.Model.UnpackedFloat

/-- A double is its sign and its word. -/
theorem ofWord_word (x : Float) : ofWord (isNegative x) (word x) = x := by
  have hlt := x.toBits.toNat_lt
  have hbits : (if isNegative x then Nat.pow 2 63 + word x else word x) = x.toBits.toNat := by
    unfold isNegative word
    simp only [decide_eq_true_eq, Nat.pow_eq]
    split <;> omega
  unfold ofWord
  rw [hbits, UInt64.ofNat_toNat, Float.ofBits_toBits]

theorem word_lt_of_isFinite {x : Float} (hx : x.isFinite) : word x < infinityWord := by
  have hunpack : (UnpackedFloat.unpack Format.binary64 x.toBits.toBitVec).isFinite = true := hx
  have hexponent : @unpackExponent Format.binary64 x.toBits.toBitVec ≠ -1#11 := by
    intro h
    unfold UnpackedFloat.unpack at hunpack
    dsimp only at hunpack
    rw [if_pos h] at hunpack
    split at hunpack <;> cases hunpack
  have hlt := x.toBits.toNat_lt
  have hne : x.toBits.toNat / 2 ^ 52 % 2 ^ 11 ≠ 2047 := by
    intro h
    refine hexponent (BitVec.eq_of_toNat_eq ?_)
    simpa [unpackExponent_def, Nat.shiftRight_eq_div_pow] using h
  rw [infinityWord_eq, word, Nat.pow_eq]
  omega

theorem beq_self_of_isFinite {x : Float} (hx : x.isFinite) : (x == x) = true := by
  have hfinite : x.toModel.unpack.isFinite = true := hx
  show x.toModel.unpack.beq x.toModel.unpack = true
  cases hunpack : x.toModel.unpack with
  | notANumber | infinity =>
    rw [hunpack] at hfinite
    cases hfinite
  | zero s => rfl
  | finite s m e hm => cases s <;> simp [UnpackedFloat.beq, UnpackedFloat.compare]

end Binary64

/-! ## Integers -/

/-- The double is the integer `n`; `-0` is none. -/
structure IsInteger (x : Float) (n : Int) : Prop where
  units : units (word x) = n.natAbs * unitsPerOne
  sign : isNegative x = true ↔ n < 0

namespace IsInteger

variable {x : Float} {n : Int}

theorem word_lt (h : IsInteger x n) (hn : n.natAbs ≤ 2 ^ 53 - 1) : word x < infinityWord := by
  by_contra hlarge
  have hmono := units_strictMono.monotone (Nat.not_lt.1 hlarge)
  have hinfinity : 2 ^ 53 * unitsPerOne ≤ Binary64.units infinityWord := by decide +kernel
  have hlt : n.natAbs * unitsPerOne < 2 ^ 53 * unitsPerOne :=
    Nat.mul_lt_mul_of_pos_right (by omega) unitsPerOne_pos
  rw [← h.units] at hlt
  omega

theorem word_eq_zero_iff (h : IsInteger x n) : word x = 0 ↔ n = 0 := by
  have hunits := h.units
  constructor
  · intro hzero
    rw [hzero] at hunits
    have hnone := (Nat.mul_eq_zero.1 hunits.symm).resolve_right (Nat.ne_of_gt unitsPerOne_pos)
    exact Int.natAbs_eq_zero.1 hnone
  · rintro rfl
    by_contra hne
    have hpos := units_pos (Nat.pos_of_ne_zero hne)
    rw [Int.natAbs_zero, Nat.zero_mul] at hunits
    omega

theorem eq_signed (h : IsInteger x n) :
    n = if isNegative x then -(n.natAbs : Int) else n.natAbs := by
  by_cases hnegative : isNegative x = true
  · rw [if_pos hnegative]
    have := h.sign.1 hnegative
    omega
  · rw [if_neg hnegative]
    have := mt h.sign.2 hnegative
    omega

theorem toString_eq (h : IsInteger x n) : toString n = String.ofList
    (if isNegative x then '-' :: Nat.toDigits 10 n.natAbs else Nat.toDigits 10 n.natAbs) := by
  by_cases hnegative : isNegative x = true
  · rw [if_pos hnegative]
    obtain ⟨k, rfl⟩ := Int.eq_negSucc_of_lt_zero (h.sign.1 hnegative)
    show "-" ++ (k + 1).repr = _
    rw [Nat.repr_eq_ofList_toDigits, ← String.toList_inj]
    simp
  · rw [if_neg hnegative]
    obtain ⟨k, rfl⟩ := Int.eq_ofNat_of_zero_le (Int.not_lt.1 (mt h.sign.2 hnegative))
    exact Nat.repr_eq_ofList_toDigits

/-- An integer without decimals reads as its double. -/
theorem toWord_eq (h : IsInteger x n) (hfinite : word x < infinityWord) :
    Decimal.toWord ⟨n.natAbs, 0⟩ = word x := by
  rcases Nat.eq_zero_or_pos (word x) with hzero | hpos
  · rw [h.word_eq_zero_iff.1 hzero, hzero]
    rfl
  · refine Decimal.RoundsTo.toWord_eq ?_ hpos hfinite
    exact Decimal.roundsTo_of_exact (k := 0) hpos (by rw [← h.units, Nat.pow_zero, Nat.mul_one])

end IsInteger

theorem safeInteger?_eq_some_iff {x : Float} {n : Int} :
    safeInteger? x = some n ↔ IsInteger x n ∧ n.natAbs ≤ 2 ^ 53 - 1 := by
  constructor
  · intro h
    unfold safeInteger? at h
    dsimp only at h
    split at h
    · cases h
    · next hordinary =>
      split at h
      · cases h
      · next hwhole =>
        split at h
        · next hsafe =>
          cases h
          have hmod : units (word x) % unitsPerOne = 0 := by simpa using hwhole
          have hunits := (Nat.div_mul_cancel (Nat.dvd_of_mod_eq_zero hmod)).symm
          rw [Nat.pow_eq] at hsafe
          generalize units (word x) / unitsPerOne = k at *
          by_cases hnegative : isNegative x = true
          · have hword : word x ≠ 0 := fun hzero => by simp [hnegative, hzero] at hordinary
            have hpos : k ≠ 0 := by
              rintro rfl
              have := units_pos (Nat.pos_of_ne_zero hword)
              omega
            rw [if_pos hnegative]
            refine ⟨⟨by rwa [Int.natAbs_neg, Int.natAbs_natCast], ?_⟩, by omega⟩
            exact ⟨fun _ => by omega, fun _ => hnegative⟩
          · rw [if_neg hnegative]
            refine ⟨⟨by rwa [Int.natAbs_natCast], ?_⟩, by omega⟩
            exact ⟨fun h => absurd h hnegative, fun h => by omega⟩
        · cases h
  · rintro ⟨h, hn⟩
    have hfinite := h.word_lt hn
    have hordinary : ¬ (infinityWord ≤ word x || word x == 0 && isNegative x) = true := by
      simp only [Bool.or_eq_true, Bool.and_eq_true, decide_eq_true_eq, beq_iff_eq]
      rintro (hlarge | ⟨hzero, hnegative⟩)
      · omega
      · have := h.sign.1 hnegative
        have := h.word_eq_zero_iff.1 hzero
        omega
    have hsafe : n.natAbs < Nat.pow 2 53 := by
      rw [Nat.pow_eq]
      omega
    unfold safeInteger?
    dsimp only
    rw [if_neg hordinary, h.units, Nat.mul_mod_left, Nat.mul_div_cancel _ unitsPerOne_pos,
      if_neg (by simp), if_pos hsafe, ← h.eq_signed]

namespace Numeral

/-- The text of a finite number: a minus sign where it has one, and a decimal that reads as its
word. -/
theorem exists_magnitude {x : Float} (hx : word x < infinityWord) :
    ∃ cs d, formatNumber x = String.ofList (if isNegative x then '-' :: cs else cs) ∧
      Token.IsDecimal (String.ofList cs) ∧ unsigned? cs = some (.decimal d) ∧
      d.toWord = word x := by
  unfold formatNumber
  split
  · next n hn =>
    have hinteger := (safeInteger?_eq_some_iff.1 hn).1
    obtain ⟨hdecimal, hread⟩ := unsigned?_of_digits (Nat.toDigits 10 n.natAbs) []
      Nat.toDigits_ne_nil isDigit_toDigits nofun (.inl ⟨rfl, rfl⟩)
    rw [List.append_nil, digitsValue_toDigits] at hread
    exact ⟨_, _, hinteger.toString_eq, hdecimal, hread, hinteger.toWord_eq hx⟩
  · unfold positionalForm signedForm
    rw [if_neg (Nat.not_lt.2 (Nat.le_of_lt hx))]
    dsimp only
    rw [if_neg (Nat.ne_of_lt hx)]
    rcases Nat.eq_zero_or_pos (word x) with hzero | hpos
    · rw [if_pos hzero, hzero]
      have hdigit : ∀ c ∈ ['0'], c.isDigit := List.forall_mem_singleton.2 rfl
      obtain ⟨hdecimal, hread⟩ := unsigned?_of_digits ['0'] [] (List.cons_ne_nil _ _)
        hdigit nofun (.inl ⟨rfl, rfl⟩)
      exact ⟨_, _, rfl, hdecimal, hread, rfl⟩
    · rw [if_neg (Nat.ne_of_gt hpos)]
      obtain ⟨hdecimal, d, hread, hrounds⟩ := (Decimal.shortest (word x)).unsigned?_positional
      exact ⟨_, d, rfl, hdecimal, hread,
        (hrounds _ (Decimal.shortest_roundsTo hpos)).toWord_eq hpos hx⟩

/-- Without a sign the whole text is a decimal. -/
theorem isDecimal_formatNumber {x : Float} (hx : word x < infinityWord)
    (hsign : isNegative x = false) : Token.IsDecimal (formatNumber x) := by
  obtain ⟨cs, d, htext, hdecimal, -⟩ := exists_magnitude hx
  rw [hsign] at htext
  rwa [htext]

/-- The text of a finite number is read as the number, bit for bit. -/
theorem read?_formatNumber {x : Float} (hx : word x < infinityWord) :
    read? (formatNumber x) = some x := by
  obtain ⟨cs, d, htext, hdecimal, hread, hword⟩ := exists_magnitude hx
  obtain ⟨c, run, hcons, hc, -⟩ := hdecimal.exists_cons
  rw [String.toList_ofList] at hcons
  have hsign : takeSign (formatNumber x).toList = (isNegative x, cs) := by
    rw [htext, String.toList_ofList]
    cases isNegative x with
    | true => rfl
    | false =>
      rw [hcons]
      exact takeSign_digit hc run
  have hx : toFloat (isNegative x) (.decimal d) = x := by
    show ofWord (isNegative x) d.toWord = x
    rw [hword, ofWord_word]
  unfold read?
  rw [hsign]
  dsimp only
  rw [hread, Option.map_some, hx]

end Numeral

end ScopeScript
