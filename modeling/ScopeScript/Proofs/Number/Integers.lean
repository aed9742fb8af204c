import Mathlib.Data.List.Basic
import ScopeScript.Proofs.Number.ReadBack

/-!
# Integers are written as all numbers are

Below `2 ^ 53` the words are at most one apart, so the only integer that rounds to an integer is that
integer itself (`Decimal.RoundsTo.eq_of_whole`).  The search for the shortest decimal goes from
coarse grids to fine ones; it stops at the units or before, where every point is an integer.  So what
it finds is the integer with some of its zeros taken off, which `positional` puts back.

Main result: `integers_written_shortest`.
-/

namespace ScopeScript

open Binary64

/-! ## Whole words -/

/-- The word stands for the natural number `n`, below `2 ^ 53`. -/
structure Whole (w n : Nat) : Prop where
  units : Binary64.units w = n * unitsPerOne
  lt : n < 2 ^ 53

namespace Whole

variable {w n : Nat}

theorem upper_le (h : Whole w n) : Decimal.upperBound w ≤ 2 * (n * unitsPerOne) + unitsPerOne := by
  have hlt := Nat.mul_lt_mul_of_pos_right h.lt unitsPerOne_pos
  rw [← h.units] at hlt
  have hgap := units_succ_le hlt
  have hunits := h.units
  unfold Decimal.upperBound
  omega

theorem le_lower (h : Whole w n) : 2 * (n * unitsPerOne) ≤ Decimal.lowerBound w + unitsPerOne := by
  have hunits := h.units
  unfold Decimal.lowerBound
  rcases Nat.eq_zero_or_pos w with rfl | hw
  · rw [Nat.zero_sub]
    omega
  · have hbelow : Binary64.units (w - 1) < Binary64.units w :=
      units_strictMono (Nat.sub_lt hw Nat.one_pos)
    have hlt := Nat.mul_lt_mul_of_pos_right h.lt unitsPerOne_pos
    rw [← hunits] at hlt
    have hgap := units_succ_le (hbelow.trans hlt)
    rw [Nat.sub_add_cancel hw] at hgap
    omega

end Whole

/-! ## Digits -/

theorem toDigits_mul_pow {n : Nat} (hn : 0 < n) (k : Nat) :
    Nat.toDigits 10 (n * 10 ^ k) = Nat.toDigits 10 n ++ List.replicate k '0' := by
  induction k with
  | zero => rw [Nat.pow_zero, Nat.mul_one, List.replicate_zero, List.append_nil]
  | succ k ih =>
    have hpos : 0 < n * 10 ^ k := Nat.mul_pos hn (Nat.pow_pos (by norm_num))
    have happend := Nat.toDigits_append_toDigits (b := 10) (d := 0) (by norm_num) hpos (by norm_num)
    rw [Nat.add_zero, Nat.toDigits_zero] at happend
    rw [Nat.pow_succ, ← Nat.mul_assoc, Nat.mul_comm _ 10, ← happend, ih, List.append_assoc,
      ← List.replicate_succ']

theorem length_toDigits_mono {m n : Nat} (h : m ≤ n) :
    (Nat.toDigits 10 m).length ≤ (Nat.toDigits 10 n).length := by
  refine (Nat.length_toDigits_le_iff (by norm_num) Nat.length_toDigits_pos).2 ?_
  exact Nat.lt_of_le_of_lt h ((Nat.length_toDigits_le_iff (by norm_num)
    Nat.length_toDigits_pos).1 (Nat.le_refl _))

namespace Decimal

variable {d : Decimal} {w n : Nat}

/-- A decimal without a point. -/
theorem positional_of_nonneg (hdigits : 0 < d.digits) (hexponent : 0 ≤ d.exponent) :
    d.positional = Nat.toDigits 10 (d.digits * 10 ^ d.exponent.toNat) := by
  unfold positional
  dsimp only
  rw [if_pos hexponent, toDigits_mul_pow hdigits]

/-- A decimal with a point is longer than its digits. -/
theorem length_lt_positional (hexponent : d.exponent < 0) :
    (Nat.toDigits 10 d.digits).length < d.positional.length := by
  unfold positional
  dsimp only
  rw [if_neg (by omega)]
  split
  · simp
    omega
  · simp
    omega

/-! ## Integers among decimals -/

/-- Integers that are less than one apart. -/
theorem le_of_units {a b : Nat} (h : 2 * (a * unitsPerOne) ≤ 2 * (b * unitsPerOne) + unitsPerOne) :
    a ≤ b := by
  by_contra hlt
  have hnext := Nat.mul_le_mul_right unitsPerOne (Nat.succ_le_of_lt (Nat.not_le.1 hlt))
  have hpos := unitsPerOne_pos
  rw [Nat.succ_mul] at hnext
  omega

/-- Only the integer itself rounds to it. -/
theorem RoundsTo.eq_of_whole (h : d.RoundsTo w) (hw : Whole w n) (hexponent : 0 ≤ d.exponent) :
    d.digits * 10 ^ d.exponent.toNat = n := by
  obtain ⟨hlow, hhigh, -⟩ := h
  rw [(by omega : (-d.exponent).toNat = 0), Nat.pow_zero, Nat.mul_one] at hlow hhigh
  generalize d.digits * 10 ^ d.exponent.toNat = m at *
  have hleast := hw.le_lower
  have hmost := hw.upper_le
  unfold lowerBound at hleast
  unfold upperBound at hmost
  exact Nat.le_antisymm (le_of_units (by omega)) (le_of_units (by omega))

/-- With decimals after the point it takes more digits than the integer has. -/
theorem RoundsTo.le_digits_of_whole (h : d.RoundsTo w) (hw : Whole w n) (hn : 0 < n)
    (hexponent : d.exponent < 0) : n ≤ d.digits := by
  have hlow : lowerBound w * 10 ^ (-d.exponent).toNat ≤
      2 * (d.digits * 10 ^ d.exponent.toNat * unitsPerOne) := h.low
  rw [(by omega : d.exponent.toNat = 0), Nat.pow_zero, Nat.mul_one] at hlow
  have hscale : 2 ≤ 10 ^ (-d.exponent).toNat :=
    Nat.le_trans (by norm_num) (Nat.pow_le_pow_right (n := 10) (by norm_num)
      (by omega : 1 ≤ (-d.exponent).toNat))
  have hscaled := Nat.mul_le_mul_left (lowerBound w) hscale
  have hleast := hw.le_lower
  have hone := Nat.mul_le_mul_right unitsPerOne hn
  exact le_of_units (by omega)

/-- Among the decimals that read as an integer none is written shorter than the integer. -/
theorem shortest_of_whole (hw : Whole w n) (hn : 0 < n) (h : d.toWord = w) (hpos : 0 < w)
    (hfinite : w < infinityWord) :
    d.positional = Nat.toDigits 10 n ∨ (Nat.toDigits 10 n).length < d.positional.length := by
  have hrounds := RoundsTo.of_toWord h hpos hfinite
  rcases Int.lt_or_le d.exponent 0 with hexponent | hexponent
  · refine .inr (Nat.lt_of_le_of_lt ?_ (length_lt_positional hexponent))
    exact length_toDigits_mono (hrounds.le_digits_of_whole hw hn hexponent)
  · refine .inl ?_
    rw [positional_of_nonneg (hrounds.digits_pos hpos) hexponent,
      hrounds.eq_of_whole hw hexponent]

/-! ## The search -/

theorem exponent_of_onGrid? {k : Int} (h : onGrid? w k = some d) : d.exponent = k := by
  unfold onGrid? at h
  extract_lets at h
  split at h
  · cases h
    rfl
  · split at h
    · cases h
      rfl
    · cases h

/-- An integer lies on the grid of the units. -/
theorem onGrid?_zero_ne_none (hw : Whole w n) (hpos : 0 < w) : onGrid? w 0 ≠ none := by
  unfold onGrid?
  extract_lets scale step value low high inside digits down up
  have hstep_pos : 0 < step := by
    have := unitsPerOne_pos
    simp only [step, Int.toNat_zero, Nat.pow_eq, Nat.pow_zero]
    omega
  have hvalue : value = n * step := by
    simp only [value, scale, step, hw.units, Int.neg_zero, Int.toNat_zero, Nat.pow_eq]
    ring
  have hdown : down = value := by
    simp only [down, digits, hvalue]
    rw [Nat.mul_div_cancel _ hstep_pos]
  have hup : up = value + step := by
    simp only [up, digits, hvalue]
    rw [Nat.mul_div_cancel _ hstep_pos, Nat.succ_mul]
  have hinside : inside down = true := by
    have hdouble : down = 2 * (units w * 1) := by
      simp only [hdown, value, scale, Int.neg_zero, Int.toNat_zero, Nat.pow_eq]
      ring
    exact (inside_iff hdouble).2 (near_self hpos Nat.one_pos)
  have hcloser : value - down < up - value := by omega
  rw [if_pos (by rw [hinside, decide_eq_true hcloser, Bool.or_true, Bool.and_true])]
  exact nofun

/-- An integer has as many digits as its ceiling says. -/
theorem ceilingPower_of_whole (hw : Whole w n) (hn : 0 < n) :
    ceilingPower w = (Nat.toDigits 10 n).length := by
  unfold ceilingPower
  generalize hk : (330 : Nat) = k
  rw [hw.units, Nat.pow_eq, Nat.mul_right_comm, Nat.mul_div_cancel _ unitsPerOne_pos,
    toDigits_mul_pow hn, List.length_append, List.length_replicate]
  omega

theorem length_toDigits_le (hw : Whole w n) : (Nat.toDigits 10 n).length ≤ 16 :=
  (Nat.length_toDigits_le_iff (by norm_num) (by norm_num)).2 (hw.lt.trans (by norm_num))

/-- A search through `0, 1, …` finds something no later than where there is something. -/
theorem findSome?_range_of_ne_none {α : Type} {f : Nat → Option α} {l k : Nat} (hk : k < l)
    (hf : f k ≠ none) : ∃ i ≤ k, ∃ a, (List.range l).findSome? f = some a ∧ f i = some a := by
  cases hsearch : (List.range l).findSome? f with
  | none => exact absurd (List.findSome?_eq_none_iff.1 hsearch k (List.mem_range.2 hk)) hf
  | some a =>
    obtain ⟨before, i, after, hrange, hi, hbefore⟩ := List.findSome?_eq_some_iff.1 hsearch
    refine ⟨i, ?_, a, rfl, hi⟩
    by_contra hlate
    have hmem : k ∈ before ++ i :: after := hrange ▸ List.mem_range.2 hk
    have hsorted : (before ++ i :: after).Pairwise (· < ·) := hrange ▸ List.pairwise_lt_range
    have hafter := (List.pairwise_cons.1 (List.pairwise_append.1 hsorted).2.1).1 k
    rcases List.mem_append.1 hmem with hmem | hmem
    · exact hf (hbefore k hmem)
    · rcases List.mem_cons.1 hmem with rfl | hmem
      · omega
      · have := hafter hmem
        omega

/-- The search finds the integer on the grid of the units or before. -/
theorem shortest_whole (hw : Whole w n) (hn : 0 < n) (hpos : 0 < w) :
    0 ≤ (shortest w).exponent := by
  have hlength := length_toDigits_le hw
  unfold shortest
  rw [ceilingPower_of_whole hw hn]
  generalize (Nat.toDigits 10 n).length = k at *
  have hunits : onGrid? w (k - k : Int) ≠ none := by
    rw [Int.sub_self]
    exact onGrid?_zero_ne_none hw hpos
  obtain ⟨i, hi, d, hsearch, hd⟩ := findSome?_range_of_ne_none
    (f := fun (i : Nat) => onGrid? w (k - i)) (by omega : k < 18) hunits
  rw [hsearch, Option.getD_some, exponent_of_onGrid? hd]
  omega

theorem positional_shortest (hw : Whole w n) (hn : 0 < n) (hpos : 0 < w) :
    (shortest w).positional = Nat.toDigits 10 n := by
  have hrounds := shortest_roundsTo hpos
  have hexponent := shortest_whole hw hn hpos
  rw [positional_of_nonneg (hrounds.digits_pos hpos) hexponent,
    hrounds.eq_of_whole hw hexponent]

/-- Nothing that reads as zero is written shorter than zero. -/
theorem shortest_of_zero (h : d.toWord = 0) : d.positional = ['0'] ∨ 1 < d.positional.length := by
  have hdigits : 1 ≤ (Nat.toDigits 10 d.digits).length := Nat.length_toDigits_pos
  rcases Int.lt_or_le d.exponent 0 with hexponent | hexponent
  · exact .inr (Nat.lt_of_le_of_lt hdigits (length_lt_positional hexponent))
  · obtain ⟨m, e⟩ := d
    obtain ⟨k, rfl⟩ := Int.eq_ofNat_of_zero_le hexponent
    have hlength : (positional ⟨m, k⟩).length = (Nat.toDigits 10 m).length + k := by
      simp [positional]
    rcases Nat.lt_or_ge 1 (positional ⟨m, k⟩).length with hlong | hshort
    · exact .inr hlong
    · dsimp only at hdigits
      obtain rfl : k = 0 := by omega
      have hsingle : (Nat.toDigits 10 m).length ≤ 1 := by omega
      have hm : m < 10 := (Nat.length_toDigits_le_iff (by norm_num) Nat.one_pos).1 hsingle
      have hone : ∀ i < 10, i ≠ 0 → toWord ⟨i, (0 : Nat)⟩ ≠ 0 := by decide +kernel
      obtain rfl : m = 0 := by
        by_contra hne
        exact hone m hm hne h
      exact .inl rfl

end Decimal

/-! ## Numbers -/

theorem IsInteger.whole {x : Float} {n : Int} (h : IsInteger x n) (hn : n.natAbs ≤ 2 ^ 53 - 1) :
    Whole (word x) n.natAbs :=
  ⟨h.units, by omega⟩

theorem positionalForm_of_integer {x : Float} {n : Int} (h : IsInteger x n)
    (hn : n.natAbs ≤ 2 ^ 53 - 1) : positionalForm x = toString n := by
  have hfinite := h.word_lt hn
  unfold positionalForm signedForm
  rw [if_neg (Nat.not_lt.2 (Nat.le_of_lt hfinite))]
  dsimp only
  rw [if_neg (Nat.ne_of_lt hfinite), h.toString_eq]
  rcases Nat.eq_zero_or_pos (word x) with hzero | hpos
  · rw [if_pos hzero, h.word_eq_zero_iff.1 hzero]
    rfl
  · have hnonzero : 0 < n.natAbs := by
      have := mt h.word_eq_zero_iff.2 (Nat.ne_of_gt hpos)
      omega
    rw [if_neg (Nat.ne_of_gt hpos), Decimal.positional_shortest (h.whole hn) hnonzero hpos]

/-- The two forms of a number are one. -/
theorem formatNumber_eq_positionalForm (x : Float) : formatNumber x = positionalForm x := by
  unfold formatNumber
  split
  · next n hn =>
    obtain ⟨hinteger, hsafe⟩ := safeInteger?_eq_some_iff.1 hn
    exact (positionalForm_of_integer hinteger hsafe).symm
  · rfl

/-- Nothing that reads as an integer is written shorter than the integer. -/
theorem IsInteger.shortest {x : Float} {n : Int} (h : IsInteger x n) (hn : n.natAbs ≤ 2 ^ 53 - 1)
    {d : Decimal} (hd : d.toWord = word x) :
    d.positional = Nat.toDigits 10 n.natAbs ∨
      (Nat.toDigits 10 n.natAbs).length < d.positional.length := by
  rcases Nat.eq_zero_or_pos (word x) with hzero | hpos
  · rw [h.word_eq_zero_iff.1 hzero]
    exact Decimal.shortest_of_zero (hd.trans hzero)
  · have hnonzero : 0 < n.natAbs := by
      have := mt h.word_eq_zero_iff.2 (Nat.ne_of_gt hpos)
      omega
    exact Decimal.shortest_of_whole (h.whole hn) hnonzero hd hpos (h.word_lt hn)

/-- Every number is written in the general form.  Those that are written as integers are the
integers up to `2 ^ 53 - 1`, all within sixty-four bits.  The general form writes them with the same
digits, which read as the number; a decimal that also does has these digits or is longer. -/
theorem integers_written_shortest :
    (∀ x, formatNumber x = positionalForm x) ∧
      ∀ (x : Float) (n : Int),
        (safeInteger? x = some n ↔ IsInteger x n ∧ n.natAbs ≤ 2 ^ 53 - 1) ∧
        (IsInteger x n → n.natAbs ≤ 2 ^ 53 - 1 →
          (-2 ^ 63 ≤ n ∧ n < 2 ^ 63) ∧ positionalForm x = toString n ∧
            (∃ d : Decimal, d.toWord = word x ∧ d.positional = Nat.toDigits 10 n.natAbs) ∧
            ∀ d : Decimal, d.toWord = word x →
              d.positional = Nat.toDigits 10 n.natAbs ∨
                (Nat.toDigits 10 n.natAbs).length < d.positional.length) := by
  refine ⟨formatNumber_eq_positionalForm, fun x n => ⟨safeInteger?_eq_some_iff, fun h hn => ?_⟩⟩
  have hdigits : Decimal.positional ⟨n.natAbs, 0⟩ = Nat.toDigits 10 n.natAbs := by
    simp [Decimal.positional]
  exact ⟨by omega, positionalForm_of_integer h hn, ⟨_, h.toWord_eq (h.word_lt hn), hdigits⟩,
    fun _ => h.shortest hn⟩

/-- The largest of them. -/
theorem integers_written_shortest_largest :
    IsInteger 9007199254740991.0 9007199254740991 ∧
      positionalForm 9007199254740991.0 = "9007199254740991" := by
  have hinteger : IsInteger 9007199254740991.0 9007199254740991 :=
    ⟨by decide +kernel, by decide +kernel⟩
  exact ⟨hinteger, ((integers_written_shortest.2 _ _).2 hinteger (by decide)).2.1⟩

end ScopeScript
