import Mathlib.Tactic.Linarith
import Mathlib.Tactic.NormNum
import Mathlib.Tactic.Ring
import ScopeScript.Number.Shortest

/-!
# Rounding to the nearest word

A word counts steps: `w = s * 2 ^ 52 + q` stands for `q` steps of `2 ^ s` units, and the next word
for one step more (`Steps`).  What lies between the midpoints to its two neighbours rounds to a word
(`Near`), and nothing else does; so it is with decimals, where `w` is positive and finite:

    nearestWord num den = w ↔ Near w num den          (nearestWord_eq, near_of_nearestWord)
    d.toWord = w ↔ d.RoundsTo w                       (Decimal.toWord_eq_iff)
-/

namespace ScopeScript

namespace Binary64

/-! ## Steps -/

/-- The word `w` stands for `q` steps of `2 ^ s` units. -/
structure Steps (w s q : Nat) : Prop where
  word : w = s * 2 ^ 52 + q
  lt : q < 2 ^ 53
  /-- Only the shortest steps begin at zero. -/
  normal : s = 0 ∨ 2 ^ 52 ≤ q

theorem exists_steps (w : Nat) : ∃ s q, Steps w s q := by
  by_cases hw : w < 2 ^ 52
  · exact ⟨0, w, by omega, by omega, .inl rfl⟩
  · exact ⟨w / 2 ^ 52 - 1, 2 ^ 52 + w % 2 ^ 52, by omega, by omega, .inr (by omega)⟩

namespace Steps

variable {w s q : Nat}

theorem units_eq (h : Steps w s q) : units w = q * 2 ^ s := by
  obtain ⟨hw, hq, hs⟩ := h
  unfold units
  simp only [Nat.pow_eq]
  split
  · next hsmall =>
    obtain rfl : s = 0 := by omega
    omega
  · next hlarge =>
    have hexponent : w / 2 ^ 52 - 1 = s := by omega
    have hdigits : 2 ^ 52 + w % 2 ^ 52 = q := by omega
    rw [hexponent, hdigits]

/-- Also where the steps get longer the next word is one step on. -/
theorem units_succ (h : Steps w s q) : units (w + 1) = (q + 1) * 2 ^ s := by
  obtain ⟨hw, hq, hs⟩ := h
  by_cases hlast : q + 1 < 2 ^ 53
  · have hnext : Steps (w + 1) s (q + 1) := ⟨by omega, hlast, by omega⟩
    exact hnext.units_eq
  · have hnext : Steps (w + 1) (s + 1) (2 ^ 52) := ⟨by omega, by norm_num, .inr (Nat.le_refl _)⟩
    have hq' : q + 1 = 2 ^ 53 := by omega
    rw [hnext.units_eq, hq']
    ring

theorem units_pred (h : Steps w s (q + 1)) (hinner : s = 0 ∨ 2 ^ 52 ≤ q) :
    units (w - 1) = q * 2 ^ s := by
  obtain ⟨hw, hq, -⟩ := h
  have hprevious : Steps (w - 1) s q := ⟨by omega, by omega, hinner⟩
  exact hprevious.units_eq

/-- Below a power of two the steps are half as long. -/
theorem units_pred_edge (h : Steps w (s + 1) (2 ^ 52)) : units (w - 1) = (2 ^ 53 - 1) * 2 ^ s := by
  obtain ⟨hw, -, -⟩ := h
  have hprevious : Steps (w - 1) s (2 ^ 53 - 1) := ⟨by omega, by norm_num, .inr (by norm_num)⟩
  exact hprevious.units_eq

/-- Twice the midpoint to the next word. -/
theorem upper_eq (den : Nat) (h : Steps w s q) :
    (units w + units (w + 1)) * den = 2 * (q * (den * 2 ^ s)) + den * 2 ^ s := by
  rw [h.units_eq, h.units_succ]
  ring

/-- Twice the midpoint to the word before, where the steps below are as long. -/
theorem lower_eq (den : Nat) (h : Steps w s (q + 1)) (hinner : s = 0 ∨ 2 ^ 52 ≤ q) :
    (units (w - 1) + units w) * den = 2 * (q * (den * 2 ^ s)) + den * 2 ^ s := by
  rw [h.units_pred hinner, h.units_eq]
  ring

/-- Twice the midpoint below a power of two. -/
theorem lower_eq_edge (den : Nat) (h : Steps w (s + 1) (2 ^ 52)) :
    (units (w - 1) + units w) * den = (2 ^ 54 - 1) * (den * 2 ^ s) := by
  rw [h.units_pred_edge, h.units_eq]
  ring

end Steps

theorem units_lt_succ (w : Nat) : units w < units (w + 1) := by
  obtain ⟨s, q, h⟩ := exists_steps w
  rw [h.units_eq, h.units_succ]
  exact Nat.mul_lt_mul_of_pos_right (Nat.lt_succ_self q) (Nat.two_pow_pos s)

theorem units_strictMono : StrictMono units := strictMono_nat_of_lt_succ units_lt_succ

theorem units_pos {w : Nat} (hw : 0 < w) : 0 < units w :=
  Nat.lt_of_le_of_lt (Nat.zero_le _) (units_strictMono hw)

theorem exists_unitsPerOne : ∃ e, unitsPerOne = 2 ^ e := by
  unfold unitsPerOne
  generalize 1074 = e
  exact ⟨e, Nat.pow_eq⟩

theorem unitsPerOne_pos : 0 < unitsPerOne := by
  obtain ⟨e, he⟩ := exists_unitsPerOne
  rw [he]
  exact Nat.two_pow_pos e

/-- Below `2 ^ 53` the steps are no longer than one. -/
theorem units_succ_le {w : Nat} (h : units w < 2 ^ 53 * unitsPerOne) :
    units (w + 1) ≤ units w + unitsPerOne := by
  obtain ⟨s, q, hs⟩ := exists_steps w
  have hstep : 2 ^ s ≤ unitsPerOne := by
    obtain ⟨e, he⟩ := exists_unitsPerOne
    rw [he] at h ⊢
    refine Nat.pow_le_pow_right (by norm_num) ?_
    by_contra hlong
    have hq : 2 ^ 52 ≤ q := hs.normal.resolve_left (by omega)
    have hpow : 2 ^ 53 * 2 ^ e ≤ 2 ^ 52 * 2 ^ s := by
      rw [← Nat.pow_add, ← Nat.pow_add]
      exact Nat.pow_le_pow_right (by norm_num) (by omega)
    have hunits : 2 ^ 52 * 2 ^ s ≤ units w := by
      rw [hs.units_eq]
      exact Nat.mul_le_mul_right _ hq
    omega
  rw [hs.units_succ, hs.units_eq, Nat.succ_mul]
  omega

/-! ## Rounding -/

/-- `q` times `den` is at most half a `den` away from `num`, and less than that if `q` is odd. -/
structure Nearest (num den q : Nat) : Prop where
  low : 2 * (q * den) ≤ 2 * num + den
  high : 2 * num ≤ 2 * (q * den) + den
  odd : q % 2 = 1 → 2 * (q * den) < 2 * num + den ∧ 2 * num < 2 * (q * den) + den

namespace Nearest

variable {num den q k : Nat}

theorem le_of_lt (h : Nearest num den q) (hk : num < k * den) : q ≤ k := by
  by_contra hlt
  have hmore := Nat.mul_le_mul_right den (Nat.not_le.1 hlt)
  have hlow := h.low
  rw [Nat.succ_mul] at hmore
  omega

theorem le_of_le (h : Nearest num den q) (hden : 0 < den) (hk : k * den ≤ num) : k ≤ q := by
  by_contra hlt
  have hless := Nat.mul_le_mul_right den (Nat.not_le.1 hlt)
  have hhigh := h.high
  rw [Nat.succ_mul] at hless
  omega

end Nearest

theorem roundHalfEven_nearest (num : Nat) {den : Nat} (hden : 0 < den) :
    Nearest num den (roundHalfEven num den) := by
  have hsplit : den * (num / den) + num % den = num := Nat.div_add_mod num den
  have hrest : num % den < den := Nat.mod_lt num hden
  unfold roundHalfEven
  dsimp only
  generalize num / den = a at *
  generalize num % den = r at *
  rw [Nat.mul_comm] at hsplit
  split
  · next hup =>
    have hnext : (a + 1) * den = a * den + den := Nat.succ_mul a den
    simp only [Bool.or_eq_true, Bool.and_eq_true, decide_eq_true_eq, beq_iff_eq] at hup
    exact ⟨by omega, by omega, by omega⟩
  · next hdown =>
    simp only [Bool.or_eq_true, Bool.and_eq_true, decide_eq_true_eq, beq_iff_eq] at hdown
    exact ⟨by omega, by omega, by omega⟩

theorem Nearest.roundHalfEven_eq {num den q : Nat} (h : Nearest num den q) (hden : 0 < den) :
    roundHalfEven num den = q := by
  have hsplit : den * (num / den) + num % den = num := Nat.div_add_mod num den
  have hrest : num % den < den := Nat.mod_lt num hden
  unfold roundHalfEven
  dsimp only
  generalize num / den = a at *
  generalize num % den = r at *
  rw [Nat.mul_comm] at hsplit
  have hnext : (a + 1) * den = a * den + den := Nat.succ_mul a den
  have hle : a ≤ q := h.le_of_le hden (by omega)
  have hge : q ≤ a + 1 := h.le_of_lt (by omega)
  obtain ⟨hlow, hhigh, hodd⟩ := h
  rcases (by omega : q = a ∨ q = a + 1) with rfl | rfl
  · rw [if_neg]
    simp only [Bool.or_eq_true, Bool.and_eq_true, decide_eq_true_eq, beq_iff_eq]
    omega
  · rw [hnext] at hlow hhigh hodd
    rw [if_pos]
    simp only [Bool.or_eq_true, Bool.and_eq_true, decide_eq_true_eq, beq_iff_eq]
    omega

/-- The length of the steps at `n` units. -/
theorem log2_sub_eq {n s : Nat} (hlow : s = 0 ∨ 2 ^ (52 + s) ≤ n) (hhigh : n < 2 ^ (53 + s)) :
    n.log2 - 52 = s := by
  by_cases hn : n = 0
  · subst hn
    rcases hlow with rfl | hlow
    · rfl
    · exact absurd hlow (Nat.not_le.2 (Nat.two_pow_pos _))
  · have hlt : n.log2 < 53 + s := (Nat.log2_lt hn).2 hhigh
    rcases hlow with rfl | hlow
    · omega
    · have hle : 52 + s ≤ n.log2 := (Nat.le_log2 hn).2 hlow
      omega

/-- A quotient lies within the steps that its size gives. -/
theorem log2_bounds (n : Nat) :
    (n.log2 - 52 = 0 ∨ 2 ^ (52 + (n.log2 - 52)) ≤ n) ∧ n < 2 ^ (53 + (n.log2 - 52)) := by
  have hlt : n < 2 ^ (n.log2 + 1) := Nat.lt_log2_self
  constructor
  · by_cases hsmall : n.log2 ≤ 52
    · exact .inl (by omega)
    · have hn : n ≠ 0 := by
        rintro rfl
        exact hsmall (Nat.zero_le _)
      have hle := Nat.log2_self_le hn
      rw [(by omega : 52 + (n.log2 - 52) = n.log2)]
      exact .inr hle
  · refine Nat.lt_of_lt_of_le hlt (Nat.pow_le_pow_right (by norm_num) ?_)
    omega

/-- Between the midpoints from `w` to its neighbours there are `num / den` units; on a midpoint only
if `w` is even. -/
structure Near (w num den : Nat) : Prop where
  low : (units (w - 1) + units w) * den ≤ 2 * num
  high : 2 * num ≤ (units w + units (w + 1)) * den
  odd : w % 2 = 1 →
    (units (w - 1) + units w) * den < 2 * num ∧ 2 * num < (units w + units (w + 1)) * den

/-- With the right steps, rounding finds the number of steps. -/
theorem nearestWord_of_steps {num den s q : Nat} (hden : 0 < den)
    (hlow : s = 0 ∨ 2 ^ (52 + s) * den ≤ num) (hhigh : num < 2 ^ (53 + s) * den)
    (hround : roundHalfEven num (den * 2 ^ s) = q) (hfinite : s * 2 ^ 52 + q ≤ infinityWord) :
    nearestWord num den = s * 2 ^ 52 + q := by
  have hstep : (num / den).log2 - 52 = s := by
    refine log2_sub_eq ?_ ((Nat.div_lt_iff_lt_mul hden).2 hhigh)
    exact hlow.imp_right (Nat.le_div_iff_mul_le hden).2
  unfold nearestWord
  simp only [Nat.pow_eq, hstep, hround]
  exact Nat.min_eq_left hfinite

/-- Where the steps below the word are as long as those above it, or the quotient is no less. -/
theorem nearestWord_of_inner {w s q num den : Nat} (hs : Steps w s q) (hden : 0 < den)
    (hw : w < infinityWord) (hnormal : s = 0 ∨ 2 ^ 52 * (den * 2 ^ s) ≤ num)
    (h : Nearest num (den * 2 ^ s) q) : nearestWord num den = w := by
  obtain ⟨hword, hlt, -⟩ := hs
  have hstep : 0 < den * 2 ^ s := Nat.mul_pos hden (Nat.two_pow_pos s)
  have hround := h.roundHalfEven_eq hstep
  have hhigh := h.high
  have hmost : (q + 1) * (den * 2 ^ s) ≤ 2 ^ 53 * (den * 2 ^ s) := Nat.mul_le_mul_right _ hlt
  have hbelow : num < 2 ^ (53 + s) * den := by
    have hpow : 2 ^ (53 + s) * den = 2 ^ 53 * (den * 2 ^ s) := by ring
    rw [Nat.succ_mul] at hmost
    omega
  have habove : s = 0 ∨ 2 ^ (52 + s) * den ≤ num := by
    have hpow : 2 ^ (52 + s) * den = 2 ^ 52 * (den * 2 ^ s) := by ring
    rwa [hpow]
  subst hword
  exact nearestWord_of_steps hden habove hbelow hround (Nat.le_of_lt hw)

/-- Below a power of two, nearer to it than to the half step before it. -/
theorem nearestWord_of_edge {w s num den : Nat} (hs : Steps w (s + 1) (2 ^ 52)) (hden : 0 < den)
    (hw : w < infinityWord) (hlow : (2 ^ 54 - 1) * (den * 2 ^ s) ≤ 2 * num)
    (hbelow : num < 2 ^ 53 * (den * 2 ^ s)) : nearestWord num den = w := by
  have hstep : 0 < den * 2 ^ s := Nat.mul_pos hden (Nat.two_pow_pos s)
  have hround : roundHalfEven num (den * 2 ^ s) = 2 ^ 53 :=
    Nearest.roundHalfEven_eq ⟨by omega, by omega, by norm_num⟩ hstep
  have habove : s = 0 ∨ 2 ^ (52 + s) * den ≤ num := by
    have hpow : 2 ^ (52 + s) * den = 2 ^ 52 * (den * 2 ^ s) := by ring
    omega
  have hbelow' : num < 2 ^ (53 + s) * den := by
    have hpow : 2 ^ (53 + s) * den = 2 ^ 53 * (den * 2 ^ s) := by ring
    rwa [hpow]
  have hword : w = s * 2 ^ 52 + 2 ^ 53 := by
    rw [hs.word]
    ring
  subst hword
  exact nearestWord_of_steps hden habove hbelow' hround (Nat.le_of_lt hw)

theorem nearestWord_eq {w num den : Nat} (h : Near w num den) (hden : 0 < den)
    (hw : w < infinityWord) : nearestWord num den = w := by
  obtain ⟨s, q, hs⟩ := exists_steps w
  obtain ⟨hlow, hhigh, hodd⟩ := h
  have hparity : w % 2 = q % 2 := by
    have := hs.word
    omega
  rw [hs.upper_eq den] at hhigh hodd
  rw [hparity] at hodd
  cases q with
  | zero =>
    obtain rfl : s = 0 := by
      have := hs.normal
      omega
    exact nearestWord_of_inner hs hden hw (.inl rfl) ⟨by omega, hhigh, by omega⟩
  | succ p =>
    have hnext : (p + 1) * (den * 2 ^ s) = p * (den * 2 ^ s) + den * 2 ^ s := Nat.succ_mul p _
    rw [hnext] at hhigh hodd
    by_cases hinner : s = 0 ∨ 2 ^ 52 ≤ p
    · rw [hs.lower_eq den hinner] at hlow hodd
      have hnormal : s = 0 ∨ 2 ^ 52 * (den * 2 ^ s) ≤ num := by
        refine hinner.imp_right fun hp => ?_
        have := Nat.mul_le_mul_right (den * 2 ^ s) hp
        omega
      refine nearestWord_of_inner hs hden hw hnormal ⟨?_, ?_, ?_⟩
      all_goals
        rw [hnext]
        omega
    · -- a power of two: the steps below it are half as long
      obtain ⟨k, rfl⟩ : ∃ k, s = k + 1 := ⟨s - 1, by omega⟩
      obtain rfl : p = 2 ^ 52 - 1 := by
        have := hs.normal
        omega
      have hhalf : den * 2 ^ (k + 1) = 2 * (den * 2 ^ k) := by ring
      rw [hs.lower_eq_edge den] at hlow
      by_cases hless : num < 2 ^ 53 * (den * 2 ^ k)
      · exact nearestWord_of_edge hs hden hw hlow hless
      · exact nearestWord_of_inner hs hden hw (.inr (by omega)) ⟨by omega, by omega, by omega⟩

/-- Within the steps of the word. -/
theorem Nearest.near {w s q num den : Nat} (h : Nearest num (den * 2 ^ s) q) (hs : Steps w s q)
    (hw : 0 < w) (hnormal : s = 0 ∨ 2 ^ 52 * (den * 2 ^ s) ≤ num) : Near w num den := by
  obtain ⟨hlow, hhigh, hodd⟩ := h
  have hupper := hs.upper_eq den
  have hword := hs.word
  have hfirst := hs.normal
  cases q with
  | zero => omega
  | succ p =>
    have hnext : (p + 1) * (den * 2 ^ s) = p * (den * 2 ^ s) + den * 2 ^ s := Nat.succ_mul p _
    rw [hnext] at hlow hhigh hodd hupper
    by_cases hinner : s = 0 ∨ 2 ^ 52 ≤ p
    · have hlower := hs.lower_eq den hinner
      refine ⟨by omega, by omega, fun hw => ?_⟩
      have := hodd (by omega)
      omega
    · -- a power of two, and no less than it
      obtain ⟨k, rfl⟩ : ∃ k, s = k + 1 := ⟨s - 1, by omega⟩
      obtain rfl : p = 2 ^ 52 - 1 := by omega
      have hlower := hs.lower_eq_edge den
      have hhalf : den * 2 ^ (k + 1) = 2 * (den * 2 ^ k) := by ring
      exact ⟨by omega, by omega, fun hw => by omega⟩

/-- Just below a power of two, and rounded up to it. -/
theorem Nearest.near_of_carry {w s num den : Nat} (h : Nearest num (den * 2 ^ s) (2 ^ 53))
    (hs : Steps w (s + 1) (2 ^ 52)) : Near w num den := by
  obtain ⟨hlow, hhigh, -⟩ := h
  have hlower := hs.lower_eq_edge den
  have hupper := hs.upper_eq den
  have hword := hs.word
  have hdouble : den * 2 ^ (s + 1) = 2 * (den * 2 ^ s) := by ring
  exact ⟨by omega, by omega, fun hw => by omega⟩

/-- What rounds to a word is near it. -/
theorem near_of_nearestWord {w num den : Nat} (h : nearestWord num den = w) (hden : 0 < den)
    (hw : 0 < w) (hfinite : w < infinityWord) : Near w num den := by
  obtain ⟨hlow, hhigh⟩ := log2_bounds (num / den)
  unfold nearestWord at h
  dsimp only at h
  generalize (num / den).log2 - 52 = s at *
  have hstep : 0 < den * 2 ^ s := Nat.mul_pos hden (Nat.two_pow_pos s)
  rw [Nat.pow_eq, Nat.pow_eq] at h
  have hnearest := roundHalfEven_nearest num hstep
  generalize roundHalfEven num (den * 2 ^ s) = q at *
  have hword : w = s * 2 ^ 52 + q := by omega
  have hleast : s = 0 ∨ 2 ^ 52 * (den * 2 ^ s) ≤ num := by
    refine hlow.imp_right fun hle => ?_
    have hpow : 2 ^ 52 * (den * 2 ^ s) = 2 ^ (52 + s) * den := by ring
    rw [hpow]
    exact (Nat.le_div_iff_mul_le hden).1 hle
  have hmost : q ≤ 2 ^ 53 := by
    refine hnearest.le_of_lt ?_
    have hpow : 2 ^ 53 * (den * 2 ^ s) = 2 ^ (53 + s) * den := by ring
    rw [hpow]
    exact (Nat.div_lt_iff_lt_mul hden).1 hhigh
  rcases Nat.lt_or_eq_of_le hmost with hlt | rfl
  · have hs : Steps w s q := ⟨hword, hlt, hleast.imp_right (hnearest.le_of_le hstep)⟩
    exact hnearest.near hs hw hleast
  · have hcarry : w = (s + 1) * 2 ^ 52 + 2 ^ 52 := by
      rw [hword]
      ring
    exact hnearest.near_of_carry ⟨hcarry, by norm_num, .inr (Nat.le_refl _)⟩

/-- What is exactly a word is near it. -/
theorem near_self {w den : Nat} (hw : 0 < w) (hden : 0 < den) : Near w (units w * den) den := by
  have hbelow : units (w - 1) < units w := units_strictMono (Nat.sub_lt hw Nat.one_pos)
  have habove := units_lt_succ w
  have hlow : (units (w - 1) + units w) * den < 2 * (units w * den) := by
    rw [← Nat.mul_assoc]
    exact Nat.mul_lt_mul_of_pos_right (by omega) hden
  have hhigh : 2 * (units w * den) < (units w + units (w + 1)) * den := by
    rw [← Nat.mul_assoc]
    exact Nat.mul_lt_mul_of_pos_right (by omega) hden
  exact ⟨Nat.le_of_lt hlow, Nat.le_of_lt hhigh, fun _ => ⟨hlow, hhigh⟩⟩

end Binary64

/-! ## Decimals -/

namespace Decimal

open Binary64

variable {d : Decimal} {w : Nat}

/-- The decimal is near the word, both counted in units. -/
def RoundsTo (d : Decimal) (w : Nat) : Prop :=
  Near w (d.digits * 10 ^ d.exponent.toNat * unitsPerOne) (10 ^ (-d.exponent).toNat)

namespace RoundsTo

theorem digits_pos (h : d.RoundsTo w) (hw : 0 < w) : 0 < d.digits := by
  have hlow := h.low
  have hden : 0 < 10 ^ (-d.exponent).toNat := Nat.pow_pos (by norm_num)
  have hsome : 0 < (units (w - 1) + units w) * 10 ^ (-d.exponent).toNat :=
    Nat.mul_pos (Nat.add_pos_right _ (units_pos hw)) hden
  refine Nat.pos_of_ne_zero fun hzero => ?_
  rw [hzero] at hlow
  omega

/-- No finite word is as large as `10 ^ 311`. -/
theorem exponent_le (h : d.RoundsTo w) (hw : 0 < w) (hfinite : w < infinityWord) :
    d.exponent ≤ 310 := by
  by_contra hlarge
  have hden : 10 ^ (-d.exponent).toNat = 1 := by
    rw [(by omega : (-d.exponent).toNat = 0), Nat.pow_zero]
  have hhigh := h.high
  rw [hden, Nat.mul_one] at hhigh
  have hmost : units w + units (w + 1) ≤ 2 * units infinityWord := by
    have h₁ := units_strictMono.monotone (Nat.le_of_lt hfinite)
    have h₂ : units (w + 1) ≤ units infinityWord := units_strictMono.monotone hfinite
    omega
  have hnum := Nat.le_of_mul_le_mul_left (Nat.le_trans hhigh hmost) (by norm_num)
  obtain ⟨k, hk⟩ : ∃ k, d.exponent.toNat = 311 + k := ⟨d.exponent.toNat - 311, by omega⟩
  rw [hk, pow_add] at hnum
  have hfactor : 0 < d.digits * 10 ^ k := Nat.mul_pos (h.digits_pos hw) (Nat.pow_pos (by norm_num))
  have hpower : 10 ^ 311 ≤ d.digits * (10 ^ 311 * 10 ^ k) := by
    rw [Nat.mul_left_comm]
    exact Nat.le_mul_of_pos_right _ hfactor
  have hleast := Nat.le_trans (Nat.mul_le_mul_right unitsPerOne hpower) hnum
  have hcontra : units infinityWord < 10 ^ 311 * unitsPerOne := by decide +kernel
  exact absurd hleast (Nat.not_le.2 hcontra)

/-- No word but zero is as small as `10 ^ -331`. -/
theorem le_exponent (h : d.RoundsTo w) (hw : 0 < w) : -330 ≤ d.exponent + d.digits.log2 + 1 := by
  by_contra hsmall
  obtain ⟨k, hk⟩ : ∃ k, (-d.exponent).toNat = 331 + (d.digits.log2 + 1) + k :=
    ⟨(-d.exponent).toNat - (331 + (d.digits.log2 + 1)), by omega⟩
  have hnum : d.exponent.toNat = 0 := by omega
  have hlow := h.low
  rw [hnum, Nat.pow_zero, Nat.mul_one, hk, pow_add, pow_add] at hlow
  have hdigits : d.digits ≤ 10 ^ (d.digits.log2 + 1) :=
    Nat.le_trans (Nat.le_of_lt Nat.lt_log2_self) (Nat.pow_le_pow_left (by norm_num) _)
  generalize 10 ^ (d.digits.log2 + 1) = p at *
  have hpos := h.digits_pos hw
  have hk : 10 ^ 331 * p ≤ 10 ^ 331 * p * 10 ^ k :=
    Nat.le_mul_of_pos_right _ (Nat.pow_pos (by norm_num))
  have hunits : 10 ^ 331 * p * 10 ^ k ≤
      (units (w - 1) + units w) * (10 ^ 331 * p * 10 ^ k) :=
    Nat.le_mul_of_pos_left _ (Nat.add_pos_right _ (units_pos hw))
  have hmost := Nat.mul_le_mul_right unitsPerOne hdigits
  have hcontra : p * (2 * unitsPerOne) < p * 10 ^ 331 := by
    have hless : 2 * unitsPerOne < 10 ^ 331 := by decide +kernel
    exact Nat.mul_lt_mul_of_pos_left hless (Nat.lt_of_lt_of_le hpos hdigits)
  rw [Nat.mul_comm p (10 ^ 331), Nat.mul_left_comm] at hcontra
  omega

theorem toWord_eq (h : d.RoundsTo w) (hw : 0 < w) (hfinite : w < infinityWord) : d.toWord = w := by
  have hdigits := Nat.ne_of_gt (h.digits_pos hw)
  have hlarge := Int.not_lt.2 (h.exponent_le hw hfinite)
  have hsmall := Int.not_lt.2 (h.le_exponent hw)
  unfold toWord
  rw [if_neg hdigits, if_neg hlarge, if_neg hsmall]
  exact nearestWord_eq h (Nat.pow_pos (by norm_num)) hfinite

/-- What reads as a word rounds to it. -/
theorem of_toWord (h : d.toWord = w) (hw : 0 < w) (hfinite : w < infinityWord) :
    d.RoundsTo w := by
  unfold toWord at h
  split at h
  · omega
  · split at h
    · omega
    · split at h
      · omega
      · exact near_of_nearestWord h (Nat.pow_pos (by norm_num)) hw hfinite

/-- Zeros may be written at the end instead of a power of ten. -/
theorem of_zeros {n e : Nat} (h : RoundsTo ⟨n, e⟩ w) : RoundsTo ⟨n * 10 ^ e, 0⟩ w := by
  unfold RoundsTo at *
  simpa using h

end RoundsTo

theorem toWord_eq_iff (hw : 0 < w) (hfinite : w < infinityWord) :
    d.toWord = w ↔ d.RoundsTo w :=
  ⟨fun h => .of_toWord h hw hfinite, fun h => h.toWord_eq hw hfinite⟩

end Decimal

end ScopeScript
