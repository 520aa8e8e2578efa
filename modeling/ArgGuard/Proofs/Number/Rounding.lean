/-
  ArgGuard.Proofs.Number.Rounding — rounding to binary64.

  What is rounded is a ratio: scaling both sides changes nothing (`round_scale`). A ratio
  that differs from a magnitude by less than one part in 2^54 of it rounds to that magnitude
  (`round_near`), also just below a power of two, where magnitudes lie twice as dense.
-/

import ArgGuard.Number.Basic
import Mathlib.Algebra.Group.Nat.Defs

namespace ArgGuard

/-- What lies within half a divisor of a multiple rounds to it. -/
theorem roundDivEven_near {n d k : Nat} (hlow : 2 * (k * d) < 2 * n + d) (hhigh : 2 * n < 2 * (k * d) + d) :
    roundDivEven n d = k := by
  have hd : 0 < d := by
    rcases Nat.eq_zero_or_pos d with rfl | h
    · simp at hlow
      omega
    · exact h
  have hdiv := Nat.div_add_mod n d
  have hmod := Nat.mod_lt n hd
  unfold roundDivEven
  simp only
  generalize n / d = q at *
  generalize n % d = r at *
  have hcomm : d * q = q * d := Nat.mul_comm d q
  rcases Nat.lt_trichotomy q k with h | rfl | h
  · -- the quotient is one below, and the remainder is past the half
    have hk : k = q + 1 := by
      rcases Nat.lt_or_ge (q + 1) k with hlt | hle
      · have : (q + 2) * d ≤ k * d := Nat.mul_le_mul_right d hlt
        have : (q + 2) * d = q * d + 2 * d := Nat.add_mul ..
        omega
      · omega
    subst hk
    have : (q + 1) * d = q * d + d := by rw [Nat.add_mul, Nat.one_mul]
    rw [if_neg (by omega)]
  · rw [if_pos (by omega)]
  · have : (k + 1) * d ≤ q * d := Nat.mul_le_mul_right d h
    have : (k + 1) * d = k * d + d := by rw [Nat.add_mul, Nat.one_mul]
    omega

theorem roundDivEven_scale {c : Nat} (hc : 0 < c) (n d : Nat) : roundDivEven (c * n) (c * d) = roundDivEven n d := by
  unfold roundDivEven
  simp only [Nat.mul_div_mul_left n d hc, Nat.mul_mod_mul_left]
  have hlt : 2 * (c * (n % d)) < c * d ↔ 2 * (n % d) < d := by
    rw [Nat.mul_left_comm]
    exact Nat.mul_lt_mul_left hc
  have heq : 2 * (c * (n % d)) = c * d ↔ 2 * (n % d) = d := by
    rw [Nat.mul_left_comm]
    exact Nat.mul_right_inj (by omega)
  simp only [hlt, heq]

namespace Magnitude

theorem round_scale {c : Nat} (hc : 0 < c) (n d : Nat) : round (c * n) (c * d) = round n d := by
  have hshift : ∀ e, (c * d) <<< e = c * (d <<< e) := fun e => by
    simp only [Nat.shiftLeft_eq, Nat.mul_assoc]
  unfold round
  simp only [Nat.mul_div_mul_left n d hc, hshift, roundDivEven_scale hc]

/-- Equal ratios round alike. -/
theorem round_congr {n d n' d' : Nat} (hd : 0 < d) (hd' : 0 < d') (h : n * d' = n' * d) : round n d = round n' d' := by
  rw [← round_scale hd' n d, ← round_scale hd n' d', Nat.mul_comm d' n, h, Nat.mul_comm d' d, Nat.mul_comm n' d]

/-- What is rounded with the right exponent comes to the magnitude, with a carry where the
mantissa would be 2^53. -/
theorem round_eq {n d : Nat} {m : Magnitude} {e : Nat} (he : (n / d).log2 - 52 = e)
    (h : roundDivEven n (d <<< e) = m.mantissa ∧ e = m.exponent ∨
      roundDivEven n (d <<< e) = 0x20000000000000 ∧ m.mantissa = 0x10000000000000 ∧ e + 1 = m.exponent) :
    round n d = some m := by
  obtain ⟨mantissa, exponent, hm⟩ := m
  unfold round
  simp only [he]
  rcases h with ⟨hr, rfl⟩ | ⟨hr, rfl, rfl⟩
  · simp only at hr
    have hne : mantissa ≠ 0x20000000000000 := by omega
    simp only [hr, if_neg hne]
    rw [dif_pos hm]
  · simp only [hr, if_true]
    rw [dif_pos hm]

theorem log2_eq {n k : Nat} (hlow : 2 ^ k ≤ n) (hhigh : n < 2 ^ (k + 1)) : n.log2 = k := by
  have hn : n ≠ 0 := by
    have := Nat.two_pow_pos k
    omega
  have := (Nat.le_log2 hn).mpr hlow
  have := (Nat.log2_lt hn).mpr hhigh
  omega

/-- A ratio close to a magnitude rounds to it. -/
theorem round_near {n d : Nat} {m : Magnitude} (hd : 0 < d)
    (hlow : (2 ^ 54 - 1) * (m.units * d) < 2 ^ 54 * n) (hhigh : 2 ^ 54 * n < (2 ^ 54 + 1) * (m.units * d)) :
    round n d = some m := by
  obtain ⟨hmantissa, _, hexp⟩ := m.canonical
  -- `D` is one unit of the mantissa, over the divisor
  have hunits : m.units * d = m.mantissa * (d <<< m.exponent) := by
    rw [units, Nat.shiftLeft_eq, Nat.shiftLeft_eq, Nat.mul_assoc, Nat.mul_comm d]
  have hD : d <<< m.exponent = d * 2 ^ m.exponent := Nat.shiftLeft_eq ..
  rw [hunits] at hlow hhigh
  have hbelow : m.mantissa * (d <<< m.exponent) + d <<< m.exponent ≤ 2 ^ 53 * (d <<< m.exponent) := by
    rw [← Nat.succ_mul]
    exact Nat.mul_le_mul_right _ hmantissa
  have hround : roundDivEven n (d <<< m.exponent) = m.mantissa := roundDivEven_near (by omega) (by omega)
  have hquot : n / d < 2 ^ (53 + m.exponent) := by
    rw [Nat.div_lt_iff_lt_mul hd, Nat.pow_add, Nat.mul_assoc, Nat.mul_comm (2 ^ m.exponent), ← hD]
    omega
  rcases Nat.eq_zero_or_pos m.exponent with hzero | hpos
  · refine round_eq ?_ (.inl ⟨hround, rfl⟩)
    rw [hzero, Nat.add_zero] at hquot
    rcases Nat.eq_zero_or_pos (n / d) with h | h
    · simp [h, hzero]
    · have := (Nat.log2_lt (by omega)).mpr hquot
      omega
  have hleast : 2 ^ 52 ≤ m.mantissa := by omega
  have habove : 2 ^ 52 * (d <<< m.exponent) ≤ m.mantissa * (d <<< m.exponent) := Nat.mul_le_mul_right _ hleast
  rcases Nat.lt_or_ge (n / d) (2 ^ (52 + m.exponent)) with hlt | hge
  · -- just below a power of two, one exponent lower
    have hn : n < 2 ^ 52 * (d <<< m.exponent) := by
      rw [Nat.div_lt_iff_lt_mul hd, Nat.pow_add, Nat.mul_assoc, Nat.mul_comm (2 ^ m.exponent), ← hD] at hlt
      exact hlt
    have hpower : m.mantissa = 2 ^ 52 := by
      rcases Nat.lt_or_ge (2 ^ 52) m.mantissa with h | h
      · have : (2 ^ 52 + 1) * (d <<< m.exponent) ≤ m.mantissa * (d <<< m.exponent) := Nat.mul_le_mul_right _ h
        omega
      · omega
    have hhalf : d <<< m.exponent = 2 * (d <<< (m.exponent - 1)) := by
      rw [hD, Nat.shiftLeft_eq, Nat.mul_left_comm, ← Nat.pow_succ', Nat.succ_eq_add_one, Nat.sub_add_cancel hpos]
    have hquot' : 2 ^ (51 + m.exponent) ≤ n / d := by
      rw [Nat.le_div_iff_mul_le hd, Nat.pow_add, Nat.mul_assoc, Nat.mul_comm (2 ^ m.exponent), ← hD]
      omega
    rw [hpower] at hlow hhigh
    refine round_eq (e := m.exponent - 1) ?_ (.inr ⟨roundDivEven_near ?_ ?_, hpower, by omega⟩)
    · rw [log2_eq hquot' (by rwa [Nat.add_right_comm])]
      omega
    · omega
    · omega
  · refine round_eq ?_ (.inl ⟨hround, rfl⟩)
    rw [log2_eq hge (by rwa [Nat.add_right_comm])]
    omega

/-- A magnitude is rounded to itself. -/
theorem round_units {m : Magnitude} (h : 0 < m.units) : round m.units 1 = some m :=
  round_near (by decide) (by omega) (by omega)

/-- Whole numbers below 2^53 have a magnitude of their own. -/
theorem exists_units_eq {n : Nat} (h : n < 2 ^ 53) : ∃ m : Magnitude, m.units = n * one := by
  rcases Nat.eq_zero_or_pos n with rfl | hpos
  · exact ⟨zero, by decide +kernel⟩
  have hne : n ≠ 0 := by omega
  have hlog : n.log2 < 53 := (Nat.log2_lt hne).mpr h
  have hlow : 2 ^ n.log2 ≤ n := Nat.log2_self_le hne
  have hhigh : n < 2 ^ (n.log2 + 1) := (Nat.log2_lt hne).mp (Nat.lt_succ_self _)
  generalize n.log2 = k at *
  have hmantissa : 2 ^ 52 ≤ n * 2 ^ (52 - k) ∧ n * 2 ^ (52 - k) < 2 ^ 53 := by
    have hsplit : 2 ^ k * 2 ^ (52 - k) = 2 ^ 52 := by
      rw [← Nat.pow_add]
      congr 1
      omega
    constructor
    · rw [← hsplit]
      exact Nat.mul_le_mul_right _ hlow
    · calc n * 2 ^ (52 - k) < 2 ^ (k + 1) * 2 ^ (52 - k) := Nat.mul_lt_mul_of_pos_right hhigh (Nat.two_pow_pos _)
        _ = 2 ^ 52 * 2 := by rw [Nat.pow_succ, Nat.mul_right_comm, hsplit]
        _ = 2 ^ 53 := by decide
  have hshift : ∀ e, n <<< e = n * (1 <<< e) := fun e => by rw [Nat.shiftLeft_eq, Nat.shiftLeft_eq, Nat.one_mul]
  refine ⟨⟨n <<< (52 - k), 1022 + k, ?_⟩, ?_⟩
  · rw [Nat.shiftLeft_eq]
    omega
  · rw [units, ← Nat.shiftLeft_add, show 52 - k + (1022 + k) = 1074 by omega]
    exact hshift 1074

end Magnitude

namespace Number

theorem ofUnits_of_round (negative : Bool) {n d : Nat} {m : Magnitude} (h : Magnitude.round n d = some m) :
    ofUnits negative n d = .finite negative m := by
  unfold ofUnits
  rw [h]

/-- Whole numbers below 2^53 are exact. -/
theorem ofNat_exact {n : Nat} (h : n < 2 ^ 53) : ∃ m, ofNat n = .finite false m ∧ m.units = n * Magnitude.one := by
  rcases Nat.eq_zero_or_pos n with rfl | hpos
  · exact ⟨.zero, by decide +kernel, by decide +kernel⟩
  obtain ⟨m, hm⟩ := Magnitude.exists_units_eq h
  have hunits : 0 < m.units := by
    rw [hm]
    exact Nat.mul_pos hpos (by decide +kernel)
  refine ⟨m, ?_, hm⟩
  show ofUnits false (n * Magnitude.one) 1 = _
  rw [← hm]
  exact ofUnits_of_round false (Magnitude.round_units hunits)

/-- Whole numbers below 2^53 are told apart. -/
theorem ofNat_inj {n n' : Nat} (h : n < 2 ^ 53) (h' : n' < 2 ^ 53) (he : ofNat n = ofNat n') : n = n' := by
  obtain ⟨m, hm, hunits⟩ := ofNat_exact h
  obtain ⟨m', hm', hunits'⟩ := ofNat_exact h'
  rw [hm, hm'] at he
  cases he
  exact Nat.eq_of_mul_eq_mul_right (by decide +kernel) (hunits.symm.trans hunits')

theorem isNegativeZero_ofUnits (n d : Nat) : (ofUnits false n d).isNegativeZero = false := by
  unfold ofUnits
  split <;> rfl

theorem isNegativeZero_ofNat (n : Nat) : (ofNat n).isNegativeZero = false := by
  rw [ofNat, ofRatio]
  exact isNegativeZero_ofUnits _ _

end Number

end ArgGuard
