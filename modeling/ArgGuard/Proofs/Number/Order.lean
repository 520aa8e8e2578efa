/-
  ArgGuard.Proofs.Number.Order — numbers in the order of what they are worth.

  A finite number is a rational (`value`), and comparing numbers compares these (`le_iff`).
  Rounding keeps the order: a ratio that is not above another one does not round above it
  (`Magnitude.round_mono`, `nearest_mono`). So no difference other than zero rounds to zero,
  and numbers can be compared by the sign of their difference (`sub_lt_zero`).
-/

import ArgGuard.Proofs.Number.Shortest
import Mathlib.Data.Rat.Floor
import Mathlib.Tactic.FieldSimp
import Mathlib.Tactic.Linarith

namespace ArgGuard

/-! ## Rounding keeps the order -/

section Quotients

variable {n n' d k : Nat}

theorem roundDivEven_mono (h : n ≤ n') : roundDivEven n d ≤ roundDivEven n' d := by
  have hq : n / d ≤ n' / d := Nat.div_le_div_right h
  have hn := Nat.div_add_mod n d
  have hn' := Nat.div_add_mod n' d
  have hr : n / d = n' / d → n % d ≤ n' % d := fun heq => by
    rw [heq] at hn
    omega
  unfold roundDivEven
  simp only
  generalize n / d = q at *
  generalize n' / d = q' at *
  split <;> split <;> omega

theorem le_roundDivEven (hd : 0 < d) (h : k * d ≤ n) : k ≤ roundDivEven n d := by
  have hq := (Nat.le_div_iff_mul_le hd).mpr h
  unfold roundDivEven
  simp only
  split <;> omega

theorem roundDivEven_le (hd : 0 < d) (h : n < k * d) : roundDivEven n d ≤ k := by
  have hq := (Nat.div_lt_iff_lt_mul hd).mpr h
  unfold roundDivEven
  simp only
  split <;> omega

end Quotients

namespace Magnitude

variable {n n' d d' : Nat} {m m' : Magnitude}

/-- The exponent of what `n / d` rounds to, before a carry. -/
def shift (n d : Nat) : Nat := (n / d).log2 - 52

/-- The units that `n / d` rounds to where no magnitude is too large. -/
def rounded (n d : Nat) : Nat := roundDivEven n (d <<< shift n d) * 2 ^ shift n d

theorem shift_mono (h : n ≤ n') : shift n d ≤ shift n' d := by
  have hq : n / d ≤ n' / d := Nat.div_le_div_right h
  unfold shift
  rcases Nat.eq_zero_or_pos (n / d) with hzero | hpos
  · simp [hzero]
  · have := (Nat.le_log2 (by omega)).mpr ((Nat.log2_self_le (by omega)).trans hq)
    omega

theorem mantissa_le (hd : 0 < d) : roundDivEven n (d <<< shift n d) ≤ 2 ^ 53 := by
  rw [Nat.shiftLeft_eq]
  refine roundDivEven_le (Nat.mul_pos hd (Nat.two_pow_pos _)) ?_
  rw [Nat.mul_left_comm, ← Nat.pow_add, Nat.mul_comm, ← Nat.div_lt_iff_lt_mul hd]
  refine Nat.lt_of_lt_of_le Nat.lt_log2_self (Nat.pow_le_pow_right (by decide) ?_)
  unfold shift
  omega

theorem le_mantissa (hd : 0 < d) (h : 0 < shift n d) : 2 ^ 52 ≤ roundDivEven n (d <<< shift n d) := by
  rw [Nat.shiftLeft_eq]
  refine le_roundDivEven (Nat.mul_pos hd (Nat.two_pow_pos _)) ?_
  rw [Nat.mul_left_comm, ← Nat.pow_add, Nat.mul_comm, ← Nat.le_div_iff_mul_le hd]
  have hlog : 52 + shift n d = (n / d).log2 := by
    unfold shift at *
    omega
  rw [hlog]
  refine Nat.log2_self_le fun hzero => ?_
  simp [shift, hzero] at h

/-- With one divisor, larger dividends round to no fewer units. -/
theorem rounded_le_rounded (hd : 0 < d) (h : n ≤ n') : rounded n d ≤ rounded n' d := by
  unfold rounded
  rcases Nat.eq_or_lt_of_le (shift_mono (d := d) h) with heq | hlt
  · rw [heq]
    exact Nat.mul_le_mul_right _ (roundDivEven_mono h)
  · -- the mantissas meet at a power of two between the two
    calc roundDivEven n (d <<< shift n d) * 2 ^ shift n d
        ≤ 2 ^ 53 * 2 ^ shift n d := Nat.mul_le_mul_right _ (mantissa_le hd)
      _ ≤ 2 ^ 52 * 2 ^ shift n' d := by
        rw [← Nat.pow_add, ← Nat.pow_add]
        exact Nat.pow_le_pow_right (by decide) (by omega)
      _ ≤ roundDivEven n' (d <<< shift n' d) * 2 ^ shift n' d :=
        Nat.mul_le_mul_right _ (le_mantissa hd (by omega))

theorem units_eq (m : Magnitude) : m.units = m.mantissa * 2 ^ m.exponent := Nat.shiftLeft_eq ..

/-- The mantissa and the exponent with the carry made. -/
theorem round_carried (n d : Nat) : ∃ k e, k * 2 ^ e = rounded n d ∧
    (0 < d → k < 2 ^ 53 ∧ (e = 0 ∨ 2 ^ 52 ≤ k)) ∧
    round n d =
      if h : k < 0x20000000000000 ∧ e ≤ 2045 ∧ (e = 0 ∨ 0x10000000000000 ≤ k) then some ⟨k, e, h⟩ else none := by
  by_cases hcarry : roundDivEven n (d <<< shift n d) = 0x20000000000000
  · refine ⟨0x10000000000000, shift n d + 1, ?_, fun _ => by omega, ?_⟩
    · rw [rounded, hcarry, Nat.pow_succ']
      omega
    · unfold round
      simp only [show (n / d).log2 - 52 = shift n d from rfl, hcarry, if_true]
  · refine ⟨_, shift n d, rfl, fun hd => ⟨?_, ?_⟩, ?_⟩
    · have := mantissa_le (n := n) hd
      omega
    · rcases Nat.eq_zero_or_pos (shift n d) with hzero | hpos
      · exact .inl hzero
      · exact .inr (le_mantissa hd hpos)
    · unfold round
      simp only [show (n / d).log2 - 52 = shift n d from rfl, if_neg hcarry]

theorem units_of_round (h : round n d = some m) : m.units = rounded n d := by
  obtain ⟨k, e, hrounded, -, hround⟩ := round_carried n d
  rw [hround] at h
  split at h
  · cases h
    rw [units_eq, hrounded]
  · cases h

/-- A ratio has a magnitude if it rounds to no more units than some magnitude has. -/
theorem exists_round (hd : 0 < d) (h : rounded n d ≤ m'.units) : ∃ m, round n d = some m := by
  obtain ⟨k, e, hrounded, hcanonical, hround⟩ := round_carried n d
  obtain ⟨hk, he⟩ := hcanonical hd
  obtain ⟨hmantissa, hexponent, _⟩ := m'.canonical
  have hbelow : e ≤ 2045 := by
    refine Nat.le_of_not_lt fun hlarge => Nat.not_lt_of_le h ?_
    calc m'.units = m'.mantissa * 2 ^ m'.exponent := units_eq m'
      _ < 2 ^ 53 * 2 ^ m'.exponent := Nat.mul_lt_mul_of_pos_right hmantissa (Nat.two_pow_pos _)
      _ = 2 ^ 52 * 2 ^ (m'.exponent + 1) := by
        rw [← Nat.pow_add, ← Nat.pow_add, Nat.add_comm m'.exponent, ← Nat.add_assoc]
      _ ≤ k * 2 ^ e := Nat.mul_le_mul (he.resolve_left (by omega)) (Nat.pow_le_pow_right (by decide) (by omega))
      _ = rounded n d := hrounded
  exact ⟨_, hround.trans (dif_pos ⟨hk, hbelow, he⟩)⟩

/-- A ratio that is not above another one does not round above it. -/
theorem round_mono (hd : 0 < d) (hd' : 0 < d') (h : n * d' ≤ n' * d) (hm' : round n' d' = some m') :
    ∃ m, round n d = some m ∧ m.units ≤ m'.units := by
  have hscaled : round n d = round (d' * n) (d * d') := by rw [Nat.mul_comm d, round_scale hd']
  have hscaled' : round n' d' = round (d * n') (d * d') := (round_scale hd n' d').symm
  have hle : rounded (d' * n) (d * d') ≤ rounded (d * n') (d * d') :=
    rounded_le_rounded (Nat.mul_pos hd hd') (by rwa [Nat.mul_comm d', Nat.mul_comm d])
  rw [hscaled'] at hm'
  have hunits' := units_of_round hm'
  obtain ⟨m, hm⟩ := exists_round (Nat.mul_pos hd hd') (hunits' ▸ hle)
  exact ⟨m, hscaled.trans hm, by rwa [units_of_round hm, hunits']⟩

/-- What is worth a unit or more does not round to nothing. -/
theorem units_pos_of_round (hn : 0 < n) (hm : round n 1 = some m) : 0 < m.units := by
  obtain ⟨least, hleast, hle⟩ := round_mono (n := 1) (d := 1) (by decide) (by decide) (by omega) hm
  have hunit : least = ⟨1, 0, by decide⟩ := Option.some.inj (hleast.symm.trans (by decide +kernel))
  rw [hunit] at hle
  exact hle

end Magnitude

/-! ## Numbers as rationals -/

namespace Number

variable {x y : Number}

/-- What a finite number is worth; any other is worth nothing. -/
def value : Number → ℚ
  | .finite s m => (signedUnits s m : ℚ) / Magnitude.one
  | _ => 0

/-- The number is finite and worth this. -/
structure IsWorth (x : Number) (r : ℚ) : Prop where
  finite : x.isFinite = true
  value_eq : x.value = r

theorem value_finite (s : Bool) (m : Magnitude) : value (.finite s m) = (signedUnits s m : ℚ) / Magnitude.one := rfl

theorem one_pos : (0 : ℚ) < Magnitude.one := Nat.cast_pos.mpr Magnitude.one_pos

theorem lt_iff (hx : x.isFinite = true) (hy : y.isFinite = true) : x.lt y = true ↔ x.value < y.value := by
  cases x <;> cases hx
  cases y <;> cases hy
  simp [lt, value, div_lt_div_iff_of_pos_right one_pos]

theorem eq_iff (hx : x.isFinite = true) (hy : y.isFinite = true) : x.eq y = true ↔ x.value = y.value := by
  cases x <;> cases hx
  cases y <;> cases hy
  simp [eq, value, div_left_inj' one_pos.ne']

theorem le_iff (hx : x.isFinite = true) (hy : y.isFinite = true) : x.le y = true ↔ x.value ≤ y.value := by
  rw [le, Bool.or_eq_true, lt_iff hx hy, eq_iff hx hy, le_iff_lt_or_eq]

@[simp] theorem isFinite_zero : zero.isFinite = true := rfl

@[simp] theorem value_zero : zero.value = 0 := by
  have hunits : signedUnits false .zero = 0 := by decide
  simp [zero, value, hunits]

protected theorem le_trans {z : Number} (hxy : x.le y = true) (hyz : y.le z = true) : x.le z = true := by
  cases x <;> cases y <;> cases z <;> grind [le, lt, eq]

/-- A number between two finite ones is finite. -/
theorem isFinite_of_le {z : Number} (hx : x.isFinite = true) (hz : z.isFinite = true) (hxy : x.le y = true)
    (hyz : y.le z = true) : y.isFinite = true := by
  cases x <;> cases hx
  cases z <;> cases hz
  cases y with
  | nan => cases hxy
  | infinite s => cases s <;> simp [le, lt, eq] at hxy hyz
  | finite => rfl

theorem ceil?_eq (hx : x.isFinite = true) : x.ceil? = some ⌈x.value⌉ := by
  cases x <;> cases hx
  rw [ceil?, value, Rat.ceil_intCast_div_natCast]

/-! ## Differences -/

theorem signedUnits_not (s : Bool) (m : Magnitude) : signedUnits (!s) m = -signedUnits s m := by
  cases s <;> simp [signedUnits]

/-- A whole number of units keeps its sign. -/
theorem lt_zero_ofUnits {n : Nat} (hn : 0 < n) (negative : Bool) : (ofUnits negative n 1).lt .zero = negative := by
  unfold ofUnits
  cases hround : Magnitude.round n 1 with
  | none => cases negative <;> rfl
  | some m =>
    have hm := Magnitude.units_pos_of_round hn hround
    have hzero : Magnitude.zero.units = 0 := by decide
    cases negative <;> simp [lt, zero, signedUnits, hzero, hm]

/-- A number is below another one exactly when their difference is negative. -/
theorem sub_lt_zero (x y : Number) : (x.sub y).lt .zero = x.lt y := by
  cases x with
  | nan => cases y <;> rfl
  | infinite s =>
    cases y with
    | nan => rfl
    | infinite t => cases s <;> cases t <;> rfl
    | finite t n => cases s <;> rfl
  | finite s m =>
    cases y with
    | nan => rfl
    | infinite t => cases t <;> rfl
    | finite t n =>
      show _ = decide (signedUnits s m < signedUnits t n)
      rw [sub, neg, add, signedUnits_not]
      split
      · have hsame : ¬ signedUnits s m < signedUnits t n := by omega
        rw [decide_eq_false hsame]
        show decide (signedUnits (s && !t) .zero < signedUnits false .zero) = false
        cases s && !t <;> decide
      · -- numbers that differ do so by a unit or more, which does not round to zero
        rw [lt_zero_ofUnits (by omega)]
        exact decide_eq_decide.mpr (by omega)

/-! ## The nearest number -/

/-- The number nearest to a rational. -/
def nearest (r : ℚ) : Number := ofRatio (r < 0) r.num.natAbs r.den

/-- As a rounding of rationals. -/
def rounded (r : ℚ) : ℚ := (nearest r).value

theorem isWorth_ofNat {n : Nat} (h : n < 2 ^ 53) : (ofNat n).IsWorth n := by
  obtain ⟨m, hm, hunits⟩ := ofNat_exact h
  rw [hm]
  refine ⟨rfl, ?_⟩
  rw [value_finite, signedUnits, if_neg Bool.false_ne_true, hunits]
  push_cast
  field_simp [one_pos.ne']

theorem nearest_eq {r : ℚ} (hr : 0 ≤ r) : nearest r = ofUnits false (r.num.natAbs * Magnitude.one) r.den := by
  rw [nearest, decide_eq_false hr.not_gt, ofRatio]

theorem nearest_natCast (n : Nat) : nearest n = ofNat n := by
  rw [nearest_eq n.cast_nonneg, Rat.num_natCast, Rat.den_natCast, Int.natAbs_natCast, ofNat, ofRatio]

theorem isFinite_nearest_natCast {n : Nat} (h : n < 2 ^ 53) : (nearest n).isFinite = true := by
  rw [nearest_natCast]
  exact (isWorth_ofNat h).finite

theorem natAbs_num {r : ℚ} (hr : 0 ≤ r) : (r.num.natAbs : ℚ) = r * r.den := by
  rw [Rat.mul_den_eq_num, Nat.cast_natAbs, abs_of_nonneg (Rat.num_nonneg.mpr hr)]

theorem exists_round_of_isFinite {negative : Bool} {n d : Nat} (h : (ofUnits negative n d).isFinite = true) :
    ∃ m, Magnitude.round n d = some m := by
  unfold ofUnits at h
  split at h
  · exact ⟨_, ‹_›⟩
  · cases h

/-- Rounding keeps the order. -/
theorem nearest_mono {r t : ℚ} (hr : 0 ≤ r) (hrt : r ≤ t) (ht : (nearest t).isFinite = true) :
    (nearest r).isFinite = true ∧ (nearest r).value ≤ (nearest t).value := by
  rw [nearest_eq hr, nearest_eq (hr.trans hrt)] at *
  obtain ⟨m', hm'⟩ := exists_round_of_isFinite ht
  have hle : r.num.natAbs * Magnitude.one * t.den ≤ t.num.natAbs * Magnitude.one * r.den := by
    have hcross : (r.num.natAbs * Magnitude.one * t.den : ℚ) ≤ t.num.natAbs * Magnitude.one * r.den :=
      calc (r.num.natAbs * Magnitude.one * t.den : ℚ) = r * (r.den * Magnitude.one * t.den) := by
            rw [natAbs_num hr]
            ring
        _ ≤ t * (r.den * Magnitude.one * t.den) := mul_le_mul_of_nonneg_right hrt (by positivity)
        _ = t.num.natAbs * Magnitude.one * r.den := by
            rw [natAbs_num (hr.trans hrt)]
            ring
    exact_mod_cast hcross
  obtain ⟨m, hm, hunits⟩ := Magnitude.round_mono r.den_pos t.den_pos hle hm'
  rw [ofUnits_of_round false hm, ofUnits_of_round false hm']
  refine ⟨rfl, ?_⟩
  rw [value_finite, value_finite, div_le_div_iff_of_pos_right one_pos]
  exact Int.cast_le.mpr (Int.ofNat_le.mpr hunits)

/-- The product of a positive number and a whole one is the number nearest to it. -/
theorem mul_ofNat {p : Number} {n : Nat} (hp : p.isFinite = true) (hpos : 0 < p.value) (hn : n < 2 ^ 53) :
    p.mul (.ofNat n) = nearest (p.value * n) := by
  obtain ⟨k, hk, hunits⟩ := ofNat_exact hn
  cases p with
  | nan => cases hp
  | infinite s => cases hp
  | finite s m =>
    cases s with
    | true =>
      refine absurd hpos (not_lt_of_ge (div_nonpos_of_nonpos_of_nonneg ?_ one_pos.le))
      exact_mod_cast Int.neg_nonpos_of_nonneg (Int.natCast_nonneg _)
    | false =>
      have hvalue : (finite false m).value = m.units / Magnitude.one := rfl
      have hnonneg : 0 ≤ (finite false m).value * n := mul_nonneg hpos.le n.cast_nonneg
      have hratio : (m.units * k.units * ((finite false m).value * n).den : ℚ) =
          ((finite false m).value * n).num.natAbs * Magnitude.one * Magnitude.one := by
        rw [natAbs_num hnonneg, hunits, hvalue]
        push_cast
        field_simp [one_pos.ne']
      rw [nearest_eq hnonneg, hk]
      exact ofUnits_congr false Magnitude.one_pos (Rat.den_pos _) (by exact_mod_cast hratio)

end Number

end ArgGuard
