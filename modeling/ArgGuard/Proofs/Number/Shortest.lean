/-
  ArgGuard.Proofs.Number.Shortest — the shortest decimal reads back.

  A decimal of `k` digits next to a magnitude has its first digit where the magnitude has it
  (`inPlaces_bounds`), so the nearest one of seventeen digits lies closer to the magnitude than one
  part in 2^54 and reads back (`withDigits?_seventeen`). The search therefore ends, with a
  decimal of at most seventeen digits that reads back (`shortest_spec`).
-/

import ArgGuard.Number.Shortest
import ArgGuard.Proofs.Number.Rounding

namespace ArgGuard

/-- Decimals are compared in units of 10^-400. -/
@[irreducible] def fineness : Nat := 400

theorem fineness_eq : fineness = 400 := by rw [fineness]

theorem pow_fineness {a b : Nat} (h : a + b = fineness) : 10 ^ fineness = Nat.pow 10 a * 10 ^ b := by
  rw [← h, Nat.pow_add]
  rfl

/-- Digits are counted down to this many places behind the point. -/
@[irreducible] def depth : Nat := 324

theorem depth_eq : depth = 324 := by rw [depth]

namespace Magnitude

variable (m : Magnitude)

theorem units_pos (h : m.mantissa ≠ 0) : 0 < m.units := by
  rw [units, Nat.shiftLeft_eq]
  exact Nat.mul_pos (Nat.pos_of_ne_zero h) (Nat.two_pow_pos _)

theorem one_pos : 0 < one := by decide +kernel

/-- No magnitude reaches 10^309. -/
theorem units_lt : ∃ a ≤ 309, m.units < Nat.pow 10 a * one := by
  obtain ⟨hmantissa, hexp, _⟩ := m.canonical
  have hlargest : ∀ e, e ≤ 2045 → 0x20000000000000 * Nat.pow 2 e ≤ Nat.pow 10 309 * one := by
    have hpow : ∀ e e', e ≤ e' → Nat.pow 2 e ≤ Nat.pow 2 e' := fun _ _ => Nat.pow_le_pow_right (by decide)
    have hlast : 0x20000000000000 * Nat.pow 2 2045 ≤ Nat.pow 10 309 * one := by decide +kernel
    exact fun e he => Nat.le_trans (Nat.mul_le_mul_left _ (hpow e 2045 he)) hlast
  refine ⟨309, Nat.le_refl _, Nat.lt_of_lt_of_le ?_ (hlargest _ hexp)⟩
  rw [units, Nat.shiftLeft_eq]
  exact Nat.mul_lt_mul_of_pos_right hmantissa (Nat.pow_pos (by decide))

/-! ## Where the point stands -/

/-- How many digits a magnitude has before the last place that counts. -/
def places : Nat := (Nat.toDigits 10 (m.units * Nat.pow 10 depth / one)).length

theorem pointPosition_eq : m.pointPosition = (m.places : Int) - 324 := by
  rw [pointPosition, ← depth_eq, places]

theorem places_pos : 0 < m.places := Nat.length_toDigits_pos

variable {m}

theorem places_bounds (h : m.mantissa ≠ 0) :
    10 ^ (m.places - 1) * one ≤ m.units * Nat.pow 10 depth ∧ m.units * Nat.pow 10 depth < 10 ^ m.places * one := by
  have hone : one ≤ Nat.pow 10 depth := by
    rw [depth_eq]
    decide +kernel
  have hleast : 1 ≤ m.units * Nat.pow 10 depth / one := by
    rw [Nat.le_div_iff_mul_le one_pos, Nat.one_mul]
    exact Nat.le_trans hone (Nat.le_mul_of_pos_left _ (m.units_pos h))
  constructor
  · rw [← Nat.le_div_iff_mul_le one_pos]
    rcases Nat.lt_or_ge 1 m.places with hp | hp
    · have hlength : m.places ≤ m.places - 1 ↔ m.units * Nat.pow 10 depth / one < 10 ^ (m.places - 1) :=
        Nat.length_toDigits_le_iff (by decide) (by omega)
      omega
    · rw [show m.places - 1 = 0 by omega]
      exact hleast
  · rw [← Nat.div_lt_iff_lt_mul one_pos]
    exact (Nat.length_toDigits_le_iff (by decide) m.places_pos).mp (Nat.le_refl m.places)

theorem length_le {u a b : Nat} (hpos : 0 < a + b) (h : u < Nat.pow 10 a * one) :
    (Nat.toDigits 10 (u * Nat.pow 10 b / one)).length ≤ a + b := by
  rw [Nat.length_toDigits_le_iff (by decide) hpos, Nat.div_lt_iff_lt_mul one_pos]
  calc u * Nat.pow 10 b < Nat.pow 10 a * one * Nat.pow 10 b := Nat.mul_lt_mul_of_pos_right h (Nat.pow_pos (by decide))
    _ = 10 ^ (a + b) * one := by
      rw [Nat.mul_right_comm, Nat.pow_add]
      rfl

theorem places_le : m.places ≤ 633 := by
  obtain ⟨a, ha, hunits⟩ := m.units_lt
  have hdepth := depth_eq
  exact Nat.le_trans (length_le (Nat.add_pos_right a (by omega)) hunits) (by omega)

/-! ## The decimals next to a magnitude -/

/-- A magnitude in units of a decimal place, as a ratio. -/
def inPlaces (m : Magnitude) (place : Int) : Nat × Nat :=
  if 0 ≤ place then (m.units, one * Nat.pow 10 place.toNat) else (m.units * Nat.pow 10 (-place).toNat, one)

theorem inPlaces_pos (m : Magnitude) (place : Int) : 0 < (m.inPlaces place).2 := by
  unfold inPlaces
  split
  · exact Nat.mul_pos one_pos (Nat.pow_pos (by decide))
  · exact one_pos

/-- The ratio, with the place in units of 10^-400. -/
theorem inPlaces_fine (m : Magnitude) {place : Int} (h : -(fineness : Int) ≤ place) :
    (m.inPlaces place).1 * (one * 10 ^ (place + fineness).toNat) = m.units * 10 ^ fineness * (m.inPlaces place).2 := by
  unfold inPlaces
  split
  · rename_i hplace
    rw [show (place + fineness).toNat = fineness + place.toNat by omega, Nat.pow_add]
    show m.units * (one * (10 ^ fineness * 10 ^ place.toNat)) = m.units * 10 ^ fineness * (one * 10 ^ place.toNat)
    ac_rfl
  · rename_i hplace
    rw [pow_fineness (a := (-place).toNat) (b := (place + fineness).toNat) (by omega)]
    show m.units * 10 ^ (-place).toNat * (one * 10 ^ (place + fineness).toNat)
      = m.units * (10 ^ (-place).toNat * 10 ^ (place + fineness).toNat) * one
    ac_rfl

/-- A ratio `a / b` that is `u` by another scale has `k` digits where `u` has `p` by its own. -/
theorem ratio_bounds {u scale a b p k : Nat} (hb : 0 < b) (hp : 0 < p) (hk : 0 < k) (hk' : k ≤ 17)
    (hlow : 10 ^ (p - 1) * one ≤ u * scale) (hhigh : u * scale < 10 ^ p * one)
    (hfine : a * (one * 10 ^ (p + 76 - k)) = u * scale * (10 ^ 76 * b)) : 10 ^ (k - 1) * b ≤ a ∧ a < 10 ^ k * b := by
  have hpos : 0 < one * 10 ^ (p + 76 - k) := Nat.mul_pos one_pos (Nat.pow_pos (by decide))
  constructor
  · have hpow : 10 ^ (k - 1) * 10 ^ (p + 76 - k) = 10 ^ (p - 1) * 10 ^ 76 := by
      rw [← Nat.pow_add, ← Nat.pow_add]
      congr 1
      omega
    refine Nat.le_of_mul_le_mul_right ?_ hpos
    calc 10 ^ (k - 1) * b * (one * 10 ^ (p + 76 - k))
        = 10 ^ (k - 1) * 10 ^ (p + 76 - k) * one * b := by ac_rfl
      _ = 10 ^ (p - 1) * one * (10 ^ 76 * b) := by rw [hpow]; ac_rfl
      _ ≤ u * scale * (10 ^ 76 * b) := Nat.mul_le_mul_right _ hlow
      _ = a * (one * 10 ^ (p + 76 - k)) := hfine.symm
  · have hpow : 10 ^ k * 10 ^ (p + 76 - k) = 10 ^ p * 10 ^ 76 := by
      rw [← Nat.pow_add, ← Nat.pow_add]
      congr 1
      omega
    refine Nat.lt_of_mul_lt_mul_right (a := one * 10 ^ (p + 76 - k)) ?_
    calc a * (one * 10 ^ (p + 76 - k)) = u * scale * (10 ^ 76 * b) := hfine
      _ < 10 ^ p * one * (10 ^ 76 * b) :=
        Nat.mul_lt_mul_of_pos_right hhigh (Nat.mul_pos (Nat.pow_pos (by decide)) hb)
      _ = 10 ^ k * 10 ^ (p + 76 - k) * one * b := by rw [hpow]; ac_rfl
      _ = 10 ^ k * b * (one * 10 ^ (p + 76 - k)) := by ac_rfl

/-- A magnitude has `k` digits down to `k` places behind the point position. -/
theorem inPlaces_bounds (h : m.mantissa ≠ 0) {k : Nat} (hk : 0 < k) (hk' : k ≤ 17) :
    10 ^ (k - 1) * (m.inPlaces (m.pointPosition - k)).2 ≤ (m.inPlaces (m.pointPosition - k)).1 ∧
      (m.inPlaces (m.pointPosition - k)).1 < 10 ^ k * (m.inPlaces (m.pointPosition - k)).2 := by
  have hplace : -(fineness : Int) ≤ m.pointPosition - k ∧
      (m.pointPosition - k + fineness).toNat = m.places + 76 - k := by
    have hp := m.places_pos
    have hf := fineness_eq
    rw [pointPosition_eq]
    omega
  obtain ⟨hlow, hhigh⟩ := places_bounds h
  have hfine := m.inPlaces_fine hplace.1
  rw [hplace.2, pow_fineness (a := depth) (b := 76) (by rw [depth_eq, fineness_eq]), ← Nat.mul_assoc m.units,
    Nat.mul_assoc (m.units * Nat.pow 10 depth)] at hfine
  exact ratio_bounds (m.inPlaces_pos _) m.places_pos hk hk' hlow hhigh hfine

end Magnitude

/-! ## Decimals that read back -/

namespace Decimal

/-- A decimal in units of 10^-400. -/
def fine (d : Decimal) : Nat := d.digits * 10 ^ (d.exponent + fineness).toNat

/-- The decimals whose powers are computed when they are read. -/
structure InRange (d : Decimal) : Prop where
  digits : d.digits ≠ 0
  low : -(fineness : Int) ≤ d.exponent
  high : d.exponent ≤ 310

end Decimal

theorem Number.ofUnits_congr (negative : Bool) {n d n' d' : Nat} (hd : 0 < d) (hd' : 0 < d') (h : n * d' = n' * d) :
    ofUnits negative n d = ofUnits negative n' d' := by
  unfold ofUnits
  rw [Magnitude.round_congr hd hd' h]

/-- Reading a decimal rounds its exact value. -/
theorem Number.ofDecimal_eq (negative : Bool) {d : Decimal} (h : d.InRange) :
    ofDecimal negative d = ofUnits negative (d.fine * Magnitude.one) (10 ^ fineness) := by
  obtain ⟨hdigits, hlow, hhigh⟩ := h
  have hf := fineness_eq
  have hpos : 0 < 10 ^ fineness := Nat.pow_pos (by decide)
  unfold ofDecimal
  rw [if_neg hdigits, if_neg (by omega), if_neg (by omega)]
  split
  · refine ofUnits_congr negative (by decide) hpos ?_
    rw [Decimal.fine, show (d.exponent + fineness).toNat = d.exponent.toNat + fineness by omega, Nat.pow_add]
    show d.digits * 10 ^ d.exponent.toNat * Magnitude.one * 10 ^ fineness
      = d.digits * (10 ^ d.exponent.toNat * 10 ^ fineness) * Magnitude.one * 1
    rw [Nat.mul_one]
    ac_rfl
  · refine ofUnits_congr negative (Nat.pow_pos (by decide)) hpos ?_
    rw [Decimal.fine, pow_fineness (a := (-d.exponent).toNat) (b := (d.exponent + fineness).toNat) (by omega)]
    ac_rfl

namespace Magnitude

variable {m : Magnitude}

/-- A decimal reads back that differs from the magnitude by less than one part in 2^54. -/
theorem readsBack_of_near {d : Decimal} (h : d.InRange)
    (hlow : (2 ^ 54 - 1) * (m.units * 10 ^ fineness) < 2 ^ 54 * (d.fine * one))
    (hhigh : 2 ^ 54 * (d.fine * one) < (2 ^ 54 + 1) * (m.units * 10 ^ fineness)) : m.readsBack d = true := by
  have hround := round_near (Nat.pow_pos (by decide)) hlow hhigh
  have hread : Number.ofDecimal false d = .finite false m :=
    (Number.ofDecimal_eq false h).trans (Number.ofUnits_of_round false hround)
  rw [readsBack, hread, beq_self_eq_true]

/-- Whether a ratio is rounded down. -/
def roundsDown (n d : Nat) : Bool := 2 * (n % d) < d || (2 * (n % d) == d && n / d % 2 == 0)

/-- The decimals around a magnitude are its ratio rounded down and up. -/
theorem neighbours_eq (m : Magnitude) (place : Int) :
    m.neighbours place = (⟨(m.inPlaces place).1 / (m.inPlaces place).2, place⟩,
      ⟨(m.inPlaces place).1 / (m.inPlaces place).2 + 1, place⟩,
      roundsDown (m.inPlaces place).1 (m.inPlaces place).2) := rfl

/-- What is known of a decimal of `k` digits next to a magnitude. -/
structure Beside (m : Magnitude) (k : Nat) (d : Decimal) : Prop where
  exponent : d.exponent = m.pointPosition - k
  low : 10 ^ (k - 1) ≤ d.digits
  high : d.digits ≤ 10 ^ k

theorem beside_neighbours (h : m.mantissa ≠ 0) {k : Nat} (hk : 0 < k) (hk' : k ≤ 17) :
    m.Beside k (m.neighbours (m.pointPosition - k)).1 ∧ m.Beside k (m.neighbours (m.pointPosition - k)).2.1 := by
  obtain ⟨hlow, hhigh⟩ := inPlaces_bounds h hk hk'
  have hb := m.inPlaces_pos (m.pointPosition - k)
  rw [← Nat.le_div_iff_mul_le hb] at hlow
  rw [← Nat.div_lt_iff_lt_mul hb] at hhigh
  rw [neighbours_eq]
  exact ⟨⟨rfl, hlow, Nat.le_of_lt hhigh⟩, ⟨rfl, Nat.le_succ_of_le hlow, hhigh⟩⟩

theorem Beside.inRange {k : Nat} {d : Decimal} (h : m.Beside k d) (hk : 0 < k) (hk' : k ≤ 17) : d.InRange where
  digits := by
    have := h.low
    have : 0 < 10 ^ (k - 1) := Nat.pow_pos (by decide)
    omega
  low := by
    have := m.places_pos
    rw [h.exponent, pointPosition_eq, fineness_eq]
    omega
  high := by
    have := m.places_le
    rw [h.exponent, pointPosition_eq]
    omega

theorem either_of_eq_some {good : Decimal → Bool} {a b d : Decimal}
    (h : (if good a then some a else if good b then some b else none) = some d) : (d = a ∨ d = b) ∧ good d = true := by
  split at h
  · rename_i ha
    cases h
    exact ⟨.inl rfl, ha⟩
  · split at h
    · rename_i hb
      cases h
      exact ⟨.inr rfl, hb⟩
    · cases h

theorem readingBack?_spec {around : Decimal × Decimal × Bool} {d : Decimal} (h : m.readingBack? around = some d) :
    (d = around.1 ∨ d = around.2.1) ∧ m.readsBack d = true := by
  obtain ⟨low, high, lowNearer⟩ := around
  unfold readingBack? at h
  generalize m.readsBack = good at *
  cases lowNearer with
  | true => exact either_of_eq_some h
  | false =>
    obtain ⟨hmem, hread⟩ := either_of_eq_some (a := high) (b := low) h
    exact ⟨hmem.symm, hread⟩

theorem readingBack?_nearer {low high : Decimal} {lowNearer : Bool}
    (h : m.readsBack (if lowNearer then low else high) = true) :
    m.readingBack? (low, high, lowNearer) = some (if lowNearer then low else high) := by
  unfold readingBack?
  generalize m.readsBack = good at *
  cases lowNearer with
  | true => exact if_pos h
  | false => exact if_pos h

theorem withDigits?_spec (h : m.mantissa ≠ 0) {k : Nat} (hk : 0 < k) (hk' : k ≤ 17) {d : Decimal}
    (hd : m.withDigits? k = some d) : m.Beside k d ∧ m.readsBack d = true := by
  obtain ⟨hlow, hhigh⟩ := beside_neighbours h hk hk'
  unfold withDigits? at hd
  obtain ⟨rfl | rfl, hread⟩ := readingBack?_spec hd
  · exact ⟨hlow, hread⟩
  · exact ⟨hhigh, hread⟩

/-- A ratio that is rounded down lies at most half a unit above what it is rounded to. -/
theorem rounded_down {n d : Nat} (h : roundsDown n d = true) :
    2 * n ≤ 2 * (n / d * d) + d ∧ 2 * (n / d * d) ≤ 2 * n + d := by
  have hdiv := Nat.div_add_mod n d
  have hcomm : d * (n / d) = n / d * d := Nat.mul_comm ..
  simp only [roundsDown, Bool.or_eq_true, decide_eq_true_eq, Bool.and_eq_true, beq_iff_eq] at h
  omega

theorem rounded_up {n d : Nat} (hd : 0 < d) (h : roundsDown n d = false) :
    2 * n ≤ 2 * ((n / d + 1) * d) + d ∧ 2 * ((n / d + 1) * d) ≤ 2 * n + d := by
  have hdiv := Nat.div_add_mod n d
  have hmod := Nat.mod_lt n hd
  have hcomm : d * (n / d) = n / d * d := Nat.mul_comm ..
  have hsucc : (n / d + 1) * d = n / d * d + d := Nat.succ_mul ..
  simp only [roundsDown, Bool.or_eq_false_iff, decide_eq_false_iff_not] at h
  omega

/-- Seventeen digits tell magnitudes apart. -/
theorem readsBack_seventeen (h : m.mantissa ≠ 0) {d : Decimal} (hd : m.Beside 17 d)
    (hnear : 2 * (m.inPlaces d.exponent).1 ≤ 2 * (d.digits * (m.inPlaces d.exponent).2) + (m.inPlaces d.exponent).2 ∧
      2 * (d.digits * (m.inPlaces d.exponent).2) ≤ 2 * (m.inPlaces d.exponent).1 + (m.inPlaces d.exponent).2) :
    m.readsBack d = true := by
  have hrange := hd.inRange (by decide) (by decide)
  obtain ⟨hlow, hhigh⟩ := inPlaces_bounds (k := 17) h (by decide) (by decide)
  rw [← hd.exponent] at hlow
  have hfine := m.inPlaces_fine hrange.low
  have hb := m.inPlaces_pos d.exponent
  have hw : 0 < one * 10 ^ (d.exponent + fineness).toNat := Nat.mul_pos one_pos (Nat.pow_pos (by decide))
  have hvalue : d.fine * one = d.digits * (one * 10 ^ (d.exponent + fineness).toNat) := by
    rw [Decimal.fine]
    ac_rfl
  generalize m.inPlaces d.exponent = ratio at *
  generalize one * 10 ^ (d.exponent + fineness).toNat = w at *
  obtain ⟨n, b⟩ := ratio
  simp only at *
  refine readsBack_of_near hrange ?_ ?_
  · have hlt : (2 ^ 54 - 1) * n < 2 ^ 54 * (d.digits * b) := by omega
    refine Nat.lt_of_mul_lt_mul_right (a := b) ?_
    calc (2 ^ 54 - 1) * (m.units * 10 ^ fineness) * b = (2 ^ 54 - 1) * n * w := by
          rw [Nat.mul_assoc, ← hfine, Nat.mul_assoc]
      _ < 2 ^ 54 * (d.digits * b) * w := Nat.mul_lt_mul_of_pos_right hlt hw
      _ = 2 ^ 54 * (d.fine * one) * b := by rw [hvalue]; ac_rfl
  · have hlt : 2 ^ 54 * (d.digits * b) < (2 ^ 54 + 1) * n := by omega
    refine Nat.lt_of_mul_lt_mul_right (a := b) ?_
    calc 2 ^ 54 * (d.fine * one) * b = 2 ^ 54 * (d.digits * b) * w := by rw [hvalue]; ac_rfl
      _ < (2 ^ 54 + 1) * n * w := Nat.mul_lt_mul_of_pos_right hlt hw
      _ = (2 ^ 54 + 1) * (m.units * 10 ^ fineness) * b := by
          rw [Nat.mul_assoc, hfine]
          ac_rfl

/-- The nearer decimal of seventeen digits reads back. -/
theorem withDigits?_seventeen (h : m.mantissa ≠ 0) : ∃ d, m.withDigits? 17 = some d := by
  obtain ⟨hlow, hhigh⟩ := beside_neighbours (k := 17) h (by decide) (by decide)
  have hb := m.inPlaces_pos (m.pointPosition - (17 : Nat))
  unfold withDigits?
  rw [neighbours_eq] at hlow hhigh ⊢
  refine ⟨_, readingBack?_nearer ?_⟩
  cases hdown : roundsDown (m.inPlaces (m.pointPosition - (17 : Nat))).1
    (m.inPlaces (m.pointPosition - (17 : Nat))).2 with
  | true => exact readsBack_seventeen h hlow (rounded_down hdown)
  | false => exact readsBack_seventeen h hhigh (rounded_up hb hdown)

/-- The shortest decimal has at most seventeen digits and reads back. -/
theorem shortest_spec (h : m.mantissa ≠ 0) :
    ∃ k, 0 < k ∧ k ≤ 17 ∧ m.Beside k m.shortest ∧ m.readsBack m.shortest = true := by
  have hfound : ((List.range 17).findSome? fun k => m.withDigits? (k + 1)).isSome = true := by
    obtain ⟨d, hd⟩ := withDigits?_seventeen h
    rw [List.findSome?_isSome_iff]
    exact ⟨16, by simp, by rw [hd]; rfl⟩
  obtain ⟨d, hd⟩ := Option.isSome_iff_exists.mp hfound
  have hs : m.shortest = d := by
    rw [shortest, hd]
    rfl
  obtain ⟨k, hk, hkd⟩ := List.exists_of_findSome?_eq_some hd
  have hk := List.mem_range.mp hk
  obtain ⟨hbeside, hread⟩ := withDigits?_spec h (by omega) (by omega) hkd
  rw [hs]
  exact ⟨k + 1, by omega, by omega, hbeside, hread⟩

end Magnitude

end ArgGuard
