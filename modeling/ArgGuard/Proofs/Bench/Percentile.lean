/-
  ArgGuard.Proofs.Bench.Percentile — percentiles are rank statistics.

  The share `p` of `n` samples has the rank `max 1 ⌈p · n⌉`, with the product as it is rounded,
  and the percentile is the sample of that rank in ascending order. Of a rounding nothing is
  asked but that it keeps the order and leaves whole numbers up to `n` as they are (`Rounds`):
  then ranks lie between 1 and `n` (`rank_le`), grow with the share (`rank_mono`) and are
  reached at both ends (`rank_zero`, `rank_one`). The product of binary64 is such a rounding for
  every count below 2^53 (`rounds_mul`), and an array has fewer than 2^32 elements.

  Sorting keeps the samples (`ascending_perm`) and orders finite ones (`ascending_sorted`), so
  the sample of rank `k` has `k` samples up to it and `n - k + 1` from it on. From these two
  counts and the order of ranks all of `percentile_rank_statistic` follows.
-/

import ArgGuard.Bench.Percentile
import ArgGuard.Proofs.Number.Order
import Mathlib.Algebra.Order.Floor.Semiring
import Mathlib.Data.List.Sort

namespace ArgGuard.Bench

open Number

variable {samples other : List Number} {x p q : Number} {i n : Nat}

/-! ## Sorting -/

/-- In ascending order of what the samples are worth. -/
def Ascending (samples : List Number) : Prop := samples.Pairwise fun x y => x.value ≤ y.value

def Descending (samples : List Number) : Prop := samples.Pairwise fun x y => y.value ≤ x.value

theorem insertDescending_perm (x : Number) (samples : List Number) :
    (insertDescending x samples).Perm (x :: samples) := by
  induction samples with
  | nil => exact .refl _
  | cons y ys ih =>
    rw [insertDescending]
    split
    · exact (ih.cons y).trans (.swap x y ys)
    · exact .refl _

/-- A sample that is put where it belongs leaves the others in order. -/
theorem insertDescending_descending (hx : x.isFinite = true) (hfinite : ∀ y ∈ samples, y.isFinite = true)
    (h : Descending samples) : Descending (insertDescending x samples) := by
  induction samples with
  | nil => exact List.pairwise_singleton _ _
  | cons y ys ih =>
    obtain ⟨hy, hys⟩ := List.forall_mem_cons.mp hfinite
    obtain ⟨hfirst, hrest⟩ := List.pairwise_cons.mp h
    rw [insertDescending]
    split
    case isTrue hlt =>
      have hbelow : x.value < y.value := (lt_iff hx hy).mp ((sub_lt_zero x y).symm.trans hlt)
      refine List.pairwise_cons.mpr ⟨fun z hz => ?_, ih hys hrest⟩
      rcases List.mem_cons.mp ((insertDescending_perm x ys).mem_iff.mp hz) with rfl | hz
      · exact hbelow.le
      · exact hfirst z hz
    case isFalse hlt =>
      have habove : y.value ≤ x.value := le_of_not_gt fun hbelow =>
        hlt ((sub_lt_zero x y).trans ((lt_iff hx hy).mpr hbelow))
      refine List.pairwise_cons.mpr ⟨fun z hz => ?_, h⟩
      rcases List.mem_cons.mp hz with rfl | hz
      · exact habove
      · exact (hfirst z hz).trans habove

theorem foldl_perm (samples acc : List Number) :
    (samples.foldl (fun acc x => insertDescending x acc) acc).Perm (samples ++ acc) := by
  induction samples generalizing acc with
  | nil => exact .refl _
  | cons x xs ih => exact (ih _).trans (((insertDescending_perm x acc).append_left xs).trans List.perm_middle)

theorem foldl_descending {acc : List Number} (hfinite : ∀ x ∈ samples, x.isFinite = true)
    (hacc : ∀ x ∈ acc, x.isFinite = true) (h : Descending acc) :
    Descending (samples.foldl (fun acc x => insertDescending x acc) acc) := by
  -- on the samples still to come; `acc` holds those that were put in order
  induction samples generalizing acc with
  | nil => exact h
  | cons x xs ih =>
    obtain ⟨hx, hxs⟩ := List.forall_mem_cons.mp hfinite
    refine ih hxs (fun y hy => ?_) (insertDescending_descending hx hacc h)
    rcases List.mem_cons.mp ((insertDescending_perm x acc).mem_iff.mp hy) with rfl | hy
    · exact hx
    · exact hacc y hy

theorem ascending_perm (samples : List Number) : (ascending samples).Perm samples := by
  have hperm := foldl_perm samples []
  rw [List.append_nil] at hperm
  exact (List.reverse_perm _).trans hperm

theorem ascending_sorted (hfinite : ∀ x ∈ samples, x.isFinite = true) : Ascending (ascending samples) :=
  List.pairwise_reverse.mpr (foldl_descending hfinite (fun _ h => absurd h List.not_mem_nil) .nil)

theorem length_ascending (samples : List Number) : (ascending samples).length = samples.length :=
  (ascending_perm samples).length_eq

theorem isFinite_ascending (hfinite : ∀ x ∈ samples, x.isFinite = true) : ∀ x ∈ ascending samples, x.isFinite = true :=
  fun x hx => hfinite x ((ascending_perm samples).mem_iff.mp hx)

/-- The order in which samples are given shows in the signs of zeros at most. -/
theorem value_ascending_of_perm (hfinite : ∀ x ∈ samples, x.isFinite = true) (h : other.Perm samples) :
    (ascending other).map value = (ascending samples).map value := by
  refine List.Perm.eq_of_pairwise (fun r t _ _ (hrt : r ≤ t) htr => le_antisymm hrt htr) ?_ ?_ ?_
  · exact List.pairwise_map.mpr (ascending_sorted fun x hx => hfinite x (h.mem_iff.mp hx))
  · exact List.pairwise_map.mpr (ascending_sorted hfinite)
  · exact (((ascending_perm other).trans h).trans (ascending_perm samples).symm).map value

/-! ## Samples on either side -/

theorem Ascending.value_le (h : Ascending samples) {i j : Nat} (hij : i ≤ j) (hj : j < samples.length) :
    samples[i].value ≤ samples[j].value := by
  rcases Nat.eq_or_lt_of_le hij with rfl | hlt
  · exact le_refl _
  · exact List.pairwise_iff_getElem.mp h i j _ hj hlt

/-- No sample up to an index is above the one there. -/
theorem Ascending.countP_le (h : Ascending samples) (hfinite : ∀ x ∈ samples, x.isFinite = true)
    (hi : i < samples.length) : i + 1 ≤ samples.countP (·.le samples[i]) := by
  have hall : ∀ x ∈ samples.take (i + 1), x.le samples[i] = true := by
    intro x hx
    obtain ⟨j, hj, rfl⟩ := List.mem_take_iff_getElem.mp hx
    exact (le_iff (hfinite _ (List.getElem_mem _)) (hfinite _ (List.getElem_mem _))).mpr (h.value_le (by omega) hi)
  have htake : (samples.take (i + 1)).countP (·.le samples[i]) = i + 1 :=
    (List.countP_eq_length.mpr hall).trans (List.length_take_of_le hi)
  exact htake.symm.trans_le (List.take_sublist ..).countP_le

/-- No sample from an index on is below the one there. -/
theorem Ascending.le_countP (h : Ascending samples) (hfinite : ∀ x ∈ samples, x.isFinite = true)
    (hi : i < samples.length) : samples.length - i ≤ samples.countP (samples[i].le ·) := by
  have hall : ∀ x ∈ samples.drop i, samples[i].le x = true := by
    intro x hx
    obtain ⟨j, hj, rfl⟩ := List.mem_drop_iff_getElem.mp hx
    exact (le_iff (hfinite _ (List.getElem_mem _)) (hfinite _ (List.getElem_mem _))).mpr (h.value_le (by omega) _)
  have hdrop : (samples.drop i).countP (samples[i].le ·) = samples.length - i :=
    (List.countP_eq_length.mpr hall).trans List.length_drop
  exact hdrop.symm.trans_le (List.drop_sublist ..).countP_le

/-! ## Ranks -/

/-- A product that comes to the exact one, rounded: a rounding keeps the order, and whole
numbers up to the count as they are. -/
structure Rounds (round : ℚ → ℚ) (product : Number → Number → Number) (n : Nat) : Prop where
  mono : ∀ {r t : ℚ}, 0 ≤ r → r ≤ t → t ≤ n → round r ≤ round t
  exact : ∀ {k : Nat}, k ≤ n → round k = k
  product : ∀ {p : Number}, p.isFinite = true → 0 < p.value → p.value ≤ 1 →
    (product p (.ofNat n)).IsWorth (round (p.value * n))

/-- The rank of a share of `n` samples, counted from one. -/
def rank (round : ℚ → ℚ) (p : Number) (n : Nat) : Nat := max 1 ⌈round (p.value * n)⌉₊

/-- A number from 0 to 1. -/
structure IsShare (p : Number) : Prop where
  finite : p.isFinite = true
  nonneg : 0 ≤ p.value
  le_one : p.value ≤ 1

theorem isWorth_one : (ofNat 1).IsWorth 1 := by
  simpa using isWorth_ofNat (n := 1) (by decide)

theorem isShare_one : IsShare (.ofNat 1) :=
  ⟨isWorth_one.finite, by rw [isWorth_one.value_eq]; exact zero_le_one, isWorth_one.value_eq.le⟩

theorem IsShare.of_le (hp : zero.le p = true) (hp' : p.le (.ofNat 1) = true) : IsShare p := by
  obtain ⟨hone, hvalue⟩ := isWorth_one
  have hfinite := isFinite_of_le isFinite_zero hone hp hp'
  refine ⟨hfinite, ?_, ?_⟩
  · rw [← value_zero]
    exact (le_iff isFinite_zero hfinite).mp hp
  · rw [← hvalue]
    exact (le_iff hfinite hone).mp hp'

section Rank

variable {round : ℚ → ℚ} {product : Number → Number → Number}

theorem one_le_rank : 1 ≤ rank round p n := le_max_left ..

theorem rank_mono (h : Rounds round product n) (hp : IsShare p) (hq : IsShare q) (hpq : p.value ≤ q.value) :
    rank round p n ≤ rank round q n := by
  refine max_le_max_left 1 (Nat.ceil_mono (h.mono ?_ ?_ ?_))
  · exact mul_nonneg hp.nonneg n.cast_nonneg
  · exact mul_le_mul_of_nonneg_right hpq n.cast_nonneg
  · exact mul_le_of_le_one_left n.cast_nonneg hq.le_one

theorem rank_zero (h : Rounds round product n) (hp : p.value = 0) : rank round p n = 1 := by
  have hzero := h.exact (Nat.zero_le n)
  rw [Nat.cast_zero] at hzero
  rw [rank, hp, zero_mul, hzero, Nat.ceil_zero]
  decide

theorem rank_one (h : Rounds round product n) (hn : 0 < n) (hp : p.value = 1) : rank round p n = n := by
  rw [rank, hp, one_mul, h.exact (le_refl n), Nat.ceil_natCast]
  exact max_eq_right hn

theorem rank_le (h : Rounds round product n) (hn : 0 < n) (hp : IsShare p) : rank round p n ≤ n := by
  calc rank round p n ≤ rank round (.ofNat 1) n :=
        rank_mono h hp isShare_one (hp.le_one.trans_eq isWorth_one.value_eq.symm)
    _ = n := rank_one h hn isWorth_one.value_eq

/-- The index that is computed is that of the rank. -/
theorem rankIndex_eq (h : Rounds round product n) (hn : 0 < n) (hp : IsShare p) :
    rankIndex product p n = rank round p n - 1 := by
  have hle := rank_le h hn hp
  unfold rankIndex
  by_cases hpos : 0 < p.value
  · obtain ⟨hfinite, hproduct⟩ := h.product hp.finite hpos hp.le_one
    have hnot : p.le zero = false := by
      rw [← Bool.not_eq_true, le_iff hp.finite isFinite_zero, value_zero]
      exact not_le_of_gt hpos
    rw [rank, ← Int.ceil_toNat] at hle ⊢
    simp only [hnot, ceil?_eq hfinite, hproduct, Option.getD_some, if_neg Bool.false_ne_true]
    generalize ⌈round (p.value * n)⌉ = c at *
    show min (n - 1) (max 0 (c - 1)).toNat = max 1 c.toNat - 1
    omega
  · have hzero : p.value = 0 := le_antisymm (not_lt.mp hpos) hp.nonneg
    have hle : p.le zero = true := by
      rw [le_iff hp.finite isFinite_zero, value_zero, hzero]
    rw [rank_zero h hzero]
    simp [hle]

/-- The product of binary64 is the exact one, rounded to the nearest. -/
theorem rounds_mul (hn : n < 2 ^ 53) : Rounds rounded Number.mul n where
  mono {r t} hr hrt htn :=
    (nearest_mono hr hrt (nearest_mono (hr.trans hrt) htn (isFinite_nearest_natCast hn)).1).2
  exact {k} hk := by
    rw [rounded, nearest_natCast]
    exact (isWorth_ofNat (by omega)).value_eq
  product {p} hp hpos hle := by
    rw [mul_ofNat hp hpos hn]
    refine ⟨(nearest_mono ?_ ?_ (isFinite_nearest_natCast hn)).1, rfl⟩
    · exact mul_nonneg hpos.le n.cast_nonneg
    · exact mul_le_of_le_one_left n.cast_nonneg hle

end Rank

/-! ## Percentiles -/

/-- `x` is what a statistic makes of samples at a share of rank `k`. -/
structure HasRank (statistic : List Number → Number → Except BenchFault Number) (samples : List Number) (k : Nat)
    (p x : Number) : Prop where
  result : statistic samples p = .ok x
  mem : x ∈ samples
  below : k ≤ samples.countP (·.le x)
  above : samples.length + 1 ≤ samples.countP (x.le ·) + k
  least : p.eq .zero = true → ∀ z ∈ samples, x.le z = true
  greatest : p.eq (.ofNat 1) = true → ∀ z ∈ samples, z.le x = true
  permuted : ∀ {other}, other.Perm samples → ∃ z, statistic other p = .ok z ∧ z.eq x = true

/-- A statistic has results of their ranks at two shares, the first not above the second. -/
def RankStatistic (statistic : List Number → Number → Except BenchFault Number) (round : ℚ → ℚ)
    (samples : List Number) (p q : Number) : Prop :=
  ∃ x y, HasRank statistic samples (rank round p samples.length) p x ∧
    HasRank statistic samples (rank round q samples.length) q y ∧ x.le y = true

section Results

variable {round : ℚ → ℚ} {product : Number → Number → Number}

/-- The sample of the rank, counted from one. -/
theorem percentileBy_eq (h : Rounds round product samples.length) (hne : samples ≠ []) (hp : IsShare p) :
    ∃ x, (ascending samples)[rank round p samples.length - 1]? = some x ∧ percentileBy product samples p = .ok x := by
  have hpos := List.length_pos_of_ne_nil hne
  have hle := rank_le h hpos hp
  have hi : rank round p samples.length - 1 < (ascending samples).length := by
    rw [length_ascending]
    omega
  have hrange : (!p.isFinite || p.lt zero || (ofNat 1).lt p) = false := by
    have hlow : p.lt zero = false := by
      rw [← Bool.not_eq_true, lt_iff hp.finite isFinite_zero, value_zero]
      exact not_lt_of_ge hp.nonneg
    have hhigh : (ofNat 1).lt p = false := by
      rw [← Bool.not_eq_true, lt_iff isWorth_one.finite hp.finite, isWorth_one.value_eq]
      exact not_lt_of_ge hp.le_one
    rw [hp.finite, hlow, hhigh]
    rfl
  refine ⟨_, List.getElem?_eq_getElem hi, ?_⟩
  simp only [percentileBy, hrange, length_ascending, rankIndex_eq h hpos hp, List.getElem?_eq_getElem hi,
    Option.getD_some, if_neg Bool.false_ne_true]

/-- Given in another order, samples come to the same. -/
theorem percentileBy_of_perm (h : Rounds round product samples.length) (hne : samples ≠ [])
    (hfinite : ∀ x ∈ samples, x.isFinite = true) (hp : IsShare p)
    (hx : (ascending samples)[rank round p samples.length - 1]? = some x) (hother : other.Perm samples) :
    ∃ z, percentileBy product other p = .ok z ∧ z.eq x = true := by
  have hlength := hother.length_eq
  have hsome : other ≠ [] := fun hnil => hne (List.Perm.nil_eq (hnil ▸ hother)).symm
  obtain ⟨z, hz, hresult⟩ := percentileBy_eq (hlength ▸ h) hsome hp
  rw [hlength] at hz
  have hvalue : some z.value = some x.value :=
    calc some z.value = ((ascending other).map value)[rank round p samples.length - 1]? := by
          rw [List.getElem?_map, hz, Option.map_some]
      _ = ((ascending samples).map value)[rank round p samples.length - 1]? := by
          rw [value_ascending_of_perm hfinite hother]
      _ = some x.value := by rw [List.getElem?_map, hx, Option.map_some]
  have hxmem := (ascending_perm samples).mem_iff.mp (List.mem_of_getElem? hx)
  have hzmem := hother.mem_iff.mp ((ascending_perm other).mem_iff.mp (List.mem_of_getElem? hz))
  exact ⟨z, hresult, (eq_iff (hfinite z hzmem) (hfinite x hxmem)).mpr (Option.some.inj hvalue)⟩

/-- The counts at both ends leave no sample out: there the sample is the least or the greatest. -/
theorem hasRank (h : Rounds round product samples.length) (hne : samples ≠ [])
    (hfinite : ∀ x ∈ samples, x.isFinite = true) (hp : IsShare p)
    (hx : (ascending samples)[rank round p samples.length - 1]? = some x)
    (hresult : percentileBy product samples p = .ok x) :
    HasRank (percentileBy product) samples (rank round p samples.length) p x := by
  have hperm := ascending_perm samples
  have hpos := List.length_pos_of_ne_nil hne
  have hone : 1 ≤ rank round p samples.length := one_le_rank
  obtain ⟨hi, hindex⟩ := List.getElem?_eq_some_iff.mp hx
  have hbelow := (ascending_sorted hfinite).countP_le (isFinite_ascending hfinite) hi
  have habove := (ascending_sorted hfinite).le_countP (isFinite_ascending hfinite) hi
  rw [hindex, hperm.countP_eq] at hbelow habove
  rw [hperm.length_eq] at habove
  constructor
  case result => exact hresult
  case mem => exact hperm.mem_iff.mp (List.mem_of_getElem? hx)
  case below => omega
  case above => omega
  case least =>
    intro hzero
    rw [eq_iff hp.finite isFinite_zero, value_zero] at hzero
    rw [rank_zero h hzero, Nat.sub_self, Nat.sub_zero] at habove
    exact List.countP_eq_length.mp (Nat.le_antisymm List.countP_le_length habove)
  case greatest =>
    intro hlast
    rw [eq_iff hp.finite isWorth_one.finite, isWorth_one.value_eq] at hlast
    rw [rank_one h hpos hlast, Nat.sub_add_cancel hpos] at hbelow
    exact List.countP_eq_length.mp (Nat.le_antisymm List.countP_le_length hbelow)
  case permuted => exact fun hother => percentileBy_of_perm h hne hfinite hp hx hother

theorem rankStatistic (h : Rounds round product samples.length) (hne : samples ≠ [])
    (hfinite : ∀ x ∈ samples, x.isFinite = true) (hp : IsShare p) (hq : IsShare q) (hpq : p.value ≤ q.value) :
    RankStatistic (percentileBy product) round samples p q := by
  obtain ⟨x, hx, hresult⟩ := percentileBy_eq h hne hp
  obtain ⟨y, hy, hresult'⟩ := percentileBy_eq h hne hq
  have hxrank := hasRank h hne hfinite hp hx hresult
  have hyrank := hasRank h hne hfinite hq hy hresult'
  refine ⟨x, y, hxrank, hyrank, (le_iff (hfinite x hxrank.mem) (hfinite y hyrank.mem)).mpr ?_⟩
  obtain ⟨_, rfl⟩ := List.getElem?_eq_some_iff.mp hx
  obtain ⟨hj, rfl⟩ := List.getElem?_eq_some_iff.mp hy
  exact (ascending_sorted hfinite).value_le (Nat.sub_le_sub_right (rank_mono h hp hq hpq) 1) hj

end Results

/-- The percentiles of finite samples, of which there are some, are rank statistics whatever
monotone rounding the product is made with, that of binary64 among them. -/
theorem percentile_rank_statistic (hne : samples ≠ []) (hfinite : ∀ x ∈ samples, x.isFinite = true)
    (hp : zero.le p = true) (hpq : p.le q = true) (hq : q.le (.ofNat 1) = true) :
    (∀ {round : ℚ → ℚ} {product : Number → Number → Number}, Rounds round product samples.length →
      RankStatistic (percentileBy product) round samples p q) ∧
    (samples.length < 2 ^ 53 →
      Rounds rounded Number.mul samples.length ∧ RankStatistic percentile rounded samples p q) := by
  have hp' : IsShare p := .of_le hp (Number.le_trans hpq hq)
  have hq' : IsShare q := .of_le (Number.le_trans hp hpq) hq
  have hpq' : p.value ≤ q.value := (le_iff hp'.finite hq'.finite).mp hpq
  refine ⟨fun h => rankStatistic h hne hfinite hp' hq' hpq', fun hlength => ?_⟩
  have hmul := rounds_mul hlength
  exact ⟨hmul, rankStatistic hmul hne hfinite hp' hq' hpq'⟩

/-! ## Samples with two zeros -/

def zeros : List Number := [.ofNat 16, .zero, zero.neg, .ofNat 4, .ofNat 16]

theorem percentile_rank_statistic_zeros :
    (zeros ≠ [] ∧ (∀ x ∈ zeros, x.isFinite = true) ∧ zero.le (.ofRatio false 1 2) = true ∧
      (ofRatio false 1 2).le (.ofRatio false 95 100) = true ∧ (ofRatio false 95 100).le (.ofNat 1) = true ∧
      zeros.length < 2 ^ 53) ∧
    RankStatistic (percentileBy Number.mul) rounded zeros (.ofRatio false 1 2) (.ofRatio false 95 100) ∧
    (Rounds rounded Number.mul zeros.length ∧
      RankStatistic percentile rounded zeros (.ofRatio false 1 2) (.ofRatio false 95 100)) ∧
    percentile zeros (.ofRatio false 1 2) = .ok (.ofNat 4) ∧
    percentile zeros (.ofRatio false 95 100) = .ok (.ofNat 16) := by
  have hne : zeros ≠ [] := List.cons_ne_nil _ _
  have hfinite : ∀ x ∈ zeros, x.isFinite = true := by decide +kernel
  have hp : zero.le (.ofRatio false 1 2) = true := by decide +kernel
  have hpq : (ofRatio false 1 2).le (.ofRatio false 95 100) = true := by decide +kernel
  have hq : (ofRatio false 95 100).le (.ofNat 1) = true := by decide +kernel
  have hlength : zeros.length < 2 ^ 53 := by decide
  have hstatistic := percentile_rank_statistic hne hfinite hp hpq hq
  exact ⟨⟨hne, hfinite, hp, hpq, hq, hlength⟩, hstatistic.1 (rounds_mul hlength), hstatistic.2 hlength,
    by decide +kernel, by decide +kernel⟩

end ArgGuard.Bench
