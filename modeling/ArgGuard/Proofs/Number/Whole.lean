/-
  ArgGuard.Proofs.Number.Whole — numbers that are written as whole numbers.

  A decimal that is laid out in digits alone is a whole number below 10^21
  (`isNat_of_digits`), and every such decimal is laid out as the whole number is
  (`decimalText_isNat`). So a magnitude is written as `n` exactly when `n` is the shortest
  decimal that denotes it and has at most 21 digits (`magnitudeText_eq_natText`); this need
  not be the whole number that the magnitude is.
-/

import ArgGuard.Proofs.Number.Text
import ArgGuard.Proofs.Text.Index

namespace ArgGuard

open Text

/-! ## Runs of digits -/

namespace Text

theorem ofDigitChars_lt {ds : List Char} (h : ∀ c ∈ ds, isDigit c = true) (n : Nat) :
    Nat.ofDigitChars 10 ds n < (n + 1) * 10 ^ ds.length := by
  induction ds generalizing n with
  | nil => simp
  | cons c ds ih =>
    have hc := digit_lt (h c List.mem_cons_self)
    rw [Nat.ofDigitChars_cons, List.length_cons, Nat.pow_succ']
    refine Nat.lt_of_lt_of_le (ih (fun d hd => h d (List.mem_cons_of_mem _ hd)) _) ?_
    rw [← Nat.mul_assoc]
    exact Nat.mul_le_mul_right _ (by omega)

theorem digitsValue_lt {ds : List Char} (h : ∀ c ∈ ds, isDigit c = true) : digitsValue ds < 10 ^ ds.length := by
  simpa [digitsValue_eq] using ofDigitChars_lt h 0

/-- Digits that begin with no zero are what their value is written as. -/
theorem toDigits_digitsValue {c : Char} {cs : List Char} (h : ∀ d ∈ c :: cs, isDigit d = true) (hc : c ≠ '0') :
    Nat.toDigits 10 (digitsValue (c :: cs)) = c :: cs := by
  obtain ⟨hdigit, hcs⟩ := List.forall_mem_cons.mp h
  rw [digitsValue_eq, Nat.ofDigitChars_cons, Nat.mul_zero, Nat.zero_add, toDigits_ofDigitChars hcs (digit_pos hdigit hc),
    toDigits_digit hdigit, List.singleton_append]

/-- Significant digits end with no zero. -/
theorem digitsValue_significant_mod {n : Nat} (h : n ≠ 0) : digitsValue (significant (Nat.toDigits 10 n)) % 10 ≠ 0 := by
  have hlast : ∀ c ∈ (significant (Nat.toDigits 10 n)).getLast?, c ≠ '0' := by
    intro c hc
    rw [significant, List.getLast?_reverse] at hc
    have hnot := List.head?_dropWhile_not (· == '0') (Nat.toDigits 10 n).reverse
    rw [Option.mem_def.mp hc] at hnot
    simpa using hnot
  have hdigit : ∀ c ∈ significant (Nat.toDigits 10 n), isDigit c = true := fun _ => isDigit_of_mem_significant
  have hne := significant_ne_nil h
  generalize significant (Nat.toDigits 10 n) = ds at *
  obtain ⟨init, c, rfl⟩ := (List.eq_nil_or_concat ds).resolve_left hne
  rw [List.concat_eq_append] at hlast hdigit ⊢
  have hc := hdigit c (by simp)
  have hpos := digit_pos hc (hlast c (by simp))
  have hlt := digit_lt hc
  rw [digitsValue_eq, Nat.ofDigitChars_append, Nat.ofDigitChars_cons]
  simp only [Nat.ofDigitChars_nil]
  omega

end Text

/-! ## Decimals that are whole numbers -/

/-- The decimal is the whole number. -/
def Decimal.IsNat (d : Decimal) (n : Nat) : Prop := d.digits * 10 ^ d.exponent.toNat = n * 10 ^ (-d.exponent).toNat

namespace Number

open Numeral DecimalLayout

variable {d : Decimal} {n : Nat}

theorem length_significant {z : Nat} (hz : significant (Nat.toDigits 10 n) ++ List.replicate z '0' = Nat.toDigits 10 n) :
    (significant (Nat.toDigits 10 n)).length + z = (Nat.toDigits 10 n).length := by
  rw [← List.length_replicate (n := z) (a := '0'), ← List.length_append, hz]

/-- A whole number whose digits go on after the last one that is no zero. -/
theorem eq_mul_pow_ten {v n a b : Nat} (hv : v % 10 ≠ 0) (h : v * 10 ^ a = n * 10 ^ b) :
    b ≤ a ∧ n = v * 10 ^ (a - b) := by
  have hle : b ≤ a := by
    refine Nat.le_of_not_lt fun hlt => hv ?_
    have hb : 10 ^ b = 10 * 10 ^ (b - a - 1) * 10 ^ a := by
      rw [← Nat.pow_succ', ← Nat.pow_add]
      congr 1
      omega
    rw [hb, ← Nat.mul_assoc] at h
    rw [Nat.eq_of_mul_eq_mul_right (Nat.pow_pos (by decide)) h, Nat.mul_left_comm, Nat.mul_mod_right]
  refine ⟨hle, Nat.eq_of_mul_eq_mul_right (Nat.pow_pos (by decide) : 0 < 10 ^ b) ?_⟩
  rw [Nat.mul_assoc, ← Nat.pow_add, Nat.sub_add_cancel hle]
  exact h.symm

/-- A whole number is read as it is. -/
theorem unsigned?_digits {ds : List Char} (h : ∀ c ∈ ds, isDigit c = true) (hne : ds ≠ []) :
    unsigned? ds = some ⟨digitsValue ds, 0⟩ := by
  have hread := unsigned?_whole (r := []) h hne (by simp) rfl
  rwa [List.append_nil] at hread

/-- What is laid out in digits alone is a whole number of at most 21 digits. -/
theorem isNat_of_digits (hd : d.digits ≠ 0) (h : ∀ c ∈ (decimalText d).toList, isDigit c = true) :
    d.IsNat (digitsValue (decimalText d).toList) ∧ digitsValue (decimalText d).toList < 10 ^ 21 := by
  obtain ⟨z, hz⟩ := significant_append (Nat.toDigits 10 d.digits)
  have hlength := length_significant hz
  have hvalue := digitsValue_significant hz
  have hmem : ∀ c ∈ significant (Nat.toDigits 10 d.digits), isDigit c = true := fun _ => isDigit_of_mem_significant
  have hne := significant_ne_nil hd
  unfold decimalText at h ⊢
  generalize significant (Nat.toDigits 10 d.digits) = ds at *
  obtain ⟨j, hread, -⟩ := unsigned?_write hmem hne (d.exponent + (Nat.toDigits 10 d.digits).length)
  obtain ⟨c, cs, hcs, -⟩ := head_write hmem hne (d.exponent + (Nat.toDigits 10 d.digits).length)
  rw [unsigned?_digits h (by rw [hcs]; exact List.cons_ne_nil _ _)] at hread
  simp only [Option.some.injEq, Decimal.mk.injEq] at hread
  obtain ⟨hn, hj⟩ := hread
  constructor
  · rw [hn, Decimal.IsNat, Nat.mul_assoc, ← Nat.pow_add]
    conv => lhs; rw [hvalue]
    rw [Nat.mul_assoc, ← Nat.pow_add]
    congr 2
    omega
  · refine Nat.lt_of_lt_of_le (digitsValue_lt h) (Nat.pow_le_pow_right (by decide) ?_)
    rw [toList_write] at h ⊢
    split
    · rw [if_pos (by omega), List.length_append, DecimalLayout.zeros, List.length_replicate]
      omega
    · rename_i hexp
      rw [if_neg hexp] at h
      exact absurd (h 'e' (List.mem_append_right _ List.mem_cons_self)) (by decide)

/-- A decimal that is a whole number of at most 21 digits is written as that number. -/
theorem decimalText_isNat (hd : d.digits ≠ 0) (h : d.IsNat n) (hn : n < 10 ^ 21) : decimalText d = natText n := by
  obtain ⟨z, hz⟩ := significant_append (Nat.toDigits 10 d.digits)
  have hlength := length_significant hz
  have hvalue := digitsValue_significant hz
  have hmod := digitsValue_significant_mod hd
  have hmem : ∀ c ∈ significant (Nat.toDigits 10 d.digits), isDigit c = true := fun _ => isDigit_of_mem_significant
  obtain ⟨c, cs, hcs, hc⟩ := exists_significant hd
  unfold decimalText
  generalize significant (Nat.toDigits 10 d.digits) = ds at *
  have hwritten : Nat.toDigits 10 (digitsValue ds) = ds := by
    rw [hcs]
    exact toDigits_digitsValue (hcs ▸ hmem) hc
  rw [Decimal.IsNat, hvalue, Nat.mul_assoc, ← Nat.pow_add] at h
  obtain ⟨hplace, hn'⟩ := eq_mul_pow_ten hmod h
  have hpos : 0 < ds.length := by
    rw [hcs]
    exact Nat.succ_pos _
  have hdigits : Nat.toDigits 10 n = ds ++ zeros (z + d.exponent.toNat - (-d.exponent).toNat) := by
    have hvalue0 : 0 < digitsValue ds := Nat.pos_of_ne_zero fun h0 => hmod (by rw [h0])
    have hall : ∀ c ∈ zeros (z + d.exponent.toNat - (-d.exponent).toNat), isDigit c = true := fun c hc => by
      rw [(List.mem_replicate.mp hc).2]
      rfl
    rw [hn', ← digitsValue_append_zeros, digitsValue_eq, Nat.ofDigitChars_append, ← digitsValue_eq]
    exact (toDigits_ofDigitChars hall hvalue0).trans (by rw [hwritten])
  have hbelow : (Nat.toDigits 10 n).length ≤ 21 := (Nat.length_toDigits_le_iff (by decide) (by decide)).mpr hn
  rw [hdigits, List.length_append, DecimalLayout.zeros, List.length_replicate] at hbelow
  apply String.toList_injective
  rw [toList_write, if_pos (by omega), if_pos (by omega), natText, String.toList_ofList, hdigits]
  congr 2
  omega

/-! ## Magnitudes -/

theorem digits_shortest {m : Magnitude} (h : m.mantissa ≠ 0) : m.shortest.digits ≠ 0 := by
  obtain ⟨k, hk, hk', hbeside, _⟩ := Magnitude.shortest_spec h
  exact (hbeside.inRange hk hk').digits

/-- A magnitude is written as a whole number exactly when that is its shortest decimal and has
at most 21 digits. -/
theorem magnitudeText_eq_natText {m : Magnitude} (h : m.mantissa ≠ 0) :
    magnitudeText m = natText n ↔ m.shortest.IsNat n ∧ n < 10 ^ 21 := by
  have hd := digits_shortest h
  show decimalText m.shortest = natText n ↔ _
  constructor
  · intro htext
    have hdigits : (decimalText m.shortest).toList = Nat.toDigits 10 n := by rw [htext, natText, String.toList_ofList]
    have hnat := isNat_of_digits hd (by rw [hdigits]; exact fun _ => isDigit_of_mem_toDigits)
    rwa [hdigits, digitsValue_toDigits] at hnat
  · exact fun hnat => decimalText_isNat hd hnat.1 hnat.2

/-- Digits alone that a magnitude is written in are those of a whole number. -/
theorem magnitudeText_digits {m : Magnitude} (h : m.mantissa ≠ 0) {ds : List Char} (hds : ∀ c ∈ ds, isDigit c = true)
    (htext : (magnitudeText m).toList = ds) : magnitudeText m = natText (digitsValue ds) := by
  obtain ⟨hnat, hbelow⟩ := isNat_of_digits (digits_shortest h) (show ∀ c ∈ (magnitudeText m).toList, _ by rwa [htext])
  rw [magnitudeText_eq_natText h, ← htext]
  exact ⟨hnat, hbelow⟩

end Number

end ArgGuard
