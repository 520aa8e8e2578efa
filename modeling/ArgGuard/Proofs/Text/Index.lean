/-
  ArgGuard.Proofs.Text.Index — the texts that are indices are the decimal numbers.

  `isIndexText` looks at characters only; what it accepts is exactly what `natText` writes,
  for numbers of any size.
-/

import ArgGuard.Proofs.Text.Digits

namespace ArgGuard.Text

theorem isDigit_iff {c : Char} : isDigit c = true ↔ 48 ≤ c.toNat ∧ c.toNat ≤ 57 := by
  rw [isDigit, Bool.and_eq_true, decide_eq_true_eq, decide_eq_true_eq, Char.le_def, Char.le_def, UInt32.le_iff_toNat_le,
    UInt32.le_iff_toNat_le]
  rfl

theorem digit_lt {c : Char} (h : isDigit c = true) : c.toNat - '0'.toNat < 10 := by
  have hhigh := (isDigit_iff.mp h).2
  show c.toNat - 48 < 10
  omega

/-- A digit is what its value is written as. -/
theorem digitChar_toNat {c : Char} (h : isDigit c = true) : Nat.digitChar (c.toNat - '0'.toNat) = c := by
  have hlow := (isDigit_iff.mp h).1
  apply Char.toNat_inj.mp
  rw [Nat.toNat_digitChar_of_lt_ten (digit_lt h)]
  show 48 + (c.toNat - 48) = c.toNat
  omega

theorem toDigits_digit {c : Char} (h : isDigit c = true) : Nat.toDigits 10 (c.toNat - '0'.toNat) = [c] := by
  rw [Nat.toDigits_of_lt_base (digit_lt h), digitChar_toNat h]

theorem digit_pos {c : Char} (h : isDigit c = true) (hc : c ≠ '0') : 0 < c.toNat - '0'.toNat := by
  refine Nat.pos_of_ne_zero fun hzero => hc ?_
  rw [← digitChar_toNat h, hzero]
  rfl

/-- Digits behind a number that is not zero are written as they stand. -/
theorem toDigits_ofDigitChars {ds : List Char} (hds : ∀ c ∈ ds, isDigit c = true) {n : Nat} (hn : 0 < n) :
    Nat.toDigits 10 (Nat.ofDigitChars 10 ds n) = Nat.toDigits 10 n ++ ds := by
  induction ds generalizing n with
  | nil => exact (List.append_nil _).symm
  | cons c ds ih =>
    have hc := hds c List.mem_cons_self
    rw [Nat.ofDigitChars_cons, ih (fun d hd => hds d (List.mem_cons_of_mem _ hd)) (by omega),
      ← Nat.toDigits_append_toDigits (by omega) hn (digit_lt hc), toDigits_digit hc, List.append_assoc,
      List.singleton_append]

/-- Digits that begin with no zero are an index. -/
theorem isIndexText_ofList {c : Char} {cs : List Char} (hall : ∀ d ∈ c :: cs, isDigit d = true) (hc : c ≠ '0') :
    isIndexText (String.ofList (c :: cs)) = true := by
  unfold isIndexText
  rw [String.toList_ofList]
  split
  · simp_all
  · rfl
  · rename_i heq
    cases heq
    simp only [Bool.and_eq_true, bne_iff_ne, List.all_eq_true]
    exact ⟨⟨hall c List.mem_cons_self, hc⟩, fun d hd => hall d (List.mem_cons_of_mem _ hd)⟩

theorem isIndexText_natText (n : Nat) : isIndexText (natText n) = true := by
  by_cases hn : n = 0
  · subst hn
    rfl
  obtain ⟨c, cs, hdigits, hc⟩ := exists_toDigits (show 0 < n by omega)
  have hall : ∀ d ∈ c :: cs, isDigit d = true := fun d hd => isDigit_of_mem_toDigits (hdigits ▸ hd)
  rw [natText, hdigits]
  exact isIndexText_ofList hall hc

/-- An index text is a number in decimal. -/
theorem exists_natText {s : String} (h : isIndexText s = true) : ∃ n, s = natText n := by
  unfold isIndexText at h
  split at h
  · cases h
  · rename_i hs
    exact ⟨0, String.toList_injective (by rw [hs]; rfl)⟩
  · rename_i c cs hne hs
    simp only [Bool.and_eq_true, bne_iff_ne, ne_eq, List.all_eq_true] at h
    obtain ⟨⟨hc, hzero⟩, hcs⟩ := h
    refine ⟨digitsValue s.toList, String.toList_injective ?_⟩
    rw [natText, String.toList_ofList, hs, digitsValue_eq, Nat.ofDigitChars_cons, Nat.mul_zero, Nat.zero_add,
      toDigits_ofDigitChars hcs (digit_pos hc hzero), toDigits_digit hc]
    rfl

theorem isIndexText_iff {s : String} : isIndexText s = true ↔ ∃ n, s = natText n := by
  constructor
  · exact exists_natText
  · rintro ⟨n, rfl⟩
    exact isIndexText_natText n

end ArgGuard.Text
