/-
  ArgGuard.Proofs.Text.Digits — runs of digits and the numbers they denote.
-/

import ArgGuard.Text.Index
import Mathlib.Algebra.Group.Nat.Defs

namespace ArgGuard.Text

/-- A character of a number's text. -/
def isNumeric (c : Char) : Bool := isDigit c || c == '-' || c == '+' || c == '.' || c == 'e'

theorem isDigit_of_isDigit {c : Char} (h : c.isDigit = true) : isDigit c = true := by
  simp only [Char.isDigit, Bool.and_eq_true, decide_eq_true_eq, ge_iff_le] at h
  simp only [isDigit, Bool.and_eq_true, decide_eq_true_eq]
  exact h

theorem isDigit_of_mem_toDigits {n : Nat} {c : Char} (h : c ∈ Nat.toDigits 10 n) : isDigit c = true :=
  isDigit_of_isDigit (Nat.isDigit_of_mem_toDigits (by decide) (by decide) h)

theorem digitsValue_eq (cs : List Char) : digitsValue cs = Nat.ofDigitChars 10 cs 0 :=
  Nat.ofDigitChars_eq_foldl.symm

theorem digitsValue_toDigits (n : Nat) : digitsValue (Nat.toDigits 10 n) = n := by
  rw [digitsValue_eq, Nat.ofDigitChars_ten_toDigits]

/-- A number that is not zero starts with another digit. -/
theorem exists_toDigits {n : Nat} (hn : 0 < n) : ∃ c cs, Nat.toDigits 10 n = c :: cs ∧ c ≠ '0' := by
  induction n using Nat.strongRecOn with
  | _ n ih =>
    rw [Nat.toDigits_eq_if (by omega)]
    by_cases hlt : n < 10
    · have hdigit : ∀ m : Fin 10, 0 < m.val → Nat.digitChar m.val ≠ '0' := by decide
      exact ⟨_, [], if_pos hlt, hdigit ⟨n, hlt⟩ hn⟩
    · obtain ⟨c, cs, hdigits, hc⟩ := ih (n / 10) (by omega) (by omega)
      exact ⟨c, cs ++ [Nat.digitChar (n % 10)], by rw [if_neg hlt, hdigits, List.cons_append], hc⟩

theorem natText_inj {n n' : Nat} (h : natText n = natText n') : n = n' := by
  have hdigits : Nat.toDigits 10 n = Nat.toDigits 10 n' := by simpa [natText] using congrArg String.toList h
  rw [← digitsValue_toDigits n, hdigits, digitsValue_toDigits]

/-- A minus sign is no digit. -/
theorem natText_ne_minus (n n' : Nat) : natText n ≠ "-" ++ natText n' := by
  intro h
  have hchars : Nat.toDigits 10 n = '-' :: Nat.toDigits 10 n' := by simpa [natText] using congrArg String.toList h
  have hminus := isDigit_of_mem_toDigits (n := n) (c := '-') (by rw [hchars]; exact List.mem_cons_self)
  cases hminus

theorem intText_inj {n n' : Int} (h : intText n = intText n') : n = n' := by
  unfold intText at h
  split at h <;> split at h
  · have := natText_inj (String.append_right_inj "-" |>.mp h)
    omega
  · exact absurd h.symm (natText_ne_minus _ _)
  · exact absurd h (natText_ne_minus _ _)
  · have := natText_inj h
    omega

/-- Zeros in front do not count. -/
theorem digitsValue_zeros_append (n : Nat) (cs : List Char) :
    digitsValue (List.replicate n '0' ++ cs) = digitsValue cs := by
  rw [digitsValue_eq, digitsValue_eq, Nat.ofDigitChars_append, Nat.ofDigitChars_replicate_zero, Nat.mul_zero]

/-- Zeros behind count as powers of ten. -/
theorem digitsValue_append_zeros (cs : List Char) (n : Nat) :
    digitsValue (cs ++ List.replicate n '0') = digitsValue cs * 10 ^ n := by
  rw [digitsValue_eq, digitsValue_eq, Nat.ofDigitChars_append, Nat.ofDigitChars_replicate_zero, Nat.mul_comm]

/-- A run of characters ends where something else begins. -/
theorem span_append {p : Char → Bool} {cs r : List Char} (hcs : ∀ c ∈ cs, p c = true) (hr : ∀ c ∈ r.head?, p c = false) :
    (cs ++ r).takeWhile p = cs ∧ (cs ++ r).dropWhile p = r := by
  rw [List.takeWhile_append_of_pos hcs, List.dropWhile_append_of_pos hcs]
  cases r with
  | nil => simp
  | cons c r =>
    have hc : p c = false := hr c rfl
    rw [List.takeWhile_cons_of_neg (by simp [hc]), List.dropWhile_cons_of_neg (by simp [hc])]
    simp

theorem span_digits {ds r : List Char} (hds : ∀ c ∈ ds, isDigit c = true) (hr : ∀ c ∈ r.head?, isDigit c = false) :
    (ds ++ r).takeWhile isDigit = ds ∧ (ds ++ r).dropWhile isDigit = r := span_append hds hr

/-- Digits without the zeros at their end. -/
def significant (ds : List Char) : List Char := (ds.reverse.dropWhile (· == '0')).reverse

theorem significant_append (ds : List Char) : ∃ n, significant ds ++ List.replicate n '0' = ds := by
  have hzeros : ds.reverse.takeWhile (· == '0') = List.replicate (ds.reverse.takeWhile (· == '0')).length '0' :=
    List.eq_replicate_iff.mpr ⟨rfl, fun c hc => by simpa using List.all_eq_true.mp List.all_takeWhile c hc⟩
  refine ⟨(ds.reverse.takeWhile (· == '0')).length, ?_⟩
  calc significant ds ++ List.replicate (ds.reverse.takeWhile (· == '0')).length '0'
      = (ds.reverse.dropWhile (· == '0')).reverse ++ (ds.reverse.takeWhile (· == '0')).reverse := by
        rw [significant, hzeros, List.reverse_replicate, List.length_replicate]
    _ = (ds.reverse.takeWhile (· == '0') ++ ds.reverse.dropWhile (· == '0')).reverse := by rw [List.reverse_append]
    _ = ds := by rw [List.takeWhile_append_dropWhile, List.reverse_reverse]

theorem isDigit_of_mem_significant {n : Nat} {c : Char} (h : c ∈ significant (Nat.toDigits 10 n)) : isDigit c = true := by
  obtain ⟨z, hz⟩ := significant_append (Nat.toDigits 10 n)
  exact isDigit_of_mem_toDigits (n := n) (by rw [← hz]; exact List.mem_append_left _ h)

theorem digitsValue_significant {n z : Nat}
    (h : significant (Nat.toDigits 10 n) ++ List.replicate z '0' = Nat.toDigits 10 n) :
    n = digitsValue (significant (Nat.toDigits 10 n)) * 10 ^ z := by
  rw [← digitsValue_append_zeros, h, digitsValue_toDigits]

theorem significant_ne_nil {n : Nat} (h : n ≠ 0) : significant (Nat.toDigits 10 n) ≠ [] := by
  obtain ⟨z, hz⟩ := significant_append (Nat.toDigits 10 n)
  intro hnil
  have hn := digitsValue_significant hz
  rw [hnil] at hn
  exact h (hn.trans (Nat.zero_mul _))

/-- Significant digits begin with no zero. -/
theorem exists_significant {n : Nat} (h : n ≠ 0) : ∃ c cs, significant (Nat.toDigits 10 n) = c :: cs ∧ c ≠ '0' := by
  obtain ⟨c, cs, hdigits, hc⟩ := exists_toDigits (Nat.pos_of_ne_zero h)
  obtain ⟨z, hz⟩ := significant_append (Nat.toDigits 10 n)
  obtain ⟨d, ds, hds⟩ := List.exists_cons_of_ne_nil (significant_ne_nil h)
  rw [hds, hdigits, List.cons_append] at hz
  exact ⟨d, ds, hds, by rwa [(List.cons.inj hz).1]⟩

end ArgGuard.Text
