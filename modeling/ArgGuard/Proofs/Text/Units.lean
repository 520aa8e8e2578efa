/-
  ArgGuard.Proofs.Text.Units — the order of keys is linear.

  The units of a character tell it and where it ends (`charUnits_append_inj`): one that
  takes a single unit is none of the surrogates that stand for the others. So the units of a
  text tell the text (`units_inj`), and texts of which neither is greater are one (`keyLe_antisymm`).
-/

import ArgGuard.Text.Units

namespace ArgGuard.Text

/-- The code of a character is none of the surrogates. -/
theorem toNat_ranges (c : Char) : c.toNat < 0xD800 ∨ 0xE000 ≤ c.toNat ∧ c.toNat < 0x110000 := by
  have hvalid := c.valid
  simp only [UInt32.isValidChar, Nat.isValidChar] at hvalid
  have hcode : c.toNat = c.val.toNat := rfl
  omega

/-- A single unit is below the surrogates or above them, and a pair begins with one. -/
theorem charUnits_cases (c : Char) :
    (charUnits c = [c.toNat] ∧ (c.toNat < 0xD800 ∨ 0xE000 ≤ c.toNat)) ∨
    ∃ high low, charUnits c = [0xD800 + high, 0xDC00 + low] ∧ high < 0x400 ∧ low < 0x400 ∧
      c.toNat = 0x10000 + 0x400 * high + low := by
  have hranges := toNat_ranges c
  by_cases h : c.toNat < 0x10000
  · refine .inl ⟨if_pos h, ?_⟩
    omega
  · refine .inr ⟨(c.toNat - 0x10000) / 0x400, (c.toNat - 0x10000) % 0x400, if_neg h, ?_⟩
    omega

theorem charUnits_append_inj {c d : Char} {r r' : List Nat} (h : charUnits c ++ r = charUnits d ++ r') :
    c = d ∧ r = r' := by
  rcases charUnits_cases c with ⟨hc, hcode⟩ | ⟨high, low, hc, hhigh, hlow, hcode⟩ <;>
    rcases charUnits_cases d with ⟨hd, hcode'⟩ | ⟨high', low', hd, hhigh', hlow', hcode'⟩ <;>
    rw [hc, hd] at h <;>
    simp only [List.cons_append, List.nil_append, List.cons.injEq] at h
  · exact ⟨Char.toNat_inj.mp h.1, h.2⟩
  · omega
  · omega
  · obtain ⟨h₁, h₂, h₃⟩ := h
    refine ⟨Char.toNat_inj.mp ?_, h₃⟩
    omega

theorem charUnits_ne_nil (c : Char) : charUnits c ≠ [] := by
  rcases charUnits_cases c with ⟨hc, _⟩ | ⟨_, _, hc, _⟩ <;> rw [hc] <;> exact List.cons_ne_nil _ _

theorem flatMap_charUnits_inj {cs ds : List Char} (h : cs.flatMap charUnits = ds.flatMap charUnits) : cs = ds := by
  induction cs generalizing ds with
  | nil =>
    cases ds with
    | nil => rfl
    | cons d ds =>
      rw [List.flatMap_nil, List.flatMap_cons] at h
      exact absurd (List.append_eq_nil_iff.mp h.symm).1 (charUnits_ne_nil d)
  | cons c cs ih =>
    cases ds with
    | nil =>
      rw [List.flatMap_nil, List.flatMap_cons] at h
      exact absurd (List.append_eq_nil_iff.mp h).1 (charUnits_ne_nil c)
    | cons d ds =>
      rw [List.flatMap_cons, List.flatMap_cons] at h
      obtain ⟨rfl, hrest⟩ := charUnits_append_inj h
      rw [ih hrest]

theorem units_inj {s t : String} (h : units s = units t) : s = t := String.toList_injective (flatMap_charUnits_inj h)

theorem unitsLe_antisymm {as bs : List Nat} (hab : unitsLe as bs = true) (hba : unitsLe bs as = true) : as = bs := by
  induction as generalizing bs with
  | nil =>
    cases bs with
    | nil => rfl
    | cons b bs => cases hba
  | cons a as ih =>
    cases bs with
    | nil => cases hab
    | cons b bs =>
      simp only [unitsLe, Bool.or_eq_true, decide_eq_true_eq, Bool.and_eq_true, beq_iff_eq] at hab hba
      obtain rfl : a = b := by omega
      rw [ih (hab.resolve_left (by omega)).2 (hba.resolve_left (by omega)).2]

theorem keyLe_antisymm {s t : String} (h : keyLe s t = true) (h' : keyLe t s = true) : s = t :=
  units_inj (unitsLe_antisymm h h')

theorem keyLe_trans {s t u : String} (h : keyLe s t = true) (h' : keyLe t u = true) : keyLe s u = true :=
  unitsLe_trans h h'

theorem keyLe_total (s t : String) : (keyLe s t || keyLe t s) = true := by
  rw [Bool.or_eq_true]
  exact unitsLe_total _ _

end ArgGuard.Text
