/-
  ArgGuard.Proofs.Identity — numbers given once and kept.

  One counter numbers everything that only has identity. In every table that a process comes
  to (`Grows` from the initial one) a number belongs to one entity and lies below the counter
  (`Sound`), and what was numbered keeps its number (`find?_grows`). So two entities of the
  same number are the same, whenever each was numbered (`eq_of_find?`).
-/

import ArgGuard.Identity

namespace ArgGuard.Identities

/-- What numbering more entities makes of a table. -/
inductive Grows : Identities → Identities → Prop where
  | refl (t : Identities) : Grows t t
  | number {t u : Identities} (h : Grows t u) (e : Entity) : Grows t (u.number e).2

theorem Grows.trans {t u v : Identities} (h : Grows t u) (h' : Grows u v) : Grows t v := by
  induction h' with
  | refl => exact h
  | number _ e ih => exact ih.number e

theorem grows_number (t : Identities) (e : Entity) : Grows t (t.number e).2 := (Grows.refl t).number e

/-- Numbers are below the counter, and each belongs to one entity. -/
structure Sound (t : Identities) : Prop where
  below : ∀ e n, t.find? e = some n → n < t.next
  injective : ∀ e e' n, t.find? e = some n → t.find? e' = some n → e = e'

theorem sound_initial : initial.Sound := ⟨fun _ _ h => (by cases h), fun _ _ _ h => (by cases h)⟩

/-- What a table finds after one entity was numbered: what it found before, or that entity
under the number that came next. -/
theorem find?_number_cases {t : Identities} {e e' : Entity} {n : Nat} (h : (t.number e).2.find? e' = some n) :
    t.find? e' = some n ∨ e' = e ∧ n = t.next ∧ (t.number e).2.next = t.next + 1 := by
  unfold number at h ⊢
  split at h
  · exact .inl h
  · by_cases he : e' = e
    · subst he
      simp [find?] at h
      exact .inr ⟨rfl, h.symm, rfl⟩
    · have : (e' == e) = false := by simpa using he
      simp only [find?, List.lookup_cons, this] at h
      exact .inl h

theorem next_number (t : Identities) (e : Entity) : t.next ≤ (t.number e).2.next := by
  unfold number
  split
  · exact Nat.le_refl _
  · exact Nat.le_succ _

theorem sound_number {t : Identities} (h : t.Sound) (e : Entity) : (t.number e).2.Sound where
  below e' n hn := by
    rcases find?_number_cases hn with hn | ⟨_, rfl, hnext⟩
    · exact Nat.lt_of_lt_of_le (h.below e' n hn) (next_number t e)
    · omega
  injective e' e'' n h' h'' := by
    rcases find?_number_cases h' with g | ⟨rfl, hn, _⟩ <;> rcases find?_number_cases h'' with g' | ⟨rfl, hn', _⟩
    · exact h.injective e' e'' n g g'
    · exact absurd (h.below e' n g) (by omega)
    · exact absurd (h.below e'' n g') (by omega)
    · rfl

theorem sound_grows {t u : Identities} (h : Grows t u) (ht : t.Sound) : u.Sound := by
  induction h with
  | refl => exact ht
  | number _ e ih => exact sound_number ih e

/-- What was numbered keeps its number. -/
theorem find?_grows {t u : Identities} (h : Grows t u) {e : Entity} {n : Nat} (hn : t.find? e = some n) :
    u.find? e = some n := by
  induction h with
  | refl => exact hn
  | number _ e' ih => exact find?_number ih

/-- Entities of one number are one, though they were numbered at different times. -/
theorem eq_of_find? {t u : Identities} (h : Grows t u) (hu : u.Sound) {e e' : Entity} {n : Nat}
    (he : t.find? e = some n) (he' : u.find? e' = some n) : e = e' :=
  hu.injective e e' n (find?_grows h he) he'

end ArgGuard.Identities
