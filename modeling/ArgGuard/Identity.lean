/-
  ArgGuard.Identity — numbers for things that only have identity.

  Capabilities, factories and symbols have no content to compare, so each is numbered on
  first sight, all from one counter, and keeps its number.
-/

import ArgGuard.Value.Entries

namespace ArgGuard

/-- A thing with identity. -/
inductive Entity where
  | object (id : Nat)
  | function (id : Nat)
  | symbol (id : String)
  deriving DecidableEq, Repr

/-- The numbers given so far, the latest first. -/
structure Identities where
  known : List (Entity × Nat)
  next : Nat
  deriving DecidableEq, Repr

namespace Identities

def initial : Identities := ⟨[], 1⟩

def find? (t : Identities) (e : Entity) : Option Nat := t.known.lookup e

/-- The number of an entity; a new one takes the next number. -/
def number (t : Identities) (e : Entity) : Nat × Identities :=
  match t.find? e with
  | some n => (n, t)
  | none => (t.next, ⟨(e, t.next) :: t.known, t.next + 1⟩)

/-- A numbered entity keeps its number whatever else is numbered. -/
theorem find?_number {t : Identities} {e e' : Entity} {n : Nat} (h : t.find? e = some n) :
    (t.number e').2.find? e = some n := by
  unfold number
  split
  · exact h
  · next h' =>
    by_cases he : e = e'
    · subst he
      rw [h] at h'
      cases h'
    · have : (e == e') = false := by simpa using he
      simpa [find?, List.lookup_cons, this] using h

theorem find?_number_self (t : Identities) (e : Entity) :
    (t.number e).2.find? e = some (t.number e).1 := by
  unfold number
  split
  · next h => exact h
  · simp [find?]

end Identities

end ArgGuard
