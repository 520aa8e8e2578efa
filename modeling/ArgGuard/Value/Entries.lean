/-
  ArgGuard.Value.Entries — named entries in insertion order.

  An entry that is written again keeps its place and takes the new content. Enumeration
  lists the keys that are array indices first, ascending, then all others in insertion
  order (`ordered`).
-/

import ArgGuard.Text.Index

namespace ArgGuard

abbrev Entries (α : Type) := List (String × α)

namespace Entries

variable {α : Type}

def find? (k : String) : Entries α → Option α
  | [] => none
  | (k', a) :: es => if k' = k then some a else find? k es

def has (k : String) (es : Entries α) : Bool := (es.find? k).isSome

/-- Writes an entry, in its old place if there is one, else at the end. -/
def put (k : String) (a : α) : Entries α → Entries α
  | [] => [(k, a)]
  | (k', b) :: es => if k' = k then (k, a) :: es else (k', b) :: put k a es

def erase (k : String) (es : Entries α) : Entries α := es.filter fun e => e.1 != k

def ofList (es : List (String × α)) : Entries α := es.foldl (fun acc e => put e.1 e.2 acc) []

/-- The entries in the order of enumeration. -/
def ordered (es : Entries α) : Entries α :=
  let indexed := es.filterMap fun e => (Text.arrayIndex? e.1).map fun i => (i, e)
  (indexed.mergeSort fun a b => a.1 ≤ b.1).map (·.2)
    ++ es.filter fun e => (Text.arrayIndex? e.1).isNone

def keys (es : Entries α) : List String := es.ordered.map (·.1)

@[simp] theorem find?_nil (k : String) : find? k ([] : Entries α) = none := rfl

theorem find?_put (k k' : String) (a : α) (es : Entries α) :
    find? k' (put k a es) = if k = k' then some a else find? k' es := by
  induction es with
  | nil => simp [put, find?]
  | cons e es ih =>
    obtain ⟨j, b⟩ := e
    by_cases hj : j = k
    · subst hj
      by_cases hk : j = k' <;> simp [put, find?, hk]
    · by_cases hk : j = k'
      · subst hk
        simp [put, find?, hj, Ne.symm hj]
      · simp [put, find?, hj, hk, ih]

/-- A key that is new goes to the end. -/
theorem put_of_find?_eq_none {k : String} {es : Entries α} (h : find? k es = none) (a : α) :
    put k a es = es ++ [(k, a)] := by
  induction es with
  | nil => rfl
  | cons e es ih =>
    obtain ⟨j, b⟩ := e
    by_cases hj : j = k
    · simp [find?, hj] at h
    · simp only [find?, hj, if_false] at h
      simp [put, hj, ih h]

end Entries

end ArgGuard
