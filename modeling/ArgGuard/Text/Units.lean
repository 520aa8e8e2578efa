/-
  ArgGuard.Text.Units — texts measured and ordered in 16-bit units.

  A character up to U+FFFF is one unit, any other a pair of surrogate units. Lengths,
  the order of object keys and the replacement of characters in a routine's name count
  these units, not characters; the two differ from U+E000 on (`unitsLt_astral`).
-/

namespace ArgGuard.Text

/-- The one or two units that stand for a character. -/
def charUnits (c : Char) : List Nat :=
  let n := c.toNat
  if n < 0x10000 then [n] else [0xD800 + (n - 0x10000) / 0x400, 0xDC00 + (n - 0x10000) % 0x400]

def units (s : String) : List Nat := s.toList.flatMap charUnits

/-- The number of units of a text. -/
def unitLength (s : String) : Nat := (units s).length

/-- Dictionary order on unit sequences: not greater. -/
def unitsLe : List Nat → List Nat → Bool
  | [], _ => true
  | _ :: _, [] => false
  | a :: as, b :: bs => a < b || (a == b && unitsLe as bs)

/-- The order in which sorted keys stand. -/
def keyLe (a b : String) : Bool := unitsLe (units a) (units b)

/-- A character beyond U+FFFF sorts before U+E000, though its code point is greater. -/
theorem unitsLt_astral : keyLe "😀" "\uE000" = true ∧ keyLe "\uE000" "😀" = false := by decide +kernel

theorem unitsLe_total (as bs : List Nat) : unitsLe as bs = true ∨ unitsLe bs as = true := by
  induction as generalizing bs with
  | nil => simp [unitsLe]
  | cons a as ih =>
    cases bs with
    | nil => simp [unitsLe]
    | cons b bs =>
      simp only [unitsLe, Bool.or_eq_true, decide_eq_true_eq, Bool.and_eq_true, beq_iff_eq]
      rcases Nat.lt_trichotomy a b with h | rfl | h
      · exact .inl (.inl h)
      · exact (ih bs).imp (fun h => .inr ⟨rfl, h⟩) (fun h => .inr ⟨rfl, h⟩)
      · exact .inr (.inl h)

theorem unitsLe_trans {as bs cs : List Nat} (hab : unitsLe as bs = true)
    (hbc : unitsLe bs cs = true) : unitsLe as cs = true := by
  induction as generalizing bs cs with
  | nil => simp [unitsLe]
  | cons a as ih =>
    cases bs with
    | nil => simp [unitsLe] at hab
    | cons b bs =>
      cases cs with
      | nil => simp [unitsLe] at hbc
      | cons c cs =>
        simp only [unitsLe, Bool.or_eq_true, decide_eq_true_eq, Bool.and_eq_true, beq_iff_eq] at *
        rcases hab with hab | ⟨rfl, hab⟩
        · rcases hbc with hbc | ⟨rfl, hbc⟩
          · exact .inl (by omega)
          · exact .inl hab
        · rcases hbc with hbc | ⟨rfl, hbc⟩
          · exact .inl hbc
          · exact .inr ⟨rfl, ih hab hbc⟩

/-- Pads a text on the right with blanks up to a number of units. -/
def padRight (s : String) (width : Nat) : String :=
  s ++ String.ofList (List.replicate (width - unitLength s) ' ')

end ArgGuard.Text
