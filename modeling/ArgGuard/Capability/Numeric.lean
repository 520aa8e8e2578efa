/-
  ArgGuard.Capability.Numeric — numbers given as text.

  A text is converted when, blanks around it aside, it is an optional sign, digits and
  optionally a point and digits, and the number it denotes prints back as the same text (a
  leading plus aside). So `1.0`, `1e3` and `007` stay texts.
-/

import ArgGuard.Capability.Basic

namespace ArgGuard.Capability.Numeric

open Text

/-- Whether a text is an optional sign, digits, and optionally a point and digits. -/
def isNumeral (cs : List Char) : Bool :=
  let (_, r) := Numeral.sign cs
  let whole := r.takeWhile isDigit
  !whole.isEmpty &&
    match r.dropWhile isDigit with
    | [] => true
    | '.' :: f => !f.isEmpty && f.all isDigit
    | _ => false

/-- The text without a leading plus. -/
def withoutPlus : List Char → List Char
  | '+' :: r => r
  | r => r

/-- The number that a text names exactly. -/
def exactly? (s : String) : Option Number :=
  let t := trim s
  if isNumeral t.toList then
    let x := Number.ofText t
    if x.text.toList = withoutPlus t.toList then some x else none
  else none

/-- A text that names a number exactly becomes that number. -/
def convert : Value → Value
  | .text s =>
    match exactly? s with
    | some x => .number x
    | none => .text s
  | v => v

/-- The capability with numbers as text admitted. The inner coercion, if any, runs on the
converted value. -/
def wrap {σ : Type} (id : Nat) (inner : Capability σ) : Capability σ where
  id
  name := inner.name
  check := inner.check
  inline? := inner.inline?
  coerce? := some fun v => inner.coerced (convert v)

end ArgGuard.Capability.Numeric
