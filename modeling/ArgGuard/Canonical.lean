/-
  ArgGuard.Canonical — one text per value.

  The canonical text of a value is JSON without blanks: the keys of objects sorted by units,
  the two zeros the same, a member that is undefined written as null. Values that JSON does
  not know are taken by their entries; NaN, the infinities and undefined have no text.
-/

import ArgGuard.Number.Shortest
import ArgGuard.Text.Quoted
import ArgGuard.Value.Basic
import ArgGuard.Failure.Thrown

namespace ArgGuard.Canonical

/-- A number as JSON writes it. -/
def number (x : Number) : Except Thrown String :=
  if x.isFinite then .ok x.text
  else .error (.foreign .type (some ("cannot canonicalize non-finite number " ++ x.text)))

/-- Members written in order; the first whose content has no text stops it. -/
def memberTexts : List (String × Except Thrown String) → Except Thrown (List String)
  | [] => .ok []
  | (k, t) :: r => do
    let t ← t
    .ok ((Text.Quoted.quote k ++ ":" ++ t) :: (← memberTexts r))

/-- An object with its keys sorted. -/
def settle (es : List (String × Except Thrown String)) : Except Thrown String := do
  let ts ← memberTexts (es.mergeSort fun a b => Text.keyLe a.1 b.1)
  .ok ("\x7b" ++ String.intercalate "," ts ++ "\x7d")

mutual

/-- The canonical text of a value. -/
def text : Value → Except Thrown String
  | .undefined => .error .misuse
  | .null => .ok "null"
  | .bool b => .ok (if b then "true" else "false")
  | .number x => number x
  | .text s => .ok (Text.Quoted.quote s)
  | .bigint _ => .ok "\x7b\x7d"
  | .symbol _ => .ok "\x7b\x7d"
  | .function _ own => settle (members own)
  | .list items => do
    let ts ← itemTexts items
    .ok ("[" ++ String.intercalate "," ts ++ "]")
  | .object _ _ own _ _ => settle (members own)

/-- The texts of the items of a list; a hole is written as nothing. -/
def itemTexts : List (Option Value) → Except Thrown (List String)
  | [] => .ok []
  | none :: r => do .ok ("" :: (← itemTexts r))
  | some v :: r => do
    let t ← text v
    .ok (t :: (← itemTexts r))

/-- The texts of members; one that is undefined is written as null. -/
def members : List (String × Value) → List (String × Except Thrown String)
  | [] => []
  | (k, v) :: r => (k, if v.isUndefined then .ok "null" else text v) :: members r

end

end ArgGuard.Canonical
