/-
  ArgGuard.Text.Index — texts that are decimal indices.

  An index is written without sign or leading zeros. Object keys that are indices up to
  4294967294 come first in enumeration, in ascending order; a record of parameters may not
  use an index of any size as a name.
-/

namespace ArgGuard.Text

def isDigit (c : Char) : Bool := '0' ≤ c && c ≤ '9'

/-- The number a run of digits denotes. -/
def digitsValue (cs : List Char) : Nat := cs.foldl (fun n c => 10 * n + (c.toNat - '0'.toNat)) 0

/-- Whether a text is `0` or a run of digits that starts with none. -/
def isIndexText (s : String) : Bool :=
  match s.toList with
  | [] => false
  | ['0'] => true
  | c :: cs => isDigit c && c != '0' && cs.all isDigit

/-- The position that an enumerable index key stands for. -/
def arrayIndex? (s : String) : Option Nat :=
  if isIndexText s then
    let n := digitsValue s.toList
    if n ≤ 4294967294 then some n else none
  else none

/-- A natural number in decimal. -/
def natText (n : Nat) : String := String.ofList (Nat.toDigits 10 n)

/-- An integer in decimal. -/
def intText (n : Int) : String := if n < 0 then "-" ++ natText n.natAbs else natText n.natAbs

end ArgGuard.Text
