/-
  ArgGuard.Schema.Format — texts of a named format.

  An email address has dotted words, an at sign and at least two dotted labels. A date is a
  year, month and day of the calendar.
-/

import ArgGuard.Schema.Basic

namespace ArgGuard

namespace TextFormat

def name : TextFormat → String
  | .email => "email"
  | .date => "date"

def isAlnum (c : Char) : Bool :=
  ('a' ≤ c && c ≤ 'z') || ('A' ≤ c && c ≤ 'Z') || Text.isDigit c

def isLocalChar (c : Char) : Bool := isAlnum c || "!#$%&'*+/=?^_\x60\x7b|\x7d~-".toList.contains c

/-- Splits at every occurrence of a character. -/
def split (sep : Char) : List Char → List (List Char)
  | [] => [[]]
  | c :: cs =>
    if c = sep then [] :: split sep cs
    else
      match split sep cs with
      | [] => [[c]]
      | p :: ps => (c :: p) :: ps

/-- A label starts and ends with a letter or digit and has hyphens in between at most. -/
def isLabel (cs : List Char) : Bool :=
  match cs.head?, cs.getLast? with
  | some a, some b => isAlnum a && isAlnum b && cs.all fun c => isAlnum c || c == '-'
  | _, _ => false

/-- Dotted words, an at sign, and at least two dotted labels. -/
def isEmail (cs : List Char) : Bool :=
  match split '@' cs with
  | [user, domain] =>
    (split '.' user).all (fun w => !w.isEmpty && w.all isLocalChar)
      && 2 ≤ (split '.' domain).length && (split '.' domain).all isLabel
  | _ => false

def isLeap (y : Nat) : Bool := y % 4 == 0 && (y % 100 != 0 || y % 400 == 0)

def daysIn (y m : Nat) : Nat :=
  if m = 2 then (if isLeap y then 29 else 28)
  else if m = 4 ∨ m = 6 ∨ m = 9 ∨ m = 11 then 30 else 31

/-- Year, month and day of a date that exists. -/
def isDate (cs : List Char) : Bool :=
  match split '-' cs with
  | [y, m, d] =>
    let digits := fun (n : Nat) (ds : List Char) => ds.length == n && ds.all Text.isDigit
    let month := Text.digitsValue m
    let day := Text.digitsValue d
    digits 4 y && digits 2 m && digits 2 d && 1 ≤ month && month ≤ 12 && 1 ≤ day
      && day ≤ daysIn (Text.digitsValue y) month
  | _ => false

def admits : TextFormat → String → Bool
  | .email, s => isEmail s.toList
  | .date, s => isDate s.toList

end TextFormat

end ArgGuard
