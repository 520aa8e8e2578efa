/-
  ArgGuard.Number.Decimal — numbers read from text.

  A numeral is an optional sign, digits, an optional point with digits and an optional
  exponent; it denotes the binary64 number nearest to it. `ofText` reads a whole text, with
  blanks around it, `Infinity`, and the radixes behind `0x`, `0o` and `0b`; `leadingInt?`
  reads the integer a text begins with.
-/

import ArgGuard.Number.Basic
import ArgGuard.Text.Blank
import ArgGuard.Text.Index

namespace ArgGuard

/-- `digits * 10 ^ exponent`. -/
structure Decimal where
  digits : Nat
  exponent : Int
  deriving DecidableEq, Repr

namespace Number

/-- The number nearest to `± digits * 10 ^ exponent`. Far outside the range of binary64 the
power is not computed: beyond 10 ^ 310 the number is infinite, below 10 ^ -400 it is zero. -/
def ofDecimal (negative : Bool) (d : Decimal) : Number :=
  if d.digits = 0 then .finite negative .zero
  else if 310 < d.exponent then .infinite negative
  else if d.exponent + (d.digits.log2 : Int) < -400 then .finite negative .zero
  else if 0 ≤ d.exponent then ofRatio negative (d.digits * Nat.pow 10 d.exponent.toNat) 1
  else ofRatio negative d.digits (Nat.pow 10 (-d.exponent).toNat)

end Number

/-! ## Numerals -/

namespace Numeral

open Text

/-- Splits a sign off. -/
def sign : List Char → Bool × List Char
  | '-' :: r => (true, r)
  | '+' :: r => (false, r)
  | r => (false, r)

/-- Reads an exponent mark with its digits; a text without one is left as it is, and `none`
is an exponent mark with no digits behind it. -/
def exponent? : List Char → Option (Int × List Char)
  | c :: r =>
    if c = 'e' ∨ c = 'E' then
      let (negative, r) := sign r
      let ds := r.takeWhile isDigit
      if ds.isEmpty then none
      else
        let n : Int := digitsValue ds
        some (if negative then -n else n, r.dropWhile isDigit)
    else some (0, c :: r)
  | [] => some (0, [])

/-- Reads an unsigned decimal numeral that takes up the whole text. -/
def unsigned? (cs : List Char) : Option Decimal :=
  let whole := cs.takeWhile isDigit
  let rest := cs.dropWhile isDigit
  let (fraction, rest) :=
    match rest with
    | '.' :: r => (r.takeWhile isDigit, r.dropWhile isDigit)
    | r => ([], r)
  if whole.isEmpty && fraction.isEmpty then none
  else
    match exponent? rest with
    | some (e, []) => some ⟨digitsValue (whole ++ fraction), e - fraction.length⟩
    | _ => none

def radixDigit? (radix : Nat) (c : Char) : Option Nat :=
  let v :=
    if isDigit c then some (c.toNat - '0'.toNat)
    else if 'a' ≤ c ∧ c ≤ 'f' then some (c.toNat - 'a'.toNat + 10)
    else if 'A' ≤ c ∧ c ≤ 'F' then some (c.toNat - 'A'.toNat + 10)
    else none
  v.filter (· < radix)

/-- Reads digits of a radix that take up the whole text. -/
def radix? (radix : Nat) (cs : List Char) : Option Nat :=
  if cs.isEmpty then none
  else cs.foldlM (fun n c => (radixDigit? radix c).map (radix * n + ·)) 0

end Numeral

namespace Number

open Text Numeral

/-- The number a whole text denotes, NaN when it denotes none. Blanks around it do not
count, and nothing but blanks denotes zero. -/
def ofText (s : String) : Number :=
  let cs := (trim s).toList
  let ofRadix (radix : Nat) (r : List Char) : Number := ((radix? radix r).map ofNat).getD .nan
  match cs with
  | [] => zero
  | '0' :: 'x' :: r => ofRadix 16 r
  | '0' :: 'X' :: r => ofRadix 16 r
  | '0' :: 'o' :: r => ofRadix 8 r
  | '0' :: 'O' :: r => ofRadix 8 r
  | '0' :: 'b' :: r => ofRadix 2 r
  | '0' :: 'B' :: r => ofRadix 2 r
  | cs =>
    let (negative, r) := sign cs
    if r = "Infinity".toList then .infinite negative
    else ((unsigned? r).map (ofDecimal negative)).getD .nan

/-- The integer that a text begins with, leading blanks aside. -/
def leadingInt? (s : String) : Option Number :=
  let (negative, r) := sign (trimLeft s.toList)
  let ds := r.takeWhile isDigit
  if ds.isEmpty then none else some (ofDecimal negative ⟨digitsValue ds, 0⟩)

example : ofText "0.1" = ofRatio false 1 10 ∧ ofText " -1.5e3 " = ofInt (-1500) := by decide +kernel
example : ofText "2e308" = .infinite false ∧ ofText "1e" = .nan ∧ ofText "." = .nan := by
  decide +kernel

end Number

end ArgGuard
