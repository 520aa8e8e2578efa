/-
  ArgGuard.Number.Shortest — the decimal text of a number.

  A finite number is written with the fewest significant digits that read back as the same
  number, and among those with the decimal nearest to it (`shortest`). Positional notation
  serves values from 10^-6 up to, not including, 10^21, and a power of ten the rest.
-/

import ArgGuard.Number.Decimal

namespace ArgGuard

namespace Magnitude

/-- Where the decimal point stands: the `p` with `10^(p-1) ≤ m < 10^p`, for `m` not zero. -/
def pointPosition (m : Magnitude) : Int :=
  ((Nat.toDigits 10 (m.units * Nat.pow 10 324 / one)).length : Int) - 324

/-- Whether a decimal reads back as the magnitude. -/
def readsBack (m : Magnitude) (d : Decimal) : Bool :=
  Number.ofDecimal false d == .finite false m

/-- The two decimals of a given last place around the magnitude, the lower one first, and
whether the lower one is nearer (a tie counts as nearer when it is even). -/
def neighbours (m : Magnitude) (place : Int) : Decimal × Decimal × Bool :=
  let (n, d) := if 0 ≤ place then (m.units, one * Nat.pow 10 place.toNat)
    else (m.units * Nat.pow 10 (-place).toNat, one)
  let q := n / d
  let r := n % d
  (⟨q, place⟩, ⟨q + 1, place⟩, 2 * r < d || (2 * r == d && q % 2 == 0))

/-- Of the decimals around the magnitude the nearer one that reads back. -/
def readingBack? (m : Magnitude) : Decimal × Decimal × Bool → Option Decimal
  | (low, high, lowNearer) =>
    let (near, far) := if lowNearer then (low, high) else (high, low)
    if m.readsBack near then some near else if m.readsBack far then some far else none

/-- The nearest decimal of `k` significant digits that reads back. -/
def withDigits? (m : Magnitude) (k : Nat) : Option Decimal :=
  m.readingBack? (m.neighbours (m.pointPosition - k))

/-- The nearest of the shortest decimals that read back. Seventeen digits always do. -/
def shortest (m : Magnitude) : Decimal :=
  ((List.range 17).findSome? fun k => m.withDigits? (k + 1)).getD (m.neighbours (m.pointPosition - 17)).1

end Magnitude

/-- How a decimal is laid out: positional when the point falls after position `low` and not
after position `high`, else one digit before the point and a power of ten. -/
structure DecimalLayout where
  low : Int
  high : Int
  exponentMark : String
  plus : String

namespace DecimalLayout

/-- The layout of every number this library writes. -/
def standard : DecimalLayout := ⟨-6, 21, "e", "+"⟩

def zeros (n : Nat) : List Char := List.replicate n '0'

/-- Writes the digits `ds`, taken as `0.ds * 10 ^ point`. -/
def write (l : DecimalLayout) (ds : List Char) (point : Int) : String :=
  let k : Int := ds.length
  if l.low < point ∧ point ≤ l.high then
    if k ≤ point then String.ofList (ds ++ zeros (point - k).toNat)
    else if 0 < point then
      String.ofList (ds.take point.toNat ++ '.' :: ds.drop point.toNat)
    else String.ofList ('0' :: '.' :: (zeros (-point).toNat ++ ds))
  else
    let e := point - 1
    let head := match ds with
      | [d] => [d]
      | d :: r => d :: '.' :: r
      | [] => []
    String.ofList head ++ l.exponentMark ++ (if 0 ≤ e then l.plus else "") ++ Text.intText e

end DecimalLayout

namespace Number

/-- The text of a magnitude other than zero. -/
def magnitudeText (m : Magnitude) : String :=
  let d := m.shortest
  let all := Nat.toDigits 10 d.digits
  let ds := (all.reverse.dropWhile (· == '0')).reverse
  DecimalLayout.standard.write ds (d.exponent + all.length)

/-- The text of a number; zero is written without its sign. -/
def text : Number → String
  | .nan => "NaN"
  | .infinite s => if s then "-Infinity" else "Infinity"
  | .finite s m =>
      if m.isZero then "0" else if s then "-" ++ magnitudeText m else magnitudeText m

/-- The text with a fixed count of decimal places, a tie away from zero. From 10^21 on the
plain text stands instead. -/
def fixed (places : Nat) : Number → String
  | .finite s m =>
      if Nat.pow 10 21 * Magnitude.one ≤ m.units then text (.finite s m)
      else
        let n := roundDivUp (m.units * Nat.pow 10 places) Magnitude.one
        let ds := Nat.toDigits 10 n
        let ds := DecimalLayout.zeros (places + 1 - ds.length) ++ ds
        let body := if places = 0 then ds
          else ds.take (ds.length - places) ++ '.' :: ds.drop (ds.length - places)
        String.ofList (if s && !m.isZero then '-' :: body else body)
  | x => x.text

example : (ofText "0.1").text = "0.1" ∧ (ofText "1e21").text = "1e+21" := by decide +kernel
example : (ofText "5e-324").text = "5e-324" ∧ (ofText "1e23").text = "1e+23" := by decide +kernel
example : (ofText "123456789012345680000").text = "123456789012345680000" := by decide +kernel
example : (ofText "1e-7").text = "1e-7" ∧ (ofText "0.000001").text = "0.000001" := by decide +kernel
example : (ofText "1.7976931348623157e308").text = "1.7976931348623157e+308" := by decide +kernel
example : (ofText "1.005").fixed 2 = "1.00" ∧ (ofText "-0.001").fixed 2 = "-0.00" := by decide +kernel

end Number

end ArgGuard
