/-
  ArgGuard.Number.Basic — binary64 numbers as exact values.

  A finite number is a sign and a whole multiple of 2^-1074: a mantissa below 2^53 shifted
  by at most 2045, the mantissa at least 2^52 unless the shift is 0. Each operation computes
  its exact result and rounds it once, to the nearest, a tie to the even mantissa. All of it
  is natural number arithmetic, so that closed instances evaluate in proofs.
-/

namespace ArgGuard

/-- The size of a finite number, `mantissa * 2 ^ exponent` units of 2^-1074. -/
structure Magnitude where
  mantissa : Nat
  exponent : Nat
  /-- Below 2^53, and at least 2^52 unless the exponent is 0. -/
  canonical : mantissa < 0x20000000000000 ∧ exponent ≤ 2045 ∧
    (exponent = 0 ∨ 0x10000000000000 ≤ mantissa)
  deriving DecidableEq, Repr

inductive Number where
  | nan
  | infinite (negative : Bool)
  | finite (negative : Bool) (size : Magnitude)
  deriving DecidableEq, Repr

/-- The quotient rounded to the nearest, a tie to the even one. -/
def roundDivEven (n d : Nat) : Nat :=
  let q := n / d
  let r := n % d
  if 2 * r < d ∨ (2 * r = d ∧ q % 2 = 0) then q else q + 1

/-- The quotient rounded to the nearest, a tie upwards. -/
def roundDivUp (n d : Nat) : Nat := (2 * n + d) / (2 * d)

namespace Magnitude

/-- How many units make 1. -/
def one : Nat := 1 <<< 1074

def units (m : Magnitude) : Nat := m.mantissa <<< m.exponent

def zero : Magnitude := ⟨0, 0, by decide⟩

instance : Inhabited Magnitude := ⟨zero⟩

def isZero (m : Magnitude) : Bool := m.mantissa == 0

/-- The magnitude nearest to `n / d` units; none from halfway past the largest one. -/
def round (n d : Nat) : Option Magnitude :=
  let e := (n / d).log2 - 52
  let m := roundDivEven n (d <<< e)
  let (m, e) := if m = 0x20000000000000 then (0x10000000000000, e + 1) else (m, e)
  if h : m < 0x20000000000000 ∧ e ≤ 2045 ∧ (e = 0 ∨ 0x10000000000000 ≤ m) then some ⟨m, e, h⟩
  else none

end Magnitude

namespace Number

instance : Inhabited Number := ⟨.nan⟩

def zero : Number := .finite false .zero

/-- The number nearest to `± n / d` units. -/
def ofUnits (negative : Bool) (n d : Nat) : Number :=
  match Magnitude.round n d with
  | some m => .finite negative m
  | none => .infinite negative

/-- The number nearest to `± n / d`. -/
def ofRatio (negative : Bool) (n d : Nat) : Number := ofUnits negative (n * Magnitude.one) d

def ofNat (n : Nat) : Number := ofRatio false n 1

def ofInt (n : Int) : Number := ofRatio (n < 0) n.natAbs 1

def isNaN : Number → Bool
  | .nan => true
  | _ => false

def isFinite : Number → Bool
  | .finite .. => true
  | _ => false

/-- A zero of either sign. -/
def isZero : Number → Bool
  | .finite _ m => m.isZero
  | _ => false

/-- Zero with a minus sign. -/
def isNegativeZero : Number → Bool
  | .finite true m => m.isZero
  | _ => false

def isNegative : Number → Bool
  | .nan => false
  | .infinite s => s
  | .finite s _ => s

def neg : Number → Number
  | .nan => .nan
  | .infinite s => .infinite !s
  | .finite s m => .finite (!s) m

/-! ## Order

  Nothing holds of a NaN, and the two zeros are equal. -/

/-- The signed units of a finite number. -/
def signedUnits (negative : Bool) (m : Magnitude) : Int :=
  if negative then -(m.units : Int) else m.units

def eq : Number → Number → Bool
  | .infinite s, .infinite t => s == t
  | .finite s m, .finite t n => signedUnits s m == signedUnits t n
  | _, _ => false

def lt : Number → Number → Bool
  | .infinite s, .infinite t => s && !t
  | .infinite s, .finite .. => s
  | .finite .., .infinite t => !t
  | .finite s m, .finite t n => signedUnits s m < signedUnits t n
  | _, _ => false

def le (x y : Number) : Bool := x.lt y || x.eq y

/-- Equality under which a NaN is itself. -/
def sameValueZero (x y : Number) : Bool := x.eq y || (x.isNaN && y.isNaN)

/-! ## Arithmetic -/

def add : Number → Number → Number
  | .infinite s, .infinite t => if s = t then .infinite s else .nan
  | .infinite s, .finite .. => .infinite s
  | .finite .., .infinite t => .infinite t
  | .finite s m, .finite t n =>
      let u := signedUnits s m + signedUnits t n
      if u = 0 then .finite (s && t) .zero else ofUnits (u < 0) u.natAbs 1
  | _, _ => .nan

def sub (x y : Number) : Number := x.add y.neg

def mul : Number → Number → Number
  | .nan, _ => .nan
  | _, .nan => .nan
  | .infinite s, .infinite t => .infinite (s != t)
  | .infinite s, .finite t n => if n.isZero then .nan else .infinite (s != t)
  | .finite s m, .infinite t => if m.isZero then .nan else .infinite (s != t)
  | .finite s m, .finite t n => ofUnits (s != t) (m.units * n.units) Magnitude.one

def div : Number → Number → Number
  | .nan, _ => .nan
  | _, .nan => .nan
  | .infinite _, .infinite _ => .nan
  | .infinite s, .finite t _ => .infinite (s != t)
  | .finite s _, .infinite t => .finite (s != t) .zero
  | .finite s m, .finite t n =>
      if n.isZero then (if m.isZero then .nan else .infinite (s != t))
      else ofUnits (s != t) (m.units * Magnitude.one) n.units

/-- The remainder of division toward zero, with the sign of the dividend. -/
def rem : Number → Number → Number
  | .finite s m, .finite _ n => if n.isZero then .nan else ofUnits s (m.units % n.units) 1
  | .finite s m, .infinite _ => .finite s m
  | _, _ => .nan

/-- The smaller of two numbers, NaN when either is. -/
def min (x y : Number) : Number :=
  if x.isNaN || y.isNaN then .nan
  else if x.lt y then x
  else if y.lt x then y
  else if x.isNegative then x else y

/-! ## Whole numbers -/

def isInteger : Number → Bool
  | .finite _ m => m.units % Magnitude.one == 0
  | _ => false

/-- The whole part of a finite number. -/
def truncate? : Number → Option Int
  | .finite s m =>
      let q : Int := (m.units / Magnitude.one : Nat)
      some (if s then -q else q)
  | _ => none

/-- The least integer that is not below a finite number. -/
def ceil? : Number → Option Int
  | .finite s m => some (-((-signedUnits s m) / (Magnitude.one : Int)))
  | _ => none

/-- The integer nearest to a finite number, a tie upwards. -/
def nearest? : Number → Option Int
  | .finite s m => some ((2 * signedUnits s m + Magnitude.one) / (2 * Magnitude.one : Int))
  | _ => none

/-- An integer that plain decimal notation and binary64 both hold exactly. -/
def safeInt? (x : Number) : Option Int :=
  if x.isInteger && !x.isNegativeZero then
    match x.truncate? with
    | some n => if n.natAbs ≤ 9007199254740991 then some n else none
    | none => none
  else none

example : (ofNat 3).isInteger = true ∧ (ofRatio false 1 3).isInteger = false := by decide +kernel
example : (ofInt (-7)).rem (ofNat 2) = ofInt (-1) := by decide +kernel
example : ofNat 9007199254740993 = ofNat 9007199254740992 := by decide +kernel

end Number

end ArgGuard
