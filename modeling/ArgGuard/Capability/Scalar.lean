/-
  ArgGuard.Capability.Scalar — the stock capabilities.

  Each carries an inline form. A second set with plainer reasons serves small examples; its
  `PositiveInt` converts digit strings, its `Even` has no inline form, `BrokenInline` one
  that cannot be compiled, and the check of `Exploding` stops with an error.
-/

import ArgGuard.Capability.Basic

namespace ArgGuard.Capability

inductive Scalar where
  | str
  | nonEmptyStr
  | num
  | int
  | positiveInt
  | positiveOrZeroInt
  | bool
  | any
  | defined
  deriving DecidableEq, Repr

namespace Scalar

def all : List Scalar :=
  [.str, .nonEmptyStr, .num, .int, .positiveInt, .positiveOrZeroInt, .bool, .any, .defined]

def name : Scalar → String
  | .str => "Str"
  | .nonEmptyStr => "NonEmptyStr"
  | .num => "Num"
  | .int => "Int"
  | .positiveInt => "PositiveInt"
  | .positiveOrZeroInt => "PositiveOrZeroInt"
  | .bool => "Bool"
  | .any => "Any"
  | .defined => "Defined"

def ofNumber (p : Number → Bool) : Value → Bool
  | .number x => p x
  | _ => false

def accepts : Scalar → Value → Bool
  | .str, v => match v with | .text _ => true | _ => false
  | .nonEmptyStr, v => match v with | .text s => 0 < Text.unitLength s | _ => false
  | .num, v => ofNumber (fun x => x.isFinite) v
  | .int, v => ofNumber (fun x => x.isInteger) v
  | .positiveInt, v => ofNumber (fun x => x.isInteger && Number.zero.lt x) v
  | .positiveOrZeroInt, v => ofNumber (fun x => x.isInteger && Number.zero.le x) v
  | .bool, v => match v with | .bool _ => true | _ => false
  | .any, _ => true
  | .defined, v => !v.isAbsent

/-- What a scalar expects, as its reasons say it. -/
def expectation : Scalar → String
  | .str => "a string"
  | .nonEmptyStr => "a non-empty string"
  | .num => "a finite number"
  | .int => "an integer"
  | .positiveInt => "a positive integer"
  | .positiveOrZeroInt => "an integer >= 0"
  | .bool => "a boolean"
  | .any => "anything"
  | .defined => "a value"

def fragment : Scalar → Fragment
  | .str => .hasType "string"
  | .nonEmptyStr => .group (.both (.hasType "string") .nonEmpty)
  | .num => .isFinite
  | .int => .isInteger
  | .positiveInt => .group (.both .isInteger .aboveZero)
  | .positiveOrZeroInt => .group (.both .isInteger .atLeastZero)
  | .bool => .hasType "boolean"
  | .any => .constant true
  | .defined => .group (.both .notNull .notUndefined)

def capability {σ : Type} (s : Scalar) (id : Nat) : Capability σ :=
  ofTest id s.name s.accepts (fun v => "expected " ++ s.expectation ++ ", got " ++ v.received)
    (some s.fragment) none

end Scalar

/-! ## The plainer set -/

inductive Sample where
  | str
  | nonEmptyStr
  | positiveInt
  | any
  | even
  | brokenInline
  | exploding
  deriving DecidableEq, Repr

namespace Sample

def name : Sample → String
  | .str => "Str"
  | .nonEmptyStr => "NonEmptyStr"
  | .positiveInt => "PositiveInt"
  | .any => "Any"
  | .even => "Even"
  | .brokenInline => "BrokenInline"
  | .exploding => "Exploding"

/-- A string of digits becomes the number it denotes. -/
def ofDigits : Value → Value
  | .text s => if !s.isEmpty && s.toList.all Text.isDigit then .number (.ofText s) else .text s
  | v => v

def capability {σ : Type} (s : Sample) (id : Nat) : Capability σ :=
  match s with
  | .str =>
    ofTest id s.name Scalar.str.accepts (fun _ => "expected a string") (some Scalar.str.fragment) none
  | .nonEmptyStr =>
    ofTest id s.name Scalar.nonEmptyStr.accepts (fun _ => "expected a non-empty string")
      (some Scalar.nonEmptyStr.fragment) none
  | .positiveInt =>
    ofTest id s.name Scalar.positiveInt.accepts (fun _ => "expected a positive integer")
      (some Scalar.positiveInt.fragment) (some ofDigits)
  | .any => ofTest id s.name (fun _ => true) (fun _ => "") (some (.constant true)) none
  | .even =>
    ofTest id s.name
      (Scalar.ofNumber fun x => x.isInteger && (x.rem (.ofNat 2)).isZero)
      (fun _ => "expected an even integer") none none
  | .brokenInline =>
    ofTest id s.name (fun _ => true) (fun _ => "") (some (.malformed fun ref => ref ++ " ===")) none
  | .exploding =>
    { id, name := s.name, check := fun _ => Call.fail (.foreign .error (some "boom")),
      inline? := none, coerce? := none }

end Sample

end ArgGuard.Capability
