/-
  ArgGuard.Capability.Combine — capabilities made of capabilities or values.

  A composite has an inline form only when all its members do. Checks of members run in
  order and stop at the first that decides.
-/

import ArgGuard.Capability.Basic

namespace ArgGuard.Capability

variable {σ : Type}

/-! ## Enumerations -/

namespace Enumeration

/-- An enumerated value as its name and its reasons show it; `none` when it has no text. -/
def literal? : Value → Option String
  | .text s => some (Text.Quoted.quote s)
  | v => v.text?

/-- What the text of an enumerated value denotes where it stands in code. Text that stands
for a bigint denotes a number; a symbol's text names what is not bound; any other object's
text does not compile. -/
def meaning : Value → Meaning
  | .undefined => .value .undefined
  | .null => .value .null
  | .bool b => .value (.bool b)
  | .number x => .value (.number x)
  | .text s => .value (.text s)
  | .bigint n => .value (.number (.ofInt n))
  | .symbol _ => .unbound
  | .function .. => .value .undefined
  | _ => .malformed

def piece : Value → Piece
  | .text s => .literal s
  | v => .code (v.text?.getD "")

/-- One comparison after the other. -/
def comparisons : Value → List Value → Fragment
  | v, [] => .equals (piece v) (meaning v)
  | v, w :: ws => .either (.equals (piece v) (meaning v)) (comparisons w ws)

def fragment : List Value → Fragment
  | [] => .constant false
  | v :: vs => .group (comparisons v vs)

/-- A NaN differs from itself, so a list that holds one has no inline form. -/
def holdsNaN (values : List Value) : Bool :=
  values.any fun v => match v with | .number x => x.isNaN | _ => false

/-- One of a fixed list of values. A value without a text cannot be listed. -/
def capability (id : Nat) (values : List Value) (name? : Option String) :
    Except Thrown (Capability σ) :=
  match values.mapM literal? with
  | none => .error .misuse
  | some texts =>
    let listed := String.intercalate ", " texts
    .ok (ofTest id (name?.getD ("enumOf(" ++ listed ++ ")"))
      (fun v => values.any fun candidate => candidate.sameValueZero v)
      (fun v => "expected one of " ++ listed ++ ", got " ++ v.received)
      (if holdsNaN values then none else some (fragment values)) none)

end Enumeration

/-! ## Lists -/

/-- Checks the items that are there in order; the first rejected one gives the verdict. -/
def checkItems (check : Value → Call σ Verdict) : Nat → List (Option Value) → Call σ Verdict
  | _, [] => pure .passed
  | i, none :: r => checkItems check (i + 1) r
  | i, some v :: r => do
    match ← check v with
    | .passed => checkItems check (i + 1) r
    | .rejected reason => pure (.rejected ("element " ++ Text.natText i ++ ": " ++ reason.text))

/-- Lists whose every item passes; holes are skipped. -/
def arrayOf (id : Nat) (item : Capability σ) : Capability σ where
  id
  name := "arrayOf(" ++ item.name ++ ")"
  check v :=
    match v with
    | .list items => checkItems item.check 0 items
    | v => pure (.rejected ("expected an array, got " ++ v.received))
  inline? := item.inline?.map fun f => .group (.both .isList (.every f))
  coerce? := none

/-! ## Choices -/

/-- Null and undefined beside what the inner capability accepts. -/
def maybe (id : Nat) (inner : Capability σ) : Capability σ where
  id
  name := "maybe(" ++ inner.name ++ ")"
  check v := if v.isAbsent then pure .passed else inner.check v
  inline? := inner.inline?.map fun f => .group (.either .isNull (.either .isUndefined (.group f)))
  coerce? := inner.coerce?

namespace Union

def names (members : List (Capability σ)) : String :=
  String.intercalate " | " (members.map (·.name))

/-- Tries members in order; collects what each said until one accepts. -/
def tryEach (v : Value) : List (Capability σ) → List String → Call σ (Option (List String))
  | [], reasons => pure (some reasons)
  | c :: cs, reasons => do
    match ← c.check v with
    | .passed => pure none
    | .rejected reason => tryEach v cs (reasons ++ [c.name ++ ": " ++ reason.text])

def alternatives : Fragment → List Fragment → Fragment
  | f, [] => .group f
  | f, g :: gs => .either (.group f) (alternatives g gs)

def fragment? (members : List (Capability σ)) : Option Fragment :=
  match members.mapM (·.inline?) with
  | some (f :: fs) => some (.group (alternatives f fs))
  | _ => none

/-- What any member accepts. Members do not coerce. -/
def capability (id : Nat) (members : List (Capability σ)) : Except Thrown (Capability σ) :=
  if members.isEmpty then .error (.definition .emptyUnion)
  else .ok {
    id
    name := names members
    check := fun v => do
      match ← tryEach v members [] with
      | none => pure .passed
      | some reasons =>
        pure (.rejected ("matched none of " ++ names members ++ " ("
          ++ String.intercalate "; " reasons ++ ")"))
    inline? := fragment? members
    coerce? := none }

end Union

/-! ## Classes and predicates

  Neither has an inline form: what they test is out of reach of generated text. -/

/-- Instances of a class, or of one derived from it. -/
def instanceOf (id : Nat) (cls : String) (name : String) : Capability σ :=
  ofTest id name (fun v => v.isInstance cls)
    (fun v => "expected an instance of " ++ name ++ ", got " ++ v.received) none none

/-- A test from outside. -/
def predicate (id : Nat) (name : String) (test : Value → Call σ Bool) (reason? : Option String) :
    Capability σ where
  id
  name
  check v := do
    if ← test v then pure .passed
    else pure (.rejected (reason?.getD ("rejected by " ++ name)))
  inline? := none
  coerce? := none

end ArgGuard.Capability
