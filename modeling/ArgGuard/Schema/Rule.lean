/-
  ArgGuard.Schema.Rule — rules that hold no other schema.

  Each such rule is checked on a value at once and complains in one message, or none
  (`SchemaRule.simple?`); a list of required names complains once for every missing one.
-/

import ArgGuard.Schema.Format

namespace ArgGuard

namespace Bound

/-- A number within a bound; a NaN is within none. -/
def admits : Bound → Number → Number → Bool
  | .maximum, limit, x => x.le limit
  | .minimum, limit, x => limit.le x
  | .exclusiveMaximum, limit, x => x.lt limit
  | .exclusiveMinimum, limit, x => limit.lt x

def sign : Bound → String
  | .maximum => "<="
  | .minimum => ">="
  | .exclusiveMaximum => "<"
  | .exclusiveMinimum => ">"

end Bound

namespace Sized

def name : Sized → String
  | .characters => "characters"
  | .items => "items"
  | .properties => "properties"

/-- The size of a value. -/
def measure : Sized → Value → Nat
  | .characters, .text s => s.length
  | .items, .list xs => xs.length
  | .properties, .object _ _ own _ _ => own.length
  | _, _ => 0

end Sized

namespace SchemaRule

/-- Whether the quotient is the integer that its text begins with. -/
def isMultiple (x divisor : Number) : Bool :=
  let q := x.div divisor
  match Number.leadingInt? q.text with
  | some n => q.eq n
  | none => false

/-- The names that every object inherits. -/
def inheritedNames : List String :=
  ["constructor", "toString", "toLocaleString", "valueOf", "hasOwnProperty", "isPrototypeOf",
    "propertyIsEnumerable", "__defineGetter__", "__defineSetter__", "__lookupGetter__",
    "__lookupSetter__", "__proto__"]

/-- Whether reading a member gives something; objects inherit a few names. -/
def hasMember (v : Value) (k : String) : Bool :=
  match v.member? k with
  | some a => !a.isUndefined
  | none => !v.lineage.isEmpty && inheritedNames.contains k

/-- The keys that a walk over an object visits, inherited ones last. -/
def visitedKeys : Value → List String
  | .object _ _ own hidden inherited =>
    let ownKeys := Entries.keys own
    ownKeys ++ (Entries.keys inherited).filter fun k =>
      !ownKeys.contains k && !Entries.has k hidden
  | _ => []

/-- Items of scalar types by what a table of seen items files them under. -/
def fileKey (types : List SchemaType) (v : Value) : Option String :=
  if types.any fun t => t.admits v then
    match v with
    | .text s => some (if 1 < types.length then s ++ "_" else s)
    | v => v.text?
  else none

/-- Scans filed items from the last to the first; the first that was seen ends it, with the
index it was seen at and its own. -/
def seenTwice : List (Option String × Nat) → List (String × Nat) → Option (Nat × Nat)
  | [], _ => none
  | (none, _) :: r, seen => seenTwice r seen
  | (some k, i) :: r, seen =>
    match seen.lookup k with
    | some j => some (j, i)
    | none => seenTwice r ((k, i) :: seen)

/-- The last item equal to an earlier one, with the latest such earlier one first. Items are
given from the last to the first. -/
def equalPair : List (Value × Nat) → Option (Nat × Nat)
  | [] => none
  | (v, i) :: r =>
    match r.find? fun e => v.deepEqual e.1 with
    | some (_, j) => some (j, i)
    | none => equalPair r

/-- Two items that are the same, as the complaint names them. -/
def duplicate? (types : List SchemaType) (items : List (Option Value)) : Option (Nat × Nat) :=
  let indexed := (Value.itemValues items).zipIdx.reverse
  if types.isEmpty || types.contains .object || types.contains .array then equalPair indexed
  else seenTwice (indexed.map fun e => (fileKey types e.1, e.2)) []

/-- An enumerated value is met by content when it is an object, else by identity. -/
def meets (v expected : Value) : Bool :=
  if expected.isObject || expected.isList then v.deepEqual expected else v.identical expected

def countText (of : Sized) (count : Number) : String := count.text ++ " " ++ of.name

/-- The complaint of a rule that holds no other schema. -/
def simple? : SchemaRule → Value → Option String
  | .const e, v => if meets v e then none else some "must be equal to constant"
  | .enum es, v =>
    if es.any (meets v) then none else some "must be equal to one of the allowed values"
  | .bound b limit, .number x =>
    if b.admits limit x then none else some ("must be " ++ b.sign ++ " " ++ limit.text)
  | .multipleOf d, .number x =>
    if isMultiple x d then none else some ("must be multiple of " ++ d.text)
  | .atMost of n, v =>
    if (Number.ofNat (of.measure v)).le n then none
    else some ("must NOT have more than " ++ countText of n)
  | .atLeast of n, v =>
    if n.le (Number.ofNat (of.measure v)) then none
    else some ("must NOT have fewer than " ++ countText of n)
  | .lowercase, .text s =>
    if !s.isEmpty && s.toList.all fun c => 'a' ≤ c && c ≤ 'z' then none
    else some "must match pattern \"^[a-z]+$\""
  | .format f, .text s =>
    if f.admits s then none else some ("must match format \"" ++ f.name ++ "\"")
  | .distinct types, .list xs =>
    (duplicate? types xs).map fun p =>
      "must NOT have duplicate items (items ## " ++ Text.natText p.1 ++ " and "
        ++ Text.natText p.2 ++ " are identical)"
  | _, _ => none

/-- One complaint for every name that is missing. -/
def missing (names : List String) (v : Value) : List String :=
  (names.filter fun n => !hasMember v n).map fun n => "must have required property '" ++ n ++ "'"

end SchemaRule

end ArgGuard
