/-
  ArgGuard.Value.Basic — the dynamic values that arguments, defaults and options are.

  A list may have holes. An object has own entries that are enumerated, own entries that
  are not (`hidden`) and entries that it only inherits; `id` tells objects and functions
  from outside apart, and a container made here carries `0`, about whose identity nothing
  asks.
-/

import ArgGuard.Number.Basic
import ArgGuard.Text.Units
import ArgGuard.Value.Entries

namespace ArgGuard

structure Symbol where
  id : String
  description : String
  deriving DecidableEq, Repr, Inhabited

/-- What an object is beside its entries; a lineage names its classes, its own first. -/
inductive Kind where
  | plain
  | bare
  | heir (lineage : List String)
  | instance (lineage : List String)
  | date (ms : Int)
  | error (name : String)
  deriving DecidableEq, Repr, Inhabited

inductive Value where
  | undefined
  | null
  | bool (b : Bool)
  | number (x : Number)
  | text (s : String)
  | bigint (n : Int)
  | symbol (s : Symbol)
  | function (id : Nat) (own : List (String × Value))
  | list (items : List (Option Value))
  | object (id : Nat) (kind : Kind) (own hidden inherited : List (String × Value))
  deriving Repr

namespace Value

instance : Inhabited Value := ⟨.undefined⟩

def nat (n : Nat) : Value := .number (.ofNat n)

/-- An object made here. -/
def record (es : Entries Value) : Value := .object 0 .plain es [] []

/-- A list without holes. -/
def ofItems (vs : List Value) : Value := .list (vs.map some)

def isUndefined : Value → Bool
  | .undefined => true
  | _ => false

/-- Null or undefined. -/
def isAbsent : Value → Bool
  | .undefined => true
  | .null => true
  | _ => false

def isList : Value → Bool
  | .list _ => true
  | _ => false

def isFunction : Value → Bool
  | .function .. => true
  | _ => false

/-- An object that is no list, no function and not null. -/
def isObject : Value → Bool
  | .object .. => true
  | _ => false

/-- The name of a value's type; null, lists and objects share one. -/
def typeName : Value → String
  | .undefined => "undefined"
  | .null => "object"
  | .bool _ => "boolean"
  | .number _ => "number"
  | .text _ => "string"
  | .bigint _ => "bigint"
  | .symbol _ => "symbol"
  | .function .. => "function"
  | .list _ => "object"
  | .object .. => "object"

def truthy : Value → Bool
  | .undefined => false
  | .null => false
  | .bool b => b
  | .number x => !(x.isZero || x.isNaN)
  | .text s => s != ""
  | .bigint n => n != 0
  | _ => true

/-- Equality of primitives by content (a NaN differs from itself), of functions and objects
from outside by identity. -/
def identical : Value → Value → Bool
  | .undefined, .undefined => true
  | .null, .null => true
  | .bool a, .bool b => a == b
  | .number x, .number y => x.eq y
  | .text s, .text t => s == t
  | .bigint m, .bigint n => m == n
  | .symbol s, .symbol t => s.id == t.id
  | .function i _, .function j _ => i == j
  | .object i .., .object j .. => i == j && i != 0
  | _, _ => false

/-- `identical`, but a NaN is itself. -/
def sameValueZero (a b : Value) : Bool :=
  identical a b ||
    match a, b with
    | .number x, .number y => x.isNaN && y.isNaN
    | _, _ => false

/-- The classes of a value, its own first. -/
def lineage : Value → List String
  | .list _ => ["Array", "Object"]
  | .function .. => ["Function", "Object"]
  | .object _ kind _ _ _ =>
    match kind with
    | .plain => ["Object"]
    | .bare => []
    | .heir l => l
    | .instance l => l
    | .date _ => ["Date", "Object"]
    | .error _ => ["Error", "Object"]
  | _ => []

/-- Whether a value is an instance of a class or of one derived from it. -/
def isInstance (v : Value) (cls : String) : Bool := v.lineage.contains cls

/-! ## Members -/

/-- The items of a list as entries, holes left out. -/
def itemEntries (items : List (Option Value)) : Entries Value :=
  (items.zipIdx.filterMap fun (o, i) => o.map fun v => (Text.natText i, v))

/-- The units of a text as entries; half of a surrogate pair stands as U+FFFD. -/
def unitEntries (s : String) : Entries Value :=
  ((Text.units s).zipIdx.map fun (u, i) =>
    (Text.natText i, .text (String.singleton (if 0xD800 ≤ u ∧ u < 0xE000 then '\uFFFD' else Char.ofNat u))))

/-- The own entries that enumeration lists, in its order. -/
def entries : Value → Entries Value
  | .text s => unitEntries s
  | .list items => itemEntries items
  | .function _ own => Entries.ordered own
  | .object _ _ own _ _ => Entries.ordered own
  | _ => []

/-- An own entry, enumerated or not. -/
def own? (v : Value) (k : String) : Option Value :=
  match v with
  | .text s =>
    if k = "length" then some (nat (Text.unitLength s)) else (unitEntries s).find? k
  | .list items =>
    if k = "length" then some (nat items.length) else (itemEntries items).find? k
  | .function _ own => Entries.find? k own
  | .object _ _ own hidden _ => (Entries.find? k own).or (Entries.find? k hidden)
  | _ => none

/-- An entry, own or inherited. -/
def member? (v : Value) (k : String) : Option Value :=
  match v with
  | .object _ kind _ _ inherited =>
    (v.own? k).or <| (Entries.find? k inherited).or <|
      match kind, k with
      | .error name, "name" => some (.text name)
      | .error _, "message" => some (.text "")
      | _, _ => none
  | _ => v.own? k

/-- What reading a member gives; a missing one reads as undefined. -/
def get (v : Value) (k : String) : Value := (v.member? k).getD .undefined

/-- The items of a list as values, holes read as undefined. -/
def itemValues (items : List (Option Value)) : List Value := items.map (·.getD .undefined)

/-- Writes an own entry of an object. -/
def define (v : Value) (k : String) (a : Value) : Value :=
  match v with
  | .object id kind own hidden inherited =>
    .object id kind (Entries.put k a own) (Entries.erase k hidden) inherited
  | v => v

end Value

end ArgGuard
