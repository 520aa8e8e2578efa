/-
  ArgGuard.Schema.Basic — JSON schemas.

  A schema is a constant, or types and rules. A rule is for values of any type, or only for
  numbers, texts, lists or objects.
-/

import ArgGuard.Value.Equal

namespace ArgGuard

inductive SchemaType where
  | number
  | integer
  | string
  | boolean
  | null
  | array
  | object
  deriving DecidableEq, Repr

namespace SchemaType

def all : List SchemaType := [.number, .integer, .string, .boolean, .null, .array, .object]

def name : SchemaType → String
  | .number => "number"
  | .integer => "integer"
  | .string => "string"
  | .boolean => "boolean"
  | .null => "null"
  | .array => "array"
  | .object => "object"

def ofName? (s : String) : Option SchemaType := all.find? fun t => t.name = s

/-- Whether a value has the type; NaN and the infinities are numbers, the infinities integers. -/
def admits : SchemaType → Value → Bool
  | .number, .number _ => true
  | .integer, .number x => x.isInteger || (!x.isFinite && !x.isNaN)
  | .string, .text _ => true
  | .boolean, .bool _ => true
  | .null, .null => true
  | .array, .list _ => true
  | .object, .object .. => true
  | _, _ => false

end SchemaType

/-- What the text of a value may be told to look like. -/
inductive TextFormat where
  | email
  | date
  deriving DecidableEq, Repr

inductive Bound where
  | maximum
  | minimum
  | exclusiveMaximum
  | exclusiveMinimum
  deriving DecidableEq, Repr

/-- What a size is the size of. -/
inductive Sized where
  | characters
  | items
  | properties
  deriving DecidableEq, Repr

mutual

inductive Schema where
  | constant (b : Bool)
  | keywords (types : List SchemaType) (rules : List SchemaRule)

inductive SchemaRule where
  | const (v : Value)
  | enum (vs : List Value)
  | not (s : Schema)
  | anyOf (ss : List Schema)
  | oneOf (ss : List Schema)
  | allOf (ss : List Schema)
  | bound (b : Bound) (limit : Number)
  | multipleOf (divisor : Number)
  | atMost (of : Sized) (count : Number)
  | atLeast (of : Sized) (count : Number)
  | lowercase
  | format (f : TextFormat)
  | distinct (itemTypes : List SchemaType)
  | items (s : Schema)
  | required (names : List String)
  | additional (known : List String) (s : Schema)
  | properties (ps : List (String × Schema))

end

/-- The values a rule is for. -/
inductive RuleGroup where
  | any
  | numbers
  | texts
  | lists
  | objects
  deriving DecidableEq, Repr

namespace RuleGroup

def all : List RuleGroup := [.any, .numbers, .texts, .lists, .objects]

/-- The type that a group is for. -/
def type? : RuleGroup → Option SchemaType
  | .any => none
  | .numbers => some .number
  | .texts => some .string
  | .lists => some .array
  | .objects => some .object

end RuleGroup

def Sized.group : Sized → RuleGroup
  | .characters => .texts
  | .items => .lists
  | .properties => .objects

def SchemaRule.group : SchemaRule → RuleGroup
  | .bound .. => .numbers
  | .multipleOf _ => .numbers
  | .atMost of _ => of.group
  | .atLeast of _ => of.group
  | .lowercase => .texts
  | .format _ => .texts
  | .distinct _ => .lists
  | .items _ => .lists
  | .required _ => .objects
  | .additional .. => .objects
  | .properties _ => .objects
  | _ => .any

end ArgGuard
