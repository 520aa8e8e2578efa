/-
  ArgGuard.Schema.Reading — schemas from the objects that write them.

  Keywords become rules in the order in which they are checked: first those for any value,
  then those for numbers, texts, lists and objects (`Schema.read?`). A schema in which a
  keyword has a value of the wrong form is none; a keyword that is not known says nothing.
-/

import ArgGuard.Schema.Basic

namespace ArgGuard

namespace Schema

/-- What a schema says about a keyword: nothing, or something of the right form, or not. -/
def member {α : Type} (es : Entries Value) (k : String) (form : Value → Option α) :
    Option (Option α) :=
  match Entries.find? k es with
  | none => some none
  | some v => (form v).map some

def numberForm : Value → Option Number
  | .number x => some x
  | _ => none

def positiveForm : Value → Option Number
  | .number x => if Number.zero.lt x then some x else none
  | _ => none

def countForm : Value → Option Number
  | .number x => if x.isInteger && Number.zero.le x then some x else none
  | _ => none

def textForm : Value → Option String
  | .text s => some s
  | _ => none

def boolForm : Value → Option Bool
  | .bool b => some b
  | _ => none

def valuesForm : Value → Option (List Value)
  | .list items => some (Value.itemValues items)
  | _ => none

def enumForm (v : Value) : Option (List Value) := (valuesForm v).filter fun vs => !vs.isEmpty

def distinctTexts : List String → Bool
  | [] => true
  | s :: ss => !ss.contains s && distinctTexts ss

def namesForm (v : Value) : Option (List String) := do
  let names ← (← valuesForm v).mapM textForm
  if distinctTexts names then some names else none

def typesForm (v : Value) : Option (List SchemaType) :=
  match v with
  | .text s => (SchemaType.ofName? s).map ([·])
  | v => do
    let names ← namesForm v
    if names.isEmpty then none else names.mapM SchemaType.ofName?

def formatForm (v : Value) : Option (Option TextFormat) :=
  match v with
  | .text "email" => some (some .email)
  | .text "date" => some (some .date)
  | .text _ => some none
  | _ => none

/-- One rule for a keyword that is there. -/
def rule {α : Type} (make : α → SchemaRule) (a : Option α) : List SchemaRule :=
  (a.map make).toList

/-- The schemas that stand under one keyword, by their own keys where they have some. -/
structure Subschemas where
  negated : Option Schema
  anyOf : Option (List Schema)
  oneOf : Option (List Schema)
  allOf : Option (List Schema)
  items : Option Schema
  additional : Option Schema
  properties : Option (List (String × Schema))

/-- A schema from its members, the schemas among them read already. -/
def assemble (es : Entries Value) (sub : Subschemas) : Option Schema := do
  if Entries.has "$ref" es then none
  let _ ← member es "title" textForm
  let _ ← member es "description" textForm
  let types := (← member es "type" typesForm).getD []
  let const := Entries.find? "const" es
  let enum ← member es "enum" enumForm
  let maximum ← member es "maximum" numberForm
  let minimum ← member es "minimum" numberForm
  let exclusiveMaximum ← member es "exclusiveMaximum" numberForm
  let exclusiveMinimum ← member es "exclusiveMinimum" numberForm
  let multipleOf ← member es "multipleOf" positiveForm
  let maxLength ← member es "maxLength" countForm
  let minLength ← member es "minLength" countForm
  let pattern ← member es "pattern" textForm
  let format ← member es "format" formatForm
  let maxItems ← member es "maxItems" countForm
  let minItems ← member es "minItems" countForm
  let unique ← member es "uniqueItems" boolForm
  let maxProperties ← member es "maxProperties" countForm
  let minProperties ← member es "minProperties" countForm
  let required ← member es "required" namesForm
  let itemTypes := match sub.items with
    | some (.keywords ts _) => ts
    | _ => []
  let known := (sub.properties.getD []).map (·.1)
  some (.keywords types
    (rule .const const ++ rule .enum enum ++ rule .not sub.negated ++ rule .anyOf sub.anyOf
      ++ rule .oneOf sub.oneOf ++ rule .allOf sub.allOf
      ++ rule (.bound .maximum) maximum ++ rule (.bound .minimum) minimum
      ++ rule (.bound .exclusiveMaximum) exclusiveMaximum
      ++ rule (.bound .exclusiveMinimum) exclusiveMinimum ++ rule .multipleOf multipleOf
      ++ rule (.atMost .characters) maxLength ++ rule (.atLeast .characters) minLength
      ++ rule (fun _ => .lowercase) (pattern.filter (· = "^[a-z]+$"))
      ++ rule .format (format.bind id)
      ++ rule (.atMost .items) maxItems ++ rule (.atLeast .items) minItems
      ++ rule (fun _ => .distinct itemTypes) (unique.filter id) ++ rule .items sub.items
      ++ rule (.atMost .properties) maxProperties ++ rule (.atLeast .properties) minProperties
      ++ rule .required required ++ rule (.additional known) sub.additional
      ++ rule .properties sub.properties))

/-- A keyword under which one schema stands. -/
inductive Place where
  | negated
  | anyOf
  | oneOf
  | allOf
  | items
  | additional
  | properties
  deriving DecidableEq, Repr

def Place.ofKey? (k : String) : Option Place :=
  if k = "not" then some .negated
  else if k = "anyOf" then some .anyOf
  else if k = "oneOf" then some .oneOf
  else if k = "allOf" then some .allOf
  else if k = "items" then some .items
  else if k = "additionalProperties" then some .additional
  else if k = "properties" then some .properties
  else none

def noSubschemas : Subschemas := ⟨none, none, none, none, none, none, none⟩

mutual

/-- Reads a schema. -/
def read? : Value → Option Schema
  | .bool b => some (.constant b)
  | .object _ _ own _ _ => do assemble own (← readMembers? own)
  | _ => none

/-- Reads the schemas among the members of a schema. -/
def readMembers? : List (String × Value) → Option Subschemas
  | [] => some noSubschemas
  | (k, v) :: es => do
    let sub ← readMembers? es
    match Place.ofKey? k with
    | none => some sub
    | some .negated => do some { sub with negated := some (← read? v) }
    | some .anyOf => do some { sub with anyOf := some (← readSeveral? v) }
    | some .oneOf => do some { sub with oneOf := some (← readSeveral? v) }
    | some .allOf => do some { sub with allOf := some (← readSeveral? v) }
    | some .items => do some { sub with items := some (← read? v) }
    | some .additional => do some { sub with additional := some (← read? v) }
    | some .properties => do some { sub with properties := some (← readNamed? v) }

/-- Reads a list of schemas, which is not empty. -/
def readSeveral? : Value → Option (List Schema)
  | .list items => (readItems? items).filter fun ss => !ss.isEmpty
  | _ => none

def readItems? : List (Option Value) → Option (List Schema)
  | [] => some []
  | none :: _ => none
  | some v :: r => do
    let s ← read? v
    let ss ← readItems? r
    some (s :: ss)

/-- Reads an object of schemas, in the order of enumeration. -/
def readNamed? : Value → Option (List (String × Schema))
  | .object _ _ own _ _ => (readEntries? own).map Entries.ordered
  | _ => none

def readEntries? : List (String × Value) → Option (List (String × Schema))
  | [] => some []
  | (k, v) :: es => do
    let s ← read? v
    let ss ← readEntries? es
    some ((k, s) :: ss)

end

end Schema

end ArgGuard
