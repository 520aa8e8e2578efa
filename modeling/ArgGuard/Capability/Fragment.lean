/-
  ArgGuard.Capability.Fragment — inline conditions over one variable.

  A fragment is a condition that a specialized routine carries in its text. It has two
  readings: `source` is its text for a variable of a given name, `holds` its value when that
  variable holds a given value. Connectives stop at the first condition that decides.
-/

import ArgGuard.Failure.Thrown

namespace ArgGuard

/-- A piece of generated text: code, a quoted literal, or the identifier made of a
validator's name. -/
inductive Piece where
  | code (s : String)
  | literal (s : String)
  | routine (name : String)
  deriving DecidableEq, Repr

namespace Piece

/-- A letter, a digit, `_` or `$`. -/
def isIdentifierChar (c : Char) : Bool :=
  ('a' ≤ c && c ≤ 'z') || ('A' ≤ c && c ≤ 'Z') || Text.isDigit c || c == '_' || c == '$'

/-- The name of the routine of a validator: each unit of its name that an identifier cannot
have becomes `_`. -/
def routineName (name : String) : String :=
  "validate_" ++ String.ofList (name.toList.flatMap fun c =>
    if isIdentifierChar c then [c] else List.replicate (Text.charUnits c).length '_')

def text : Piece → String
  | .code s => s
  | .literal s => Text.Quoted.quote s
  | .routine name => routineName name

end Piece

/-- What an enumerated value denotes where its text stands in code. -/
inductive Meaning where
  | value (v : Value)
  | unbound
  | malformed
  deriving Repr

inductive Fragment where
  /-- A constant condition. -/
  | constant (b : Bool)
  /-- The variable's type has a name. -/
  | hasType (name : String)
  /-- The variable's length is above zero. -/
  | nonEmpty
  | isFinite
  | isInteger
  | aboveZero
  | atLeastZero
  | isNull
  | isUndefined
  | notNull
  | notUndefined
  /-- The variable is identical to what a piece of text denotes. -/
  | equals (written : Piece) (denoted : Meaning)
  | isList
  /-- A condition holds of every item, holes left out. -/
  | every (item : Fragment)
  | both (a b : Fragment)
  | either (a b : Fragment)
  | group (a : Fragment)
  /-- A condition from outside, with its text and its truth. -/
  | foreign (written : String → String) (truth : Value → Bool)
  /-- Text from outside that is no condition. -/
  | malformed (written : String → String)

namespace Fragment

/-! ## Text -/

/-- The text of a fragment for a variable. -/
def source (ref : String) : Fragment → List Piece
  | .constant b => [.code (if b then "true" else "false")]
  | .hasType name => [.code ("typeof " ++ ref ++ " === \"" ++ name ++ "\"")]
  | .nonEmpty => [.code (ref ++ ".length > 0")]
  | .isFinite => [.code ("Number.isFinite(" ++ ref ++ ")")]
  | .isInteger => [.code ("Number.isInteger(" ++ ref ++ ")")]
  | .aboveZero => [.code (ref ++ " > 0")]
  | .atLeastZero => [.code (ref ++ " >= 0")]
  | .isNull => [.code (ref ++ " === null")]
  | .isUndefined => [.code (ref ++ " === undefined")]
  | .notNull => [.code (ref ++ " !== null")]
  | .notUndefined => [.code (ref ++ " !== undefined")]
  | .equals written _ => [.code (ref ++ " === "), written]
  | .isList => [.code ("Array.isArray(" ++ ref ++ ")")]
  | .every item =>
    .code (ref ++ ".every((" ++ ref ++ "_i) => ") :: (item.source (ref ++ "_i") ++ [.code ")"])
  | .both a b => a.source ref ++ .code " && " :: b.source ref
  | .either a b => a.source ref ++ .code " || " :: b.source ref
  | .group a => .code "(" :: (a.source ref ++ [.code ")"])
  | .foreign written _ => [.code (written ref)]
  | .malformed written => [.code (written ref)]

/-- Whether the text can be compiled. -/
def wellFormed : Fragment → Bool
  | .equals _ .malformed => false
  | .every item => item.wellFormed
  | .both a b => a.wellFormed && b.wellFormed
  | .either a b => a.wellFormed && b.wellFormed
  | .group a => a.wellFormed
  | .malformed _ => false
  | _ => true

/-! ## Truth -/

/-- Whether a number, or zero for what is none, meets a comparison with zero. -/
def compareZero (p : Number → Bool) : Value → Bool
  | .number x => p x
  | _ => false

/-- Whether every item that is there meets a condition; the first that does not decides. -/
def everyItem (p : Value → Except Thrown Bool) : List (Option Value) → Except Thrown Bool
  | [] => .ok true
  | none :: r => everyItem p r
  | some v :: r => do if ← p v then everyItem p r else .ok false

/-- The value of a fragment whose variable holds `v`. -/
def holds : Fragment → Value → Except Thrown Bool
  | .constant b, _ => .ok b
  | .hasType name, v => .ok (v.typeName == name)
  | .nonEmpty, v =>
    match v with
    | .text s => .ok (s != "")
    | .list items => .ok (!items.isEmpty)
    | v => if v.isAbsent then .error .misuse else .ok (compareZero (Number.lt .zero) (v.get "length"))
  | .isFinite, v => .ok (match v with | .number x => x.isFinite | _ => false)
  | .isInteger, v => .ok (match v with | .number x => x.isInteger | _ => false)
  | .aboveZero, v => .ok (compareZero (Number.lt .zero) v)
  | .atLeastZero, v => .ok (compareZero (Number.le .zero) v)
  | .isNull, v => .ok (v.identical .null)
  | .isUndefined, v => .ok v.isUndefined
  | .notNull, v => .ok (!v.identical .null)
  | .notUndefined, v => .ok (!v.isUndefined)
  | .equals _ (.value w), v => .ok (v.identical w)
  | .equals _ .unbound, _ => .error (.foreign .reference none)
  | .equals _ .malformed, _ => .error (.foreign .syntaxError none)
  | .isList, v => .ok v.isList
  | .every item, v =>
    match v with
    | .list items => everyItem (fun v => item.holds v) items
    | _ => .error .misuse
  | .both a b, v => do if ← a.holds v then b.holds v else .ok false
  | .either a b, v => do if ← a.holds v then .ok true else b.holds v
  | .group a, v => a.holds v
  | .foreign _ truth, v => .ok (truth v)
  | .malformed _, _ => .error (.foreign .syntaxError none)

end Fragment

end ArgGuard
