/-
  ArgGuard.Value.Text — values as text.

  `spell` is the text that a message takes a value in by. An object may have a function of
  its own for it, which is code from outside; how that is run is left open, and `text?` is
  the text of what needs none. A symbol has no such text, nor has an object without a way to
  be text, nor a list that holds one of them. `received` is the short rendering for the
  reasons of rejected values.
-/

import ArgGuard.Number.Shortest
import ArgGuard.Text.Quoted
import ArgGuard.Value.Basic

namespace ArgGuard

/-! ## Dates -/

namespace Calendar

/-- Year, month and day of a day counted from 1970-01-01. -/
def civil (days : Int) : Int × Nat × Nat :=
  let z := days + 719468
  let era := z / 146097
  let doe := (z % 146097).toNat
  let yoe := (doe - doe / 1460 + doe / 36524 - doe / 146096) / 365
  let doy := doe - (365 * yoe + yoe / 4 - yoe / 100)
  let mp := (5 * doy + 2) / 153
  let d := doy - (153 * mp + 2) / 5 + 1
  let m := if mp < 10 then mp + 3 else mp - 9
  (yoe + era * 400 + (if m ≤ 2 then 1 else 0), m, d)

def weekdays : List String := ["Thu", "Fri", "Sat", "Sun", "Mon", "Tue", "Wed"]

def months : List String :=
  ["Jan", "Feb", "Mar", "Apr", "May", "Jun", "Jul", "Aug", "Sep", "Oct", "Nov", "Dec"]

/-- A number with leading zeros. -/
def padded (width n : Nat) : String :=
  let ds := Nat.toDigits 10 n
  String.ofList (List.replicate (width - ds.length) '0' ++ ds)

/-- The text of a date in universal time. -/
def text (ms : Int) : String :=
  let days := ms / 86400000
  let secs := (ms % 86400000).toNat / 1000
  let (y, m, d) := civil days
  let year := if y < 0 then "-" ++ padded 6 y.natAbs else padded 4 y.natAbs
  weekdays.getD (days % 7).toNat "" ++ " " ++ months.getD (m - 1) "" ++ " " ++ padded 2 d ++ " "
    ++ year ++ " " ++ padded 2 (secs / 3600) ++ ":" ++ padded 2 (secs / 60 % 60) ++ ":"
    ++ padded 2 (secs % 60) ++ " GMT+0000 (Coordinated Universal Time)"

example : text 0 = "Thu Jan 01 1970 00:00:00 GMT+0000 (Coordinated Universal Time)" := by
  decide +kernel

end Calendar

namespace Value

/-- The text of a value that holds no other; a symbol has none that a message could take in. -/
def atomText? : Value → Option String
  | .undefined => some "undefined"
  | .null => some "null"
  | .bool b => some (if b then "true" else "false")
  | .number x => some x.text
  | .text s => some s
  | .bigint n => some (Text.intText n)
  | .symbol _ => none
  | .function .. => none
  | .list _ => none
  | .object _ _ _ _ _ => none

section spell

-- how a function from outside is run, and what comes where a value has no text
variable {m : Type → Type} [Monad m] (run : Nat → m Value) (mute : m String)

/-- What a function comes to as text, or what is next if it returns an object. -/
def spellReturned (f : Nat) (next : m String) : m String := do
  let r ← run f
  if r.isObject || r.isList || r.isFunction then next else (r.atomText?.map pure).getD mute

/-- An object asks its `valueOf` last; where it has none, it may have a plain value by its class. -/
def spellLast (valueOf? : Option Value) (plain? : Option String) : m String :=
  match valueOf? with
  | some (.function f _) => spellReturned run mute f mute
  | some _ => mute
  | none => (plain?.map pure).getD mute

/-- An object asks its `toString` first; where it has none, it may have a text by its class. -/
def spellFirst (toString? : Option Value) (text? : Option (m String)) (last : m String) : m String :=
  match toString? with
  | some (.function f _) => spellReturned run mute f last
  | some _ => last
  | none => text?.getD last

/-- The text of a member, or another where it is missing or undefined. -/
def spellMember (v : Value) (texts : List (String × m String)) (k other : String) : m String :=
  if (v.get k).isUndefined then pure other else (texts.lookup k).getD (pure other)

/-- An error is its name and its message, with a colon between them if there are both. -/
def spellError (v : Value) (texts : List (String × m String)) (name : String) : m String := do
  let name ← spellMember v texts "name" (if (v.get "name").isUndefined then "Error" else name)
  let message ← spellMember v texts "message" ""
  return if name = "" then message else if message = "" then name else name ++ ": " ++ message

/-- The items that are members under their indices, between commas. -/
def spellIndexed (v : Value) (texts : List (String × m String)) : m String := do
  let count := match v.get "length" with
    | .number x => (x.truncate?.getD 0).toNat
    | _ => 0
  let item := fun i : Nat =>
    let k := Text.natText i
    if (v.get k).isAbsent then pure "" else (texts.lookup k).getD (pure "")
  return String.intercalate "," (← (List.range count).mapM item)

/-- The text that an object has by the class it is made or derived from. -/
def spellNamed (v : Value) (cls : String) (texts : List (String × m String)) (last : m String) : m String :=
  match cls with
  | "Map" => pure "[object Map]"
  | "Error" => spellError v texts "Error"
  | "Array" =>
    match v.member? "join" with
    | some (.function f _) => spellReturned run mute f last
    | some _ => pure "[object Object]"
    | none => spellIndexed v texts
  -- these two take no other object for one of their own
  | "Date" => mute
  | "Function" => mute
  | _ => pure "[object Object]"

/-- The text that an object has by its kind; `none` where it has no way to be text. -/
def spellClass (v : Value) (kind : Kind) (texts : List (String × m String)) (last : m String) :
    Option (m String) :=
  match kind with
  | .plain => some (pure "[object Object]")
  | .bare => none
  | .date ms => some (pure (Calendar.text ms))
  | .error name => some (spellError v texts name)
  | .heir l | .instance l => l.head?.map fun cls => spellNamed run mute v cls texts last

mutual

/-- The text of a value: a list is its items between commas. -/
def spell : Value → m String
  | .list items => do return String.intercalate "," (← spellItems items)
  | .function _ own =>
    spellFirst run mute (Entries.find? "toString" own) (some (pure "() => undefined"))
      (spellLast run mute (Entries.find? "valueOf" own) none)
  | .object id kind own hidden inherited =>
    let v := Value.object id kind own hidden inherited
    let texts := spellMembers own ++ spellMembers hidden ++ spellMembers inherited
    let plain? := match kind with
      | .date ms => some (Number.ofInt ms).text
      | _ => none
    let last := spellLast run mute (v.member? "valueOf") plain?
    spellFirst run mute (v.member? "toString") (spellClass run mute v kind texts last) last
  | v => (v.atomText?.map pure).getD mute

/-- The texts of the items of a list; null, undefined and holes have the empty one. -/
def spellItems : List (Option Value) → m (List String)
  | [] => pure []
  | none :: r => do return "" :: (← spellItems r)
  | some v :: r => do
    let t ← (if v.isAbsent then pure "" else spell v)
    return t :: (← spellItems r)

/-- The members by their texts, of which none is asked for here. -/
def spellMembers : List (String × Value) → List (String × m String)
  | [] => []
  | (k, v) :: r => (k, spell v) :: spellMembers r

end

end spell

/-- A symbol where it is shown and not taken in. -/
def shown (s : Symbol) : String := "Symbol(" ++ s.description ++ ")"

/-- The text of a value, if it has one and takes no code from outside to find. -/
def text? : Value → Option String
  | .symbol s => some (shown s)
  | v => v.spell (fun _ => none) none

/-! ## Received values -/

/-- What kind of thing was received. -/
def describe : Value → String
  | .null => "null"
  | .list _ => "an array"
  | v => if v.typeName = "object" then "an object" else v.typeName

/-- A rejected value as its reason shows it. -/
def received : Value → String
  | .number x => x.text
  | .bool b => if b then "true" else "false"
  | .text s => Text.Quoted.quote s
  | v => describe v

end Value

end ArgGuard
