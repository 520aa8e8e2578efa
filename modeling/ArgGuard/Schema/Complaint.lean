/-
  ArgGuard.Schema.Complaint — what a schema says about a value.

  The complaints of a schema are listed with the path of the part they are about. Unless all
  are asked for, checking stops at the first one; within a choice among schemas, where a
  complaint need not be final, it stops at the first in each group of keywords. A schema
  admits a value when it has no complaint.
-/

import ArgGuard.Schema.Rule

namespace ArgGuard

/-- A complaint about the part of a value at a path. -/
structure SchemaComplaint where
  path : String
  message : String
  deriving DecidableEq, Repr

namespace SchemaComplaint

/-- A key as a segment of a path. -/
def segment (key : String) : String :=
  String.ofList ('/' :: key.toList.flatMap fun c =>
    if c = '~' then ['~', '0'] else if c = '/' then ['~', '1'] else [c])

end SchemaComplaint

/-- How far checking goes: whether all complaints are wanted, and whether they are final. -/
structure Thoroughness where
  all : Bool
  tentative : Bool

namespace Schema

open SchemaRule

/-- The complaints that count: all of them or the first. -/
def kept (t : Thoroughness) (cs : List SchemaComplaint) : List SchemaComplaint :=
  if t.all then cs else cs.take 1

/-- Walks parts one after the other; unless all complaints are wanted, the first part with
complaints ends it. -/
def walk {α : Type} (t : Thoroughness) (f : α → List SchemaComplaint) :
    List α → List SchemaComplaint
  | [] => []
  | a :: as =>
    let cs := f a
    if cs.isEmpty || t.all then cs ++ walk t f as else cs

/-- The keywords of one group in order. -/
def ruleWalk (t : Thoroughness) (rs : List (RuleGroup × (Unit → List SchemaComplaint))) :
    List SchemaComplaint :=
  walk t (fun r => r.2 ()) rs

def typeMessage (types : List SchemaType) : String :=
  "must be " ++ String.intercalate "," (types.map (·.name))

/-- Whether the type is checked ahead of the keywords: it is not when it is the one type that
some keywords are for, whose group then checks it. -/
def typeFirst (types : List SchemaType) (groups : List RuleGroup) : Bool :=
  match types with
  | [] => false
  | [t] => !groups.any fun g => g.type? == some t
  | _ => true

/-- Goes through the groups of keywords. Before the first group that has keywords no complaint
ends the walk; after it any does, unless all are wanted. -/
def groupWalk (t : Thoroughness) (types : List SchemaType) (first : Bool) (path : String)
    (v : Value) (rules : List (RuleGroup × (Unit → List SchemaComplaint))) :
    List RuleGroup → Bool → List SchemaComplaint → List SchemaComplaint
  | [], _, cs => cs
  | g :: gs, used, cs =>
    let mine := rules.filter fun r => r.1 == g
    if mine.isEmpty then groupWalk t types first path v rules gs used cs
    else if used && !t.all && !cs.isEmpty then cs
    else
      let new :=
        match g.type? with
        | none => ruleWalk t mine
        | some ty =>
          if ty.admits v then ruleWalk t mine
          else if !first && types == [ty] then [⟨path, typeMessage types⟩]
          else []
      if !t.all && !t.tentative && !new.isEmpty then cs ++ new
      else groupWalk t types first path v rules gs true (cs ++ new)

/-- Checks types and keywords, the keywords given by what each complains about. -/
def keywordComplaints (t : Thoroughness) (types : List SchemaType) (path : String) (v : Value)
    (rules : List (RuleGroup × (Unit → List SchemaComplaint))) : List SchemaComplaint :=
  let first := typeFirst types (rules.map (·.1))
  let wrong := first && !types.any fun ty => ty.admits v
  let cs : List SchemaComplaint := if wrong then [⟨path, typeMessage types⟩] else []
  if wrong && !t.all && !t.tentative then cs
  else groupWalk t types first path v rules RuleGroup.all false cs

/-- What remains of the complaints of the members of a choice: none if one member admits the
value, else all with the choice's own at the end. -/
def choice (path message : String) (admitted : Bool) (cs : List SchemaComplaint) :
    List SchemaComplaint :=
  if admitted then [] else cs ++ [⟨path, message⟩]

/-- Members until one admits the value: whether one did, and all complaints. -/
def firstAdmitting : List (Unit → List SchemaComplaint) → Bool × List SchemaComplaint
  | [] => (false, [])
  | f :: fs =>
    let cs := f ()
    if cs.isEmpty then (true, [])
    else
      let (b, ds) := firstAdmitting fs
      (b, cs ++ ds)

/-- Members until a second one admits the value: whether exactly one did, and all complaints. -/
def onlyAdmitting : Bool → List (Unit → List SchemaComplaint) → Bool × List SchemaComplaint
  | one, [] => (one, [])
  | one, f :: fs =>
    let cs := f ()
    if cs.isEmpty then
      if one then (false, []) else onlyAdmitting true fs
    else
      let (b, ds) := onlyAdmitting one fs
      (b, cs ++ ds)

mutual

/-- The complaints of a schema about the value at a path. -/
def complaints (t : Thoroughness) (path : String) (v : Value) : Schema → List SchemaComplaint
  | .constant b => if b then [] else [⟨path, "boolean schema is false"⟩]
  | .keywords types rules => keywordComplaints t types path v (ruleComplaints t path v rules)

def ruleComplaints (t : Thoroughness) (path : String) (v : Value) :
    List SchemaRule → List (RuleGroup × (Unit → List SchemaComplaint))
  | [] => []
  | r :: rs => (r.group, fun _ => complaintsOf t path v r) :: ruleComplaints t path v rs

/-- The complaints of one rule. -/
def complaintsOf (t : Thoroughness) (path : String) (v : Value) :
    SchemaRule → List SchemaComplaint
  | .not s =>
    if (s.complaints ⟨false, true⟩ path v).isEmpty then [⟨path, "must NOT be valid"⟩] else []
  | .anyOf ss =>
    let (b, cs) := firstAdmitting (memberComplaints ⟨t.all, true⟩ path v ss)
    choice path "must match a schema in anyOf" b cs
  | .oneOf ss =>
    let (b, cs) := onlyAdmitting false (memberComplaints ⟨t.all, true⟩ path v ss)
    choice path "must match exactly one schema in oneOf" b cs
  | .allOf ss => walk t (fun f => f ()) (memberComplaints t path v ss)
  | .items s =>
    match v with
    | .list xs =>
      walk t (fun e => s.complaints t (path ++ "/" ++ Text.natText e.2) e.1)
        (Value.itemValues xs).zipIdx
    | _ => []
  | .required names => kept t ((missing names v).map fun m => ⟨path, m⟩)
  | .additional known s =>
    let extra := (visitedKeys v).filter fun k => !known.contains k
    match s with
    | .constant false => kept t (extra.map fun _ => ⟨path, "must NOT have additional properties"⟩)
    | s => walk t (fun k => s.complaints t (path ++ SchemaComplaint.segment k) (v.get k)) extra
  | .properties ps => walk t (fun f => f ()) (propertyComplaints t path v ps)
  | r => (r.simple? v).toList.map fun m => ⟨path, m⟩

def memberComplaints (t : Thoroughness) (path : String) (v : Value) :
    List Schema → List (Unit → List SchemaComplaint)
  | [] => []
  | s :: ss => (fun _ => s.complaints t path v) :: memberComplaints t path v ss

/-- The complaints about the properties that are there. -/
def propertyComplaints (t : Thoroughness) (path : String) (v : Value) :
    List (String × Schema) → List (Unit → List SchemaComplaint)
  | [] => []
  | (k, s) :: ps =>
    (fun _ => if hasMember v k then s.complaints t (path ++ SchemaComplaint.segment k) (v.get k)
      else []) :: propertyComplaints t path v ps

end

/-- The complaints of a schema about a value, all of them or up to the first. -/
def check (all : Bool) (s : Schema) (v : Value) : List SchemaComplaint :=
  s.complaints ⟨all, false⟩ "" v

end Schema

end ArgGuard
