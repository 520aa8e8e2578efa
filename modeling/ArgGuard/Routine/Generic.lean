/-
  ArgGuard.Routine.Generic — validation by a loop over the steps of a plan.

  Arguments of the wrong shape and refused extra arguments are reported first, then each
  step in declaration order settles its value, and the extra arguments that are kept come
  last.
-/

import ArgGuard.Routine.Complaint

namespace ArgGuard.Plan

variable {σ : Type}

/-- The argument of a step, undefined when there is none. -/
def fetch (s : Step σ) (args : Value) : Value :=
  match args, s.fetch with
  | .list items, .index i => (items.getD i none).getD .undefined
  | .list _, .key _ => .undefined
  | _, .index _ => .undefined
  | args, .key k => (args.own? k).getD .undefined

/-- Passes a value through coercion and check, with a way to complain. -/
def screen (type : Capability σ) (v : Value) (complain : Value → Call σ Value) : Call σ Value := do
  let v ← type.coerced v
  match ← type.check v with
  | .passed => pure v
  | .rejected _ => complain v

/-- The value that a step settles on. -/
def settle (p : Plan σ) (i : Nat) (s : Step σ) (args : Value) : Call σ Value :=
  let v := fetch s args
  if v.isUndefined then
    match s.default with
    | .value d => pure d
    | .factory _ make => do screen s.type (← make) (p.complainMismatch i)
    | .none => if s.isRequired then p.complainMissing i else pure .undefined
  else screen s.type v (p.complainMismatch i)

/-- The values of the steps from the `i`-th on, in declaration order. -/
def settleFrom (p : Plan σ) (args : Value) : Nat → List (Step σ) → Call σ (List Value)
  | _, [] => pure []
  | i, s :: ss => do
    let v ← p.settle i s args
    return v :: (← settleFrom p args (i + 1) ss)

/-- The values that are there, under the names of their steps. -/
def toMapped : List (Step σ) → List Value → Entries Value → Entries Value
  | s :: ss, v :: vs, out =>
    toMapped ss vs (if v.isUndefined then out else Entries.put s.name v out)
  | _, _, out => out

/-- A value outside the declared ones, checked when a capability is given. -/
def screenExtra (p : Plan σ) (label : String) (v : Value) : Call σ Value :=
  match p.extras.type? with
  | some t => screen t v (p.complainExtraMismatch label)
  | none => pure v

/-- Adds the undeclared entries to a record. -/
def collectNamed (p : Plan σ) : Entries Value → Entries Value → Call σ (Entries Value)
  | [], out => pure out
  | (k, v) :: es, out =>
    if p.declared.contains k then collectNamed p es out
    else do
      let v ← p.screenExtra k v
      collectNamed p es (Entries.put k v out)

/-- The undeclared items from the `i`-th on. -/
def collectItems (p : Plan σ) : Nat → List (Option Value) → Call σ (List Value)
  | _, [] => pure []
  | i, o :: r => do
    let v ← p.screenExtra ("[" ++ Text.natText i ++ "]") (o.getD .undefined)
    return v :: (← collectItems p (i + 1) r)

def genericNamed (p : Plan σ) (args : Value) : Call σ Value :=
  if !(args.isObject) then p.complainShape args
  else do
    if p.extras.isReject then
      match List.find? (fun e => !p.declared.contains e.1) args.entries with
      | some e => p.complainUnknown e.1
      | none => pure ()
    let values ← p.settleFrom args 0 p.steps
    match p.outputMode with
    | .mapped =>
      let out := toMapped p.steps values []
      if p.extras.isKeep then return .record (← p.collectNamed args.entries out)
      else return .record out
    | .orderedList =>
      if p.extras.isKeep then
        return .ofItems (values ++ [.record (← p.collectNamed args.entries [])])
      else return .ofItems values

def genericPositional (p : Plan σ) (args : Value) : Call σ Value :=
  match args with
  | .list items => do
    if p.extras.isReject && p.steps.length < items.length then p.complainExtra p.steps.length
    let values ← p.settleFrom args 0 p.steps
    match p.outputMode with
    | .mapped => return .record (toMapped p.steps values [])
    | .orderedList =>
      if p.extras.isKeep then
        return .ofItems (values ++ (← p.collectItems p.steps.length (items.drop p.steps.length)))
      else return .ofItems values
  | args => p.complainShape args

/-- Validates arguments. -/
def generic (p : Plan σ) (args : Value) : Call σ Value :=
  match p.sourceMode with
  | .named => p.genericNamed args
  | .positional => p.genericPositional args

end ArgGuard.Plan
