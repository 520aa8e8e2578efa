/-
  ArgGuard.Routine.Complaint — how a routine reports what is wrong.

  Both kinds of routine complain here, so the same fault has the same class, wording and
  context on either. A mismatch asks the capability once more for its reason; a value that
  passes then was rejected by its inline form.
-/

import ArgGuard.Plan

namespace ArgGuard.Plan

variable {σ : Type}

def fail {α : Type} (f : CallFault) : Call σ α := Call.fail (.call f)

/-- What the arguments should have been. -/
def expectation (p : Plan σ) : String :=
  match p.sourceMode with
  | .named => "an object of named arguments"
  | .positional => "an array of arguments"

def complainShape {α : Type} (p : Plan σ) (args : Value) : Call σ α :=
  fail (.shape p.name p.expectation args.describe)

def complainUnknown {α : Type} (p : Plan σ) (key : String) : Call σ α := fail (.unknown key p.name)

def complainExtra {α : Type} (p : Plan σ) (index : Nat) : Call σ α :=
  fail (.extra index p.steps.length p.name)

/-- The step at an index. -/
def stepAt (p : Plan σ) (i : Int) : Call σ (Step σ) :=
  match (if 0 ≤ i then p.steps[i.toNat]? else none) with
  | some s => pure s
  | none =>
    Call.fail (.foreign .range (some (p.name ++ ": no parameter at step " ++ Text.intText i)))

def complainMissing {α : Type} (p : Plan σ) (i : Int) : Call σ α := do
  let s ← p.stepAt i
  fail (.missing s.name s.position p.name)

/-- Why a capability rejects a value. -/
def reasonFor (c : Capability σ) (v : Value) : Call σ Reason := do
  match ← c.check v with
  | .passed => pure "rejected by inline check"
  | .rejected reason => pure reason

def complainMismatch {α : Type} (p : Plan σ) (i : Int) (v : Value) : Call σ α := do
  let s ← p.stepAt i
  let reason ← reasonFor s.type v
  fail (.mismatch s.name (some s.position) p.name s.type.name reason v)

def complainExtraMismatch {α : Type} (p : Plan σ) (key : String) (v : Value) : Call σ α := do
  match p.extras.type? with
  | some t =>
    let reason ← reasonFor t v
    fail (.mismatch key none p.name t.name reason v)
  | none => fail (.mismatch key none p.name "slurpy" "rejected" v)

end ArgGuard.Plan
