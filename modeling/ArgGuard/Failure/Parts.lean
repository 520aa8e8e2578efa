/-
  ArgGuard.Failure.Parts — failures from their parts.

  A failure may be made from a record of its parts: what its class needs is read by name,
  words as text. A class with a wording of its own takes the parts of that wording, any
  other the message itself.
-/

import ArgGuard.Surroundings

namespace ArgGuard

variable {σ : Type}

namespace Surroundings

/-- A member as words. -/
def words (env : Surroundings σ) (v : Value) (k : String) : Call σ String := env.spell (v.get k)

/-- A member as words, if it is there. -/
def words? (env : Surroundings σ) (v : Value) (k : String) : Call σ (Option String) :=
  if (v.get k).isAbsent then pure none else do return some (← env.words v k)

end Surroundings

/-- A member as a number, NaN when it is none. -/
def Value.numberAt (v : Value) (k : String) : Number :=
  match v.get k with
  | .number x => x
  | _ => .nan

namespace Failure

/-- The failure of a class that has these parts, which are asked for in the order in which its
wording takes them in. -/
def ofParts (env : Surroundings σ) (cls : FailureClass) (parts : Value) : Call σ Failure := do
  let code? := (← env.words? parts "errorCode").map Code.ofId
  let message? ← env.words? parts "message"
  let message := message?.getD ""
  let context := parts.get "context"
  let cause := parts.get "cause"
  let position := parts.get "position"
  match cls with
  | .definition => return definition message code? context cause
  | .config => return config message context
  | .missing =>
    let validator ← env.words parts "validator"
    return missing (← env.words parts "parameter") position validator
  | .unknown =>
    let validator ← env.words parts "validator"
    return unknownAs (← env.words parts "parameter") validator message? code? position
  | .extra =>
    return extra (parts.numberAt "index") (parts.numberAt "expected") (← env.words parts "validator")
  | .mismatch =>
    let validator ← env.words parts "validator"
    let parameter ← env.words parts "parameter"
    let type ← env.words parts "type"
    let reason : Reason := ⟨parts.get "reason", ← env.words parts "reason"⟩
    return mismatch parameter position validator type reason (parts.get "value")
  | .shape =>
    return shape (← env.words parts "validator") (← env.words parts "expected") (← env.words parts "received")
  | cls =>
    let severity := (← env.words? parts "severity").getD "error"
    return reported cls message (code?.getD (.unlisted "")) severity context cause

end Failure

end ArgGuard
