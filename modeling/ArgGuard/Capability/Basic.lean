/-
  ArgGuard.Capability.Basic — what a parameter's type can do.

  A capability checks a value and may offer an inline form, a fragment that holds exactly
  of the values that pass, and a coercion that runs before the check. Its `id` is the
  identity under which requests for the same validator are recognised.
-/

import ArgGuard.Call
import ArgGuard.Capability.Fragment

namespace ArgGuard

inductive Verdict where
  | passed
  | rejected (reason : Reason)
  deriving Repr

def Verdict.isPassed : Verdict → Bool
  | .passed => true
  | .rejected _ => false

structure Capability (σ : Type) where
  id : Nat
  name : String
  check : Value → Call σ Verdict
  inline? : Option Fragment
  coerce? : Option (Value → Call σ Value)

namespace Capability

variable {σ : Type}

/-- Applies the coercion, if there is one. -/
def coerced (c : Capability σ) (v : Value) : Call σ Value :=
  match c.coerce? with
  | some f => f v
  | none => pure v

/-- Whether the coerced value passes: the value and the verdict. -/
def judge (c : Capability σ) (v : Value) : Call σ (Value × Verdict) := do
  let v ← c.coerced v
  return (v, ← c.check v)

/-- A capability whose check is a function of the value. -/
def ofTest (id : Nat) (name : String) (test : Value → Bool) (reason : Value → String)
    (inline? : Option Fragment) (coerce? : Option (Value → Value)) : Capability σ where
  id
  name
  check v := pure (if test v then .passed else .rejected (reason v))
  inline?
  coerce? := coerce?.map fun f v => pure (f v)

/-- The capability as a value: an object with its name and its functions. -/
def toValue (c : Capability σ) : Value :=
  let method := fun (k : String) => (k, Value.function 0 [])
  .object c.id .plain
    ([("name", .text c.name), method "check"]
      ++ (if c.inline?.isSome then [method "emitInlineCheck"] else [])
      ++ (if c.coerce?.isSome then [method "coerce"] else [])) [] []

end Capability

/-- Whether a value is an object that has the shape of a capability. -/
def Value.isCapability (v : Value) : Bool :=
  let present := fun (k : String) => v.member? k
  let functionIfGiven := fun (k : String) =>
    match present k with
    | none => true
    | some f => f.isUndefined || f.isFunction
  (v.isObject || v.isList)
    && (match present "name" with | some (.text _) => true | _ => false)
    && (match present "check" with | some f => f.isFunction | none => false)
    && functionIfGiven "emitInlineCheck" && functionIfGiven "coerce"

end ArgGuard
