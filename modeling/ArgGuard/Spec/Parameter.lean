/-
  ArgGuard.Spec.Parameter — the description of one parameter.

  A definition is read once, and whatever is wrong with it is a fault then, never in a call.
  A static default is coerced and checked here and is no object; a default that is a
  function is a factory, which every call that needs the default runs anew.
-/

import ArgGuard.Surroundings

namespace ArgGuard

/-- What stands in for an absent argument. `source` is the identity of a factory. -/
inductive Default (σ : Type) where
  | none
  | value (v : Value)
  | factory (source : Nat) (make : Call σ Value)

namespace Default

variable {σ : Type}

def kind : Default σ → String
  | .none => "none"
  | .value _ => "value"
  | .factory .. => "factory"

def isGiven : Default σ → Bool
  | .none => false
  | _ => true

end Default

/-- A parameter as declared. `required` is the flag as it was given, or the one that follows
from the rest of the definition; a flag that is no boolean counts by its truth. -/
structure ParameterSpec (σ : Type) where
  name : String
  position : Nat
  type : Capability σ
  required : Value
  default : Default σ

namespace ParameterSpec

variable {σ : Type}

def isRequired (p : ParameterSpec σ) : Bool := p.required.truthy

def isOptional (p : ParameterSpec σ) : Bool := !p.isRequired

/-- The one text that no parameter may have as its name. -/
def reservedName : String := "__proto__"

/-- Settles the default of a parameter from what its definition gives. -/
def settleDefault (env : Surroundings σ) (name : String) (position : Nat) (type : Capability σ)
    (given : Value) : Call σ (Default σ) :=
  match given with
  | .function f _ => pure (.factory f (env.run f []))
  | given => do
    let v ← type.coerced given
    if v.isObject || v.isList then Call.fail (.definition (.objectDefault name position))
    else
      match ← type.check v with
      | .passed => pure (.value v)
      | .rejected reason =>
        Call.fail (.definition (.rejectedDefault name position type.name reason v))

/-- Reads a definition at a position. -/
def ofDefinition (env : Surroundings σ) (definition : Value) (position : Nat) :
    Call σ (ParameterSpec σ) :=
  let isTrue := fun (v : Value) => v.identical (.bool true)
  if definition.isAbsent then Call.fail .misuse
  else
    match definition.get "name" with
    | .text name =>
      if name = "" then Call.fail (.definition (.unnamed position))
      else if name = reservedName then Call.fail (.definition (.reservedName name position))
      else
        match env.capability? (definition.get "type") with
        | none => Call.fail (.definition (.noCapability name position))
        | some type =>
          let required := definition.get "required"
          let optional := definition.get "optional"
          let given := definition.get "default"
          if isTrue required && isTrue optional then
            Call.fail (.definition (.requiredAndOptional name position))
          else if isTrue required && !given.isUndefined then
            Call.fail (.definition (.defaultOnRequired name position))
          else do
            let required := if required.isAbsent
              then .bool !(isTrue optional || !given.isUndefined) else required
            let default ← if given.isUndefined then pure .none
              else settleDefault env name position type given
            pure { name, position, type, required, default }
    | _ => Call.fail (.definition (.unnamed position))

end ParameterSpec

end ArgGuard
