/-
  ArgGuard.Outcome — results as values.

  An outcome is a value or an error that is carried, not thrown. `mapped` works on the value
  alone, `unwrapped` hands it out or stops with what was carried; an error that is no error
  object is wrapped in one.
-/

import ArgGuard.Surroundings

namespace ArgGuard

inductive Outcome where
  | ok (v : Value)
  | err (e : Value)
  deriving Repr

namespace Outcome

variable {σ : Type}

def isOk : Outcome → Bool
  | .ok _ => true
  | .err _ => false

def isErr : Outcome → Bool
  | .ok _ => false
  | .err _ => true

/-- The word for the side that an outcome is on. -/
def side : Outcome → String
  | .ok _ => "Ok"
  | .err _ => "Err"

/-- What is carried, value or error. -/
def carried : Outcome → Value
  | .ok v => v
  | .err e => e

/-- Applies a function from outside to the value; an error stays as it is. -/
def mapped (f : Value → Call σ Value) : Outcome → Call σ Outcome
  | .ok v => do return .ok (← f v)
  | .err e => pure (.err e)

/-- The value, or the error thrown. -/
def unwrapped (env : Surroundings σ) : Outcome → Call σ Value
  | .ok v => pure v
  | .err e@(.object _ (.error _) _ _ _) => Call.fail (.foreign .error (e.get "message").text?)
  | .err e => do
    let s ← env.textOf e
    Call.fail (.foreign .error (some ("Called unwrap on an Err value: " ++ s)))

/-- The value, or another in its place. -/
def unwrappedOr (fallback : Value) : Outcome → Value
  | .ok v => v
  | .err _ => fallback

end Outcome

end ArgGuard
