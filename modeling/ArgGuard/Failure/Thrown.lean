/-
  ArgGuard.Failure.Thrown — what stops a computation.

  A computation stops with a fault of this library or with an error that is not its own.
-/

import ArgGuard.Failure.Fault

namespace ArgGuard

/-- The errors that are not this library's own. -/
inductive ErrorKind where
  | error
  | type
  | range
  | reference
  | syntaxError
  deriving DecidableEq, Repr

def ErrorKind.name : ErrorKind → String
  | .error => "Error"
  | .type => "TypeError"
  | .range => "RangeError"
  | .reference => "ReferenceError"
  | .syntaxError => "SyntaxError"

/-- What stops a computation. A foreign error whose wording is not this library's has no
message here. -/
inductive Thrown where
  | definition (f : DefinitionFault)
  | option (f : OptionFault)
  | call (f : CallFault)
  | foreign (kind : ErrorKind) (message : Option String)
  deriving Repr

namespace Thrown

/-- An operation on a value that does not have it. -/
def misuse : Thrown := .foreign .type none

/-- The failure that is shown, if the error is one of this library. -/
def failure? : Thrown → Option Failure
  | .definition f => some f.failure
  | .option f => some f.failure
  | .call f => some f.failure
  | .foreign .. => none

/-- Whether the arguments of a call were at fault. -/
def isValidation (t : Thrown) : Bool :=
  match t.failure? with
  | some f => f.cls.isValidation
  | none => false

theorem isValidation_call (f : CallFault) : (Thrown.call f).isValidation = true := by
  cases f <;> rfl

end Thrown

end ArgGuard
