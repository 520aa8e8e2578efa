/-
  ArgGuard.Failure.Code — stable error codes and the exit statuses they stand for.

  Codes are grouped by phase: definition (E0), validation (E2), configuration (E3) and
  internal (E5). A failure may also carry a code that is not listed; it has no status.
-/

import ArgGuard.Value.Basic

namespace ArgGuard

inductive ErrorCode where
  | duplicateParameter
  | defaultOnRequired
  | invalidDefault
  | invalidDefinition
  | recursiveCompilation
  | validationFailed
  | missingRequired
  | unknownParameter
  | typeMismatch
  | argumentShape
  | extraArguments
  | configuration
  | internal
  deriving DecidableEq, Repr

namespace ErrorCode

/-- All codes in the order of their declaration. -/
def all : List ErrorCode :=
  [.duplicateParameter, .defaultOnRequired, .invalidDefault, .invalidDefinition,
    .recursiveCompilation, .validationFailed, .missingRequired, .unknownParameter, .typeMismatch,
    .argumentShape, .extraArguments, .configuration, .internal]

def id : ErrorCode → String
  | .duplicateParameter => "E001"
  | .defaultOnRequired => "E002"
  | .invalidDefault => "E003"
  | .invalidDefinition => "E010"
  | .recursiveCompilation => "E012"
  | .validationFailed => "E200"
  | .missingRequired => "E201"
  | .unknownParameter => "E202"
  | .typeMismatch => "E203"
  | .argumentShape => "E204"
  | .extraArguments => "E205"
  | .configuration => "E300"
  | .internal => "E500"

/-- The name a code is listed under. -/
def label : ErrorCode → String
  | .duplicateParameter => "DUPLICATE_PARAMETER"
  | .defaultOnRequired => "DEFAULT_ON_REQUIRED"
  | .invalidDefault => "INVALID_DEFAULT"
  | .invalidDefinition => "INVALID_PARAMETER_DEFINITION"
  | .recursiveCompilation => "RECURSIVE_COMPILATION"
  | .validationFailed => "VALIDATION_FAILED"
  | .missingRequired => "MISSING_REQUIRED_PARAMETER"
  | .unknownParameter => "UNKNOWN_PARAMETER"
  | .typeMismatch => "TYPE_MISMATCH"
  | .argumentShape => "ARGUMENT_SHAPE"
  | .extraArguments => "EXTRA_ARGUMENTS"
  | .configuration => "CONFIGURATION_ERROR"
  | .internal => "INTERNAL_ERROR"

def exitStatus : ErrorCode → Nat
  | .duplicateParameter => 10
  | .defaultOnRequired => 11
  | .invalidDefault => 12
  | .invalidDefinition => 20
  | .recursiveCompilation => 22
  | .validationFailed => 40
  | .missingRequired => 41
  | .unknownParameter => 42
  | .typeMismatch => 43
  | .argumentShape => 44
  | .extraArguments => 45
  | .configuration => 50
  | .internal => 99

theorem mem_all (c : ErrorCode) : c ∈ all := by cases c <;> decide

theorem id_injective {c d : ErrorCode} (h : c.id = d.id) : c = d := by
  cases c <;> cases d <;> first | rfl | exact absurd h (by decide)

end ErrorCode

/-- The code of a failure. -/
inductive Code where
  | listed (c : ErrorCode)
  | unlisted (id : String)
  deriving DecidableEq, Repr

namespace Code

def id : Code → String
  | .listed c => c.id
  | .unlisted s => s

def ofId (s : String) : Code :=
  match ErrorCode.all.find? fun c => c.id = s with
  | some c => .listed c
  | none => .unlisted s

def exitStatus? : Code → Option Nat
  | .listed c => some c.exitStatus
  | .unlisted _ => none

theorem ofId_id (c : ErrorCode) : ofId c.id = .listed c := by cases c <;> rfl

/-- The members that the table of exit statuses inherits as every object does. -/
def inheritedMembers : List String :=
  ["constructor", "toString", "toLocaleString", "valueOf", "hasOwnProperty", "isPrototypeOf",
    "propertyIsEnumerable", "__defineGetter__", "__defineSetter__", "__lookupGetter__",
    "__lookupSetter__"]

/-- What the table of exit statuses holds under a key, undefined when it holds nothing. -/
def tableEntry (key : String) : Value :=
  match (ofId key).exitStatus? with
  | some n => .nat n
  | none =>
    if inheritedMembers.contains key then .function 0 []
    else if key = "__proto__" then .object 0 .bare [] [] []
    else .undefined

end Code

end ArgGuard
