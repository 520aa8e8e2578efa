/-
  ArgGuard.Failure.Basic — failures as they are shown.

  A failure has a class, a message, a code, a severity, a context and perhaps a cause. The
  classes form one tree (`FailureClass.lineage`), and each failure of a call has one wording
  and one context, whose members stand in a fixed order.
-/

import ArgGuard.Failure.Code
import ArgGuard.Value.Text

namespace ArgGuard

/-- The classes of failures; the last two are classes derived from a root and nothing more. -/
inductive FailureClass where
  | definition
  | config
  | missing
  | unknown
  | extra
  | mismatch
  | shape
  | general (name : String)
  | validation (name : String)
  deriving DecidableEq, Repr

namespace FailureClass

def name : FailureClass → String
  | .definition => "SpecDefinitionError"
  | .config => "ConfigError"
  | .missing => "MissingRequiredParameterError"
  | .unknown => "UnknownParameterError"
  | .extra => "ExtraArgumentsError"
  | .mismatch => "TypeMismatchError"
  | .shape => "ArgumentShapeError"
  | .general n => n
  | .validation n => n

/-- The classes that have a wording or a code of their own. -/
def named : List FailureClass :=
  [.definition, .config, .missing, .unknown, .extra, .mismatch, .shape]

def ofName? (s : String) : Option FailureClass := named.find? fun c => c.name = s

/-- Whether failures of the class arise in calls of a validator. -/
def isValidation : FailureClass → Bool
  | .definition => false
  | .config => false
  | .general _ => false
  | _ => true

/-- The classes a failure of this class belongs to, the roots first. -/
def lineage (c : FailureClass) : List String :=
  "ArgSpecError" :: (if c.isValidation then ["ValidationError"] else []) ++
    match c with
    | .extra => ["UnknownParameterError", "ExtraArgumentsError"]
    | .general _ => []
    | .validation _ => []
    | c => [c.name]

end FailureClass

structure Failure where
  cls : FailureClass
  message : String
  code : Code
  severity : String
  context : Value
  cause : Value
  deriving Repr

/-- Why a value was rejected: what the check gave as its reason, and that as text. -/
structure Reason where
  given : Value
  text : String
  deriving Repr

namespace Reason

def ofText (s : String) : Reason := ⟨.text s, s⟩

instance : Coe String Reason := ⟨ofText⟩

theorem ofText_inj {s t : String} : ofText s = ofText t ↔ s = t := by simp [ofText]

end Reason

namespace Failure

/-- A failure of a class that has no wording of its own. -/
def reported (cls : FailureClass) (message : String) (code : Code) (severity : String)
    (context cause : Value) : Failure := ⟨cls, message, code, severity, context, cause⟩

/-- A faulty definition in other words than this library's. -/
def definition (message : String) (code? : Option Code) (context cause : Value) : Failure :=
  reported .definition message (code?.getD (.listed .invalidDefinition)) "error" context cause

/-- A faulty option in other words than this library's. -/
def config (message : String) (context : Value) : Failure :=
  reported .config message (.listed .configuration) "error" context .undefined

def shape (validator expected received : String) : Failure :=
  ⟨.shape, validator ++ ": expected " ++ expected ++ ", received " ++ received,
    .listed .argumentShape, "error",
    .record [("validator", .text validator), ("expected", .text expected),
      ("received", .text received)], .undefined⟩

/-- An unknown parameter; wording, code and position may be given. -/
def unknownAs (parameter validator : String) (message? : Option String) (code? : Option Code)
    (position : Value) : Failure :=
  ⟨.unknown, message?.getD (validator ++ ": unknown parameter \"" ++ parameter ++ "\""),
    code?.getD (.listed .unknownParameter), "error",
    .record [("parameter", .text parameter), ("validator", .text validator),
      ("position", position)], .undefined⟩

def unknown (parameter validator : String) : Failure :=
  unknownAs parameter validator none none .undefined

def extra (index expected : Number) (validator : String) : Failure :=
  ⟨.extra, validator ++ ": expected at most " ++ expected.text ++
      " argument(s), got an extra one at index " ++ index.text,
    .listed .extraArguments, "error",
    .record [("parameter", .text ("[" ++ index.text ++ "]")), ("validator", .text validator),
      ("position", .number index)], .undefined⟩

def missing (parameter : String) (position : Value) (validator : String) : Failure :=
  ⟨.missing, validator ++ ": missing required parameter \"" ++ parameter ++ "\"",
    .listed .missingRequired, "error",
    .record [("parameter", .text parameter), ("position", position),
      ("validator", .text validator)], .undefined⟩

def mismatch (parameter : String) (position : Value) (validator type : String) (reason : Reason)
    (value : Value) : Failure :=
  ⟨.mismatch,
    validator ++ ": parameter \"" ++ parameter ++ "\" failed " ++ type ++ ": " ++ reason.text,
    .listed .typeMismatch, "error",
    .record [("parameter", .text parameter), ("position", position),
      ("validator", .text validator), ("type", .text type), ("reason", reason.given),
      ("value", value)], .undefined⟩

end Failure

end ArgGuard
