/-
  ArgGuard.Failure.Fault — why something failed.

  A fault lies in a definition, in the options or in the arguments of a call. Each has one
  wording, one code and one context (`DefinitionFault.failure`, `OptionFault.failure`,
  `CallFault.failure`).
-/

import ArgGuard.Failure.Basic

namespace ArgGuard

/-! ## Faults of definitions -/

inductive DefinitionFault where
  | unnamed (position : Nat)
  | reservedName (name : String) (position : Nat)
  | noCapability (name : String) (position : Nat)
  | requiredAndOptional (name : String) (position : Nat)
  | defaultOnRequired (name : String) (position : Nat)
  | objectDefault (name : String) (position : Nat)
  | rejectedDefault (name : String) (position : Nat) (type : String) (reason : Reason) (value : Value)
  | duplicateName (name : String) (position : Nat)
  | noParameters
  | indexName (name : String)
  | noInlineForm (type : String)
  | emptyUnion
  | asyncSchema (name : String)
  | badSchema (name detail : String)
  | badSource (validator : String) (types : List String) (source : String)
  | recursion (validator : String)
  deriving Repr

namespace DefinitionFault

def message : DefinitionFault → String
  | .unnamed p => "parameter at position " ++ Text.natText p ++ " needs a non-empty string name"
  | .reservedName n _ => "\"" ++ n ++ "\" cannot be used as a parameter name"
  | .noCapability n _ =>
    "parameter \"" ++ n ++ "\" needs a type capability with a name and a check function"
  | .requiredAndOptional n _ => "parameter \"" ++ n ++ "\" cannot be both required and optional"
  | .defaultOnRequired n _ => "parameter \"" ++ n ++ "\" is required and cannot have a default"
  | .objectDefault n _ =>
    "default for parameter \"" ++ n ++
      "\" is an object; pass a factory such as () => value so each call gets its own copy"
  | .rejectedDefault n _ type reason _ =>
    "default for parameter \"" ++ n ++ "\" failed " ++ type ++ ": " ++ reason.text
  | .duplicateName n _ => "duplicate parameter name \"" ++ n ++ "\""
  | .noParameters => "parameters must be a list of definitions or a record"
  | .indexName n =>
    "parameter \"" ++ n ++
      "\" has an integer-like name, which a record cannot keep in declaration order; use a list of definitions"
  | .noInlineForm type =>
    type ++ " has no inline check; the plan should have taken the generic path"
  | .emptyUnion => "union needs at least one member capability"
  | .asyncSchema n => n ++ ": asynchronous schemas cannot back a type capability"
  | .badSchema n detail => n ++ ": schema does not compile: " ++ detail
  | .badSource v types _ =>
    v ++ ": generated validator does not compile; check the inline fragments of " ++
      String.intercalate ", " types
  | .recursion v => v ++ ": validator requested again while it is being compiled"

def code : DefinitionFault → ErrorCode
  | .defaultOnRequired .. => .defaultOnRequired
  | .objectDefault .. => .invalidDefault
  | .rejectedDefault .. => .invalidDefault
  | .duplicateName .. => .duplicateParameter
  | .recursion _ => .recursiveCompilation
  | _ => .invalidDefinition

def parameterContext (name : String) (position : Nat) : Value :=
  .record [("parameter", .text name), ("position", .nat position)]

def context : DefinitionFault → Value
  | .unnamed p => .record [("position", .nat p)]
  | .reservedName n p => parameterContext n p
  | .noCapability n p => parameterContext n p
  | .requiredAndOptional n p => parameterContext n p
  | .defaultOnRequired n p => parameterContext n p
  | .objectDefault n p => parameterContext n p
  | .rejectedDefault n p _ reason value =>
    .record [("parameter", .text n), ("position", .nat p), ("reason", reason.given), ("value", value)]
  | .duplicateName n p => parameterContext n p
  | .noParameters => .undefined
  | .indexName n => .record [("parameter", .text n)]
  | .noInlineForm _ => .undefined
  | .emptyUnion => .undefined
  | .asyncSchema n => .record [("validator", .text n)]
  | .badSchema n _ => .record [("validator", .text n)]
  | .badSource v _ source => .record [("validator", .text v), ("source", .text source)]
  | .recursion v => .record [("validator", .text v)]

/-- The error behind a fault, undefined when there is none. -/
def cause : DefinitionFault → Value
  | .badSchema _ detail => .object 0 (.error "Error") [] [("message", .text detail)] []
  | .badSource .. => .object 0 (.error "SyntaxError") [] [] []
  | _ => .undefined

def failure (f : DefinitionFault) : Failure :=
  ⟨.definition, f.message, .listed f.code, "error", f.context, f.cause⟩

end DefinitionFault

/-! ## Faults of options -/

/-- An option that is refused; `got` is the text of the refused value. -/
inductive OptionFault where
  | sourceMode (got : String)
  | outputMode (got : String)
  | strict
  | codegen
  | debug
  | slurpy
  | slurpyPositional
  | name
  deriving DecidableEq, Repr

namespace OptionFault

def message : OptionFault → String
  | .sourceMode got => "sourceMode must be one of named, positional, got " ++ got
  | .outputMode got => "outputMode must be one of mapped, ordered-list, got " ++ got
  | .strict => "strict must be a boolean"
  | .codegen => "codegen must be a boolean"
  | .debug => "debug must be a boolean or a function"
  | .slurpy => "slurpy must be a boolean or a type capability"
  | .slurpyPositional => "slurpy positional arguments need outputMode \"ordered-list\""
  | .name => "name must be a non-empty string"

/-- The option at fault. -/
def option : OptionFault → String
  | .sourceMode _ => "sourceMode"
  | .outputMode _ => "outputMode"
  | .strict => "strict"
  | .codegen => "codegen"
  | .debug => "debug"
  | .slurpy => "slurpy"
  | .slurpyPositional => "slurpy"
  | .name => "name"

def failure (f : OptionFault) : Failure :=
  ⟨.config, f.message, .listed .configuration, "error",
    .record [("option", .text f.option)], .undefined⟩

end OptionFault

/-! ## Faults of calls -/

inductive CallFault where
  | shape (validator expected received : String)
  | unknown (parameter validator : String)
  | extra (index expected : Nat) (validator : String)
  | missing (parameter : String) (position : Nat) (validator : String)
  | mismatch (parameter : String) (position : Option Nat) (validator type : String)
      (reason : Reason) (value : Value)
  deriving Repr

def CallFault.failure : CallFault → Failure
  | .shape v e r => .shape v e r
  | .unknown p v => .unknown p v
  | .extra i e v => .extra (.ofNat i) (.ofNat e) v
  | .missing p i v => .missing p (.nat i) v
  | .mismatch p i v t r x => .mismatch p ((i.map Value.nat).getD .undefined) v t r x

end ArgGuard
