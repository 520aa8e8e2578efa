/-
  ArgGuard.Capability.Schema — capabilities from JSON schemas.

  What a schema means is up to a schema compiler, which is code from outside and a parameter
  here. It is asked once to compile the schema, when the capability is made; the check asks
  what it made, and for the text of the errors of a value that is not valid. There is no
  inline form.
-/

import ArgGuard.Capability.Basic

namespace ArgGuard

/-- What validating a value by a compiled schema comes to. -/
structure Validation where
  valid : Bool
  /-- The errors of a value that is not valid. -/
  errors : Value
  /-- What is left of the value; a compiler may be told to fill in and convert members. -/
  left : Value

/-- What a schema was compiled to. -/
abbrev CompiledSchema (σ : Type) := Value → Call σ Validation

/-- A compiler of schemas. One that cannot compile a schema says why. -/
structure SchemaCompiler (σ : Type) where
  compile : Value → Except String (CompiledSchema σ)
  errorsText : Value → Call σ String

namespace Capability

variable {σ : Type}

/-- The name of a schema's capability: one that is given, else the title unless it is empty. -/
def schemaName (name? : Option String) (schema : Value) : Except Thrown String :=
  match name? with
  | some n => .ok n
  | none =>
    if schema.isAbsent then .error .misuse
    else
      match schema.get "title" with
      | .text s => .ok (if s = "" then "schema" else s)
      | _ => .ok "schema"

/-- Whether a schema asks to be checked asynchronously; null cannot be looked into. -/
def isAsyncSchema (schema : Value) : Except Thrown Bool :=
  match schema with
  | .null => .error .misuse
  | s => .ok ((s.isObject || s.isList) && (s.get "$async").identical (.bool true))

/-- Asks a compiled schema for a verdict. Values are data here: a compiler that changes them in
place changes what the caller holds, which a verdict does not tell. -/
def checkSchema (compiler : SchemaCompiler σ) (validate : CompiledSchema σ) (v : Value) : Call σ Verdict := do
  let r ← validate v
  if r.valid then return .passed
  else return .rejected (.ofText (← compiler.errorsText r.errors))

/-- The capability of a schema. -/
def ofSchema (id : Nat) (compiler : SchemaCompiler σ) (schema : Value) (name? : Option String) :
    Except Thrown (Capability σ) := do
  let name ← schemaName name? schema
  if ← isAsyncSchema schema then .error (.definition (.asyncSchema name))
  else
    match compiler.compile schema with
    | .error detail => .error (.definition (.badSchema name detail))
    | .ok validate =>
      .ok { id, name, check := checkSchema compiler validate, inline? := none, coerce? := none }

end Capability

end ArgGuard
