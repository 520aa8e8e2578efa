/-
  ArgGuard.Failure.Report — how failures are shown.

  `serialize` is the structured form for logs: in production the context's `value` is
  replaced by a mark, which then stands last. `userView` is the minimal form for the outside.
-/

import ArgGuard.Failure.Thrown

namespace ArgGuard

inductive Audience where
  | development
  | production
  deriving DecidableEq, Repr

namespace Failure

/-- A context without its value. Only an object can be asked whether it has one. -/
def redact (context : Value) : Except Thrown Value :=
  if !context.truthy then .ok context
  else if context.isObject || context.isFunction || context.isList then
    if (context.member? "value").isSome then
      let rest := Entries.erase "value" context.entries
      .ok (.record (rest ++ [("value", .text "[REDACTED]")]))
    else .ok context
  else .error .misuse

/-- The cause of a failure by name and message, undefined when there is none. -/
def causeView (cause : Value) : Value :=
  if cause.truthy then .record [("name", cause.get "name"), ("message", cause.get "message")]
  else .undefined

/-- The structured form of a failure, without the stack that development adds. -/
def serialize (f : Failure) (audience : Audience) : Except Thrown Value := do
  let context ← match audience with
    | .development => .ok f.context
    | .production => redact f.context
  .ok (.record [("name", .text f.cls.name), ("message", .text f.message),
    ("errorCode", .text f.code.id), ("severity", .text f.severity), ("context", context),
    ("cause", causeView f.cause)])

/-- A member of the context; nothing is read from an absent context. -/
def contextMember (f : Failure) (k : String) : Value :=
  if f.context.isAbsent then .undefined else f.context.get k

/-- The form that is safe to show outside. -/
def userView (f : Failure) : Value :=
  .record [("message", .text f.message), ("code", .text f.code.id),
    ("severity", .text f.severity), ("parameter", f.contextMember "parameter")]

/-- The parameter at fault; only failures of calls have one. -/
def parameter (f : Failure) : Value :=
  if f.cls.isValidation then
    let p := f.contextMember "parameter"
    if p.isAbsent then .text "" else p
  else .undefined

/-- The reason a value was rejected for; only mismatches have one. -/
def reason (f : Failure) : Value :=
  if f.cls = .mismatch then
    let r := f.contextMember "reason"
    if r.isAbsent then .text "" else r
  else .undefined

end Failure

/-! ## Caught values

  Whether something that was caught is a failure of this library is a question of its class. -/

def Value.isFailure (v : Value) : Bool := v.isInstance "ArgSpecError"

def Value.isValidationFailure (v : Value) : Bool := v.isInstance "ValidationError"

end ArgGuard
