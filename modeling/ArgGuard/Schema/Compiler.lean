/-
  ArgGuard.Schema.Compiler — a schema compiler.

  It knows the schemas of `Schema.read?` and no others. An error is an object with the path of
  the part it is about and a message, and with `all` a value that is not valid has all of its
  errors listed.
-/

import ArgGuard.Capability.Schema
import ArgGuard.Schema.Complaint
import ArgGuard.Schema.Reading

namespace ArgGuard

namespace SchemaComplaint

/-- A complaint as an error of the compiler. -/
def view (c : SchemaComplaint) : Value :=
  .record [("instancePath", .text c.path), ("message", .text c.message)]

/-- The text of one error. -/
def errorText (e : Value) : String :=
  "value" ++ ((e.get "instancePath").text?).getD "" ++ " " ++ ((e.get "message").text?).getD ""

end SchemaComplaint

namespace Schema

/-- The text of errors, in their order. -/
def errorsText : Value → String
  | .list items => String.intercalate ", " ((Value.itemValues items).map SchemaComplaint.errorText)
  | _ => "No errors"

/-- The compiler of the schemas that can be read here. -/
def compiler {σ : Type} (all : Bool) : SchemaCompiler σ where
  compile schema :=
    match read? schema with
    | none => .error ""
    | some s => .ok fun v =>
      let complaints := s.check all v
      pure ⟨complaints.isEmpty, .ofItems (complaints.map (·.view)), v⟩
  errorsText errors := pure (errorsText errors)

end Schema

end ArgGuard
