/-
  ArgGuard.Descriptor — what makes two requests the same.

  A descriptor is the canonical text of a set of parameters with its options: names, order
  and flags, capabilities and factories by identity, static defaults by type and text, and
  the options but for logging. Its digest is the key of the validator cache.
-/

import ArgGuard.Canonical
import ArgGuard.Digest
import ArgGuard.Options
import ArgGuard.Spec.Set

namespace ArgGuard

structure Descriptor where
  digest : String
  canonical : String
  deriving DecidableEq, Repr

namespace Descriptor

variable {σ : Type}

/-- The canonical text of a value with its digest. -/
def ofValue (v : Value) : Except Thrown Descriptor := do
  let canonical ← Canonical.text v
  .ok ⟨Digest.sha256 canonical, canonical⟩

/-- The text by which a static default is described, the one it told of itself if it did; the two
zeros are told apart. -/
def content? (own? : Option String) : Value → Option String
  | .number x => some (if x.isNegativeZero then "-0" else x.text)
  | v => own?.or v.text?

/-- A static default by type and text; symbols by identity. -/
def describeValue (t : Identities) (own? : Option String) : Value → Except Thrown Value × Identities
  | .null => (.ok (.record [("kind", .text "null")]), t)
  | .symbol s =>
    let (n, t) := t.number (.symbol s.id)
    (.ok (.record [("kind", .text "symbol"), ("id", .nat n)]), t)
  | v =>
    match content? own? v with
    | some s => (.ok (.record [("kind", .text v.typeName), ("value", .text s)]), t)
    | none => (.error .misuse, t)

def describeDefault (t : Identities) (own? : Option String) :
    Default σ → Except Thrown Value × Identities
  | .none => (.ok .null, t)
  | .value v =>
    let (r, t) := describeValue t own? v
    (r.map fun d => .record [("value", d)], t)
  | .factory source _ =>
    let (n, t) := t.number (.function source)
    (.ok (.record [("factory", .nat n)]), t)

def describeType (t : Identities) (c : Capability σ) : Value × Identities :=
  let (n, t) := t.number (.object c.id)
  (.record [("name", .text c.name), ("id", .nat n)], t)

/-- What static defaults told as their texts, by the names of their parameters. -/
abbrev Told := Entries String

def describeSpec (t : Identities) (told : Told) (p : ParameterSpec σ) :
    Except Thrown Value × Identities :=
  let (type, t) := describeType t p.type
  let (default, t) := describeDefault t (told.find? p.name) p.default
  (default.map fun d => .record [("name", .text p.name), ("position", .nat p.position),
    ("required", p.required), ("type", type), ("default", d)], t)

def describeSpecs (t : Identities) (told : Told) :
    List (ParameterSpec σ) → Except Thrown (List Value) × Identities
  | [] => (.ok [], t)
  | p :: ps =>
    match describeSpec t told p with
    | (.error e, t) => (.error e, t)
    | (.ok d, t) =>
      let (ds, t) := describeSpecs t told ps
      (ds.map (d :: ·), t)

def describeSlurpy (t : Identities) : Slurpy σ → Value × Identities
  | .off => (.bool false, t)
  | .on => (.bool true, t)
  | .checked c => describeType t c

/-- What a set of parameters with its options is described by. -/
def view (t : Identities) (set : ParameterSet σ) (o : Options σ) (told : Told := []) :
    Except Thrown Value × Identities :=
  match describeSpecs t told set.specs with
  | (.error e, t) => (.error e, t)
  | (.ok ds, t) =>
    let (slurpy, t) := describeSlurpy t o.slurpy
    (.ok (.record [("parameters", .ofItems ds), ("sourceMode", .text o.sourceMode.text),
      ("outputMode", .text o.outputMode.text), ("strict", .bool o.strict), ("slurpy", slurpy),
      ("name", .text o.name), ("codegen", .bool o.codegen)]), t)

/-- The descriptor of a set of parameters with its options. -/
def describe (t : Identities) (set : ParameterSet σ) (o : Options σ) (told : Told := []) :
    Except Thrown Descriptor × Identities :=
  match view t set o told with
  | (.ok v, t) => (ofValue v, t)
  | (.error e, t) => (.error e, t)

/-- Static defaults that are functions are asked for their texts. What stands before such a default
is numbered by then, and stays so if it stops. -/
def askDefaults (env : Surroundings σ) : List (ParameterSpec σ) → Call σ Told
  | [] => pure []
  | p :: ps => do
    env.onIdentities fun t => (.ok (), (describeSpec t [] p).2)
    match p.default with
    | .value (.function f own) =>
      let text ← env.textOf (.function f own)
      return (p.name, text) :: (← askDefaults env ps)
    | _ => askDefaults env ps

/-- The descriptor of a set of parameters with its options, whose entities are numbered. -/
def ofRequest (env : Surroundings σ) (set : ParameterSet σ) (o : Options σ) : Call σ Descriptor := do
  let told ← askDefaults env set.specs
  env.onIdentities fun t => describe t set o told

end Descriptor

end ArgGuard
