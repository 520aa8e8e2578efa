/-
  ArgGuard.Plan — how a set of parameters is validated.

  A plan lists one step per parameter and what happens to extra arguments, and chooses one
  strategy for all: a specialized routine when code generation is allowed and every
  capability involved has an inline form, else the generic one, with the reason.
-/

import ArgGuard.Options
import ArgGuard.Spec.Set

namespace ArgGuard

/-- Where a step finds its argument. -/
inductive Fetch where
  | key (k : String)
  | index (i : Nat)
  deriving DecidableEq, Repr

structure Step (σ : Type) where
  name : String
  position : Nat
  fetch : Fetch
  required : Value
  default : Default σ
  type : Capability σ

def Step.isRequired {σ : Type} (s : Step σ) : Bool := s.required.truthy

def Step.inline {σ : Type} (s : Step σ) : Bool := s.type.inline?.isSome

/-- What happens to arguments outside the declared ones. -/
inductive Extras (σ : Type) where
  | reject
  | ignore
  | keep (type? : Option (Capability σ))

namespace Extras

variable {σ : Type}

def type? : Extras σ → Option (Capability σ)
  | .keep t => t
  | _ => none

def isReject : Extras σ → Bool
  | .reject => true
  | _ => false

def isKeep : Extras σ → Bool
  | .keep _ => true
  | _ => false

/-- Whether kept arguments need nothing that has no inline form. -/
def inline (x : Extras σ) : Bool :=
  match x.type? with
  | some t => t.inline?.isSome
  | none => true

end Extras

inductive Strategy where
  | inline
  | generic
  deriving DecidableEq, Repr

def Strategy.text : Strategy → String
  | .inline => "inline"
  | .generic => "generic"

structure Plan (σ : Type) where
  name : String
  sourceMode : SourceMode
  outputMode : OutputMode
  steps : List (Step σ)
  extras : Extras σ
  strategy : Strategy
  /-- Why the generic strategy was chosen, when it was. -/
  fallback? : Option String

namespace Plan

variable {σ : Type}

def declared (p : Plan σ) : List String := p.steps.map (·.name)

def step (mode : SourceMode) (spec : ParameterSpec σ) : Step σ where
  name := spec.name
  position := spec.position
  fetch := match mode with
    | .named => .key spec.name
    | .positional => .index spec.position
  required := spec.required
  default := spec.default
  type := spec.type

def extrasOf (o : Options σ) : Extras σ :=
  match o.slurpy with
  | .on => .keep none
  | .checked t => .keep (some t)
  | .off => if o.sourceMode = .named ∧ o.strict = false then .ignore else .reject

/-- Why a plan cannot be specialized, if it cannot. -/
def fallbackOf (steps : List (Step σ)) (extras : Extras σ) (codegen : Bool) : Option String :=
  if codegen = false then some "code generation disabled"
  else
    match steps.find? fun s => !s.inline with
    | some s =>
      some ("parameter \"" ++ s.name ++ "\" uses " ++ s.type.name ++ ", which has no inline check")
    | none =>
      match extras.type? with
      | some t =>
        if t.inline?.isSome then none
        else some ("slurpy capability " ++ t.name ++ " has no inline check")
      | none => none

def make (set : ParameterSet σ) (o : Options σ) : Plan σ :=
  let steps := set.specs.map (step o.sourceMode)
  let extras := extrasOf o
  let fallback? := fallbackOf steps extras o.codegen
  { name := o.name, sourceMode := o.sourceMode, outputMode := o.outputMode, steps, extras,
    strategy := if fallback?.isSome then .generic else .inline, fallback? }

end Plan

end ArgGuard
