/-
  ArgGuard.Spec.Set — an ordered set of parameters.

  A set is read from a list of definitions, in list order, or from a record, in insertion
  order; a record may not use index texts as names, since enumeration would move them to the
  front. Names are distinct.
-/

import ArgGuard.Spec.Parameter

namespace ArgGuard

structure ParameterSet (σ : Type) where
  specs : List (ParameterSpec σ)

/-- What a set is made from: one that exists, or a value that describes one. -/
inductive Parameters (σ : Type) where
  | set (s : ParameterSet σ)
  | value (v : Value)

namespace ParameterSet

variable {σ : Type}

def size (s : ParameterSet σ) : Nat := s.specs.length

def names (s : ParameterSet σ) : List String := s.specs.map (·.name)

def get? (s : ParameterSet σ) (name : String) : Option (ParameterSpec σ) :=
  s.specs.find? fun p => p.name == name

def has (s : ParameterSet σ) (name : String) : Bool := (s.get? name).isSome

def at? (s : ParameterSet σ) (position : Nat) : Option (ParameterSpec σ) := s.specs[position]?

/-- The first parameter whose name occurred before it. -/
def firstDuplicate? : List String → List (ParameterSpec σ) → Option (ParameterSpec σ)
  | _, [] => none
  | seen, p :: ps => if seen.contains p.name then some p else firstDuplicate? (p.name :: seen) ps

/-- Collects parameters into a set; a hole among them is no parameter. -/
def collect (slots : List (Option (ParameterSpec σ))) : Call σ (ParameterSet σ) :=
  let specs := (slots.takeWhile (·.isSome)).filterMap id
  match firstDuplicate? [] specs with
  | some p => Call.fail (.definition (.duplicateName p.name p.position))
  | none => if specs.length = slots.length then pure ⟨specs⟩ else Call.fail .misuse

/-- Reads the definitions of a list; holes are passed over. -/
def readList (env : Surroundings σ) :
    Nat → List (Option Value) → Call σ (List (Option (ParameterSpec σ)))
  | _, [] => pure []
  | i, none :: r => do return none :: (← readList env (i + 1) r)
  | i, some d :: r => do
    let p ← ParameterSpec.ofDefinition env d i
    return some p :: (← readList env (i + 1) r)

/-- A record's definition as an object with the key as its name. -/
def named (key : String) (definition : Value) : Value :=
  .record (Entries.put "name" (.text key) definition.entries)

/-- Reads a set of parameters. -/
def read (env : Surroundings σ) : Parameters σ → Call σ (ParameterSet σ)
  | .set s => pure s
  | .value (.list items) => do collect (← readList env 0 items)
  | .value v =>
    if v.isObject then
      match List.find? (fun e => Text.isIndexText e.1) v.entries with
      | some e => Call.fail (.definition (.indexName e.1))
      | none => do
        collect (← readList env 0 (v.entries.map fun e => some (named e.1 e.2)))
    else Call.fail (.definition .noParameters)

end ParameterSet

end ArgGuard
