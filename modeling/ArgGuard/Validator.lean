/-
  ArgGuard.Validator — compiled validators.

  Compiling plans a set of parameters and builds its routine: the specialized program where
  the plan allows it and generated code may run, the generic loop otherwise. A program whose
  text cannot be compiled is a fault of the definition.
-/

import ArgGuard.Descriptor
import ArgGuard.Routine.Execution
import ArgGuard.Routine.Generic
import ArgGuard.Routine.Source

namespace ArgGuard

/-- A routine with the way it was built. -/
structure Built (σ : Type) where
  routine : Value → Call σ Value
  strategy : Strategy
  source? : Option String

structure Validator (σ : Type) where
  name : String
  strategy : Strategy
  sourceMode : SourceMode
  outputMode : OutputMode
  parameters : List String
  descriptor : String
  source? : Option String
  fallback? : Option String
  routine : Value → Call σ Value

/-- Writes a line where there is a sink. -/
def log {σ : Type} (sink? : Option (Sink σ)) (line : String) : Call σ Unit :=
  match sink? with
  | some sink => sink line
  | none => pure ()

namespace Plan

variable {σ : Type}

def builtGeneric (p : Plan σ) : Built σ := ⟨p.generic, .generic, none⟩

/-- Builds the routine of a plan. -/
def build (p : Plan σ) (refusal? : Option String) (sink? : Option (Sink σ)) :
    Call σ (Built σ) :=
  match p.strategy with
  | .generic => do
    log sink? ("build " ++ p.name ++ ": generic (" ++ p.fallback?.getD "no reason" ++ ")")
    return p.builtGeneric
  | .inline =>
    match p.program with
    | .error f => Call.fail (.definition f)
    | .ok g =>
      match refusal? with
      | some reason => do
        log sink? ("build " ++ p.name ++ ": code generation refused (" ++ reason
          ++ "), using generic")
        return p.builtGeneric
      | none =>
        if g.wellFormed then do
          log sink? ("build " ++ p.name ++ ": inline\n" ++ g.source)
          return ⟨p.run g, .inline, some g.source⟩
        else Call.fail (.definition (.badSource p.name (p.steps.map (·.type.name)) g.source))

end Plan

namespace Validator

variable {σ : Type}

/-- Compiles a set of parameters under options. -/
def compile (env : Surroundings σ) (set : ParameterSet σ) (o : Options σ) (descriptor : String) :
    Call σ (Validator σ) := do
  let p := Plan.make set o
  log o.debug? ("compile " ++ p.name ++ " [" ++ (descriptor.take 12).toString ++ "] "
    ++ p.sourceMode.text ++ "->" ++ p.outputMode.text ++ ", " ++ Text.natText p.steps.length
    ++ " parameter(s), strategy " ++ p.strategy.text)
  let b ← p.build env.refusal? o.debug?
  return {
    name := p.name
    strategy := b.strategy
    sourceMode := p.sourceMode
    outputMode := p.outputMode
    parameters := set.names
    descriptor
    source? := b.source?
    fallback? := match b.strategy with
      | .generic => some (p.fallback?.getD "code generation refused")
      | .inline => none
    routine := b.routine }

/-- What a validator is requested for. -/
structure Request (σ : Type) where
  set : ParameterSet σ
  options : Options σ
  descriptor : Descriptor

/-- Reads a request; nothing is compiled yet. -/
def prepare (env : Surroundings σ) (params : Parameters σ) (options : Value) :
    Call σ (Request σ) := do
  let set ← ParameterSet.read env params
  let o ← Options.read env options
  let descriptor ← Descriptor.ofRequest env set o
  return ⟨set, o, descriptor⟩

/-- Compiles without a cache. -/
def ofParameters (env : Surroundings σ) (params : Parameters σ) (options : Value) :
    Call σ (Validator σ) := do
  let r ← prepare env params options
  compile env r.set r.options r.descriptor.digest

/-- Validates arguments; the first violation stops it. -/
def validate (v : Validator σ) (args : Value) : Call σ Value := v.routine args

/-- Validates arguments; a violation is a result, any other error stops it. -/
def safeValidate (v : Validator σ) (args : Value) : Call σ (Except Thrown Value) := do
  match ← Call.attempt (v.validate args) with
  | .ok a => return .ok a
  | .error t => if t.isValidation then return .error t else Call.fail t

/-- Whether arguments pass. -/
def accepts (v : Validator σ) (args : Value) : Call σ Bool := do
  match ← v.safeValidate args with
  | .ok _ => return true
  | .error _ => return false

end Validator

end ArgGuard
