/-
  ArgGuard.Options — the options of a validator.

  Options are given as an object with any members, or not at all. They are checked in a
  fixed order and merged onto the defaults: named arguments, mapped output, strict, no
  extra arguments kept, code generation allowed.
-/

import ArgGuard.Surroundings

namespace ArgGuard

/-- How raw arguments arrive. -/
inductive SourceMode where
  | named
  | positional
  deriving DecidableEq, Repr

/-- The shape of the validated values. -/
inductive OutputMode where
  | mapped
  | orderedList
  deriving DecidableEq, Repr

def SourceMode.text : SourceMode → String
  | .named => "named"
  | .positional => "positional"

def OutputMode.text : OutputMode → String
  | .mapped => "mapped"
  | .orderedList => "ordered-list"

def SourceMode.ofText? (s : String) : Option SourceMode :=
  if s = "named" then some .named else if s = "positional" then some .positional else none

def OutputMode.ofText? (s : String) : Option OutputMode :=
  if s = "mapped" then some .mapped else if s = "ordered-list" then some .orderedList else none

/-- What becomes of extra arguments: refused or dropped, kept, or kept and checked. -/
inductive Slurpy (σ : Type) where
  | off
  | on
  | checked (type : Capability σ)

/-- Where log lines go. -/
abbrev Sink (σ : Type) := String → Call σ Unit

structure Options (σ : Type) where
  sourceMode : SourceMode
  outputMode : OutputMode
  strict : Bool
  slurpy : Slurpy σ
  name : String
  codegen : Bool
  debug? : Option (Sink σ)

namespace Options

variable {σ : Type}

/-- A line for the error stream carries the program's mark. -/
def warnSink (env : Surroundings σ) : Sink σ := fun line => env.warn ("[argspec] " ++ line ++ "\n")

/-- The sink that the `debug` option selects. -/
def sink? (env : Surroundings σ) : Value → Option (Sink σ)
  | .function f _ => some fun line => do let _ ← env.run f [.text line]
  | .bool true => some (warnSink env)
  | .bool false => none
  | _ => if env.debugByDefault then some (warnSink env) else none

/-- A mode that was given, read by its text. -/
def mode? {m : Type} (ofText? : String → Option m) (v : Value) : Option m :=
  match v with
  | .text s => ofText? s
  | _ => none

def isBool : Value → Bool
  | .bool _ => true
  | _ => false

/-- Why options are refused: they have no members, one of them is at fault, or a mode is, which
the fault names by its text. -/
inductive Refusal where
  | absent
  | option (f : OptionFault)
  | mode (fault : String → OptionFault) (got : Value)

/-- Stops with what a refusal comes to. -/
def Refusal.raise {α : Type} (env : Surroundings σ) : Refusal → Call σ α
  | .absent => Call.fail .misuse
  | .option f => Call.fail (.option f)
  | .mode fault got => do Call.fail (.option (fault (← env.textOf got)))

/-- Refuses a mode that is given and is none of the known ones. -/
def checkMode {m : Type} (ofText? : String → Option m) (fault : String → OptionFault) (v : Value) :
    Except Refusal Unit :=
  if v.isUndefined || (mode? ofText? v).isSome then .ok () else .error (.mode fault v)

/-- Refuses an option unless a condition holds of it. -/
def require (ok : Bool) (fault : OptionFault) : Except Refusal Unit :=
  if ok then .ok () else .error (.option fault)

/-- Checks every option that is given, and their combination. -/
def validate (v : Value) : Except Refusal Unit :=
  if v.isAbsent then .error .absent
  else do
    let sourceMode := v.get "sourceMode"
    let outputMode := v.get "outputMode"
    let debug := v.get "debug"
    let slurpy := v.get "slurpy"
    checkMode SourceMode.ofText? .sourceMode sourceMode
    checkMode OutputMode.ofText? .outputMode outputMode
    require ((v.get "strict").isUndefined || isBool (v.get "strict")) .strict
    require ((v.get "codegen").isUndefined || isBool (v.get "codegen")) .codegen
    require (debug.isUndefined || isBool debug || debug.isFunction) .debug
    require (slurpy.isUndefined || isBool slurpy || slurpy.isCapability) .slurpy
    require (slurpy.isUndefined || slurpy.identical (.bool false)
      || !sourceMode.identical (.text "positional")
      || outputMode.identical (.text "ordered-list")) .slurpyPositional
    require (match v.get "name" with
      | .undefined => true
      | .text s => s != ""
      | _ => false) .name

def boolOr (default : Bool) : Value → Bool
  | .bool b => b
  | _ => default

/-- Merges the options that are given onto the defaults; no options at all are all defaults. -/
def resolve (env : Surroundings σ) (given : Value) : Except Refusal (Options σ) := do
  let v := if given.isUndefined then Value.record [] else given
  validate v
  .ok {
    sourceMode := (mode? SourceMode.ofText? (v.get "sourceMode")).getD .named
    outputMode := (mode? OutputMode.ofText? (v.get "outputMode")).getD .mapped
    strict := boolOr true (v.get "strict")
    slurpy := match v.get "slurpy" with
      | .bool true => .on
      | s => match env.capability? s with
        | some type => .checked type
        | none => .off
    name := match v.get "name" with
      | .text s => s
      | _ => "validator"
    codegen := boolOr true (v.get "codegen")
    debug? := sink? env (v.get "debug") }

/-- Reads the options that are given. -/
def read (env : Surroundings σ) (given : Value) : Call σ (Options σ) :=
  match resolve env given with
  | .ok o => pure o
  | .error r => r.raise env

end Options

end ArgGuard
