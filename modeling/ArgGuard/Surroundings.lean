/-
  ArgGuard.Surroundings — what the library is run in.

  Functions and capabilities from outside are known by their identity; running one is a
  call. A value that has the shape of a capability is one (`capability?`): a known identity
  gives the capability made here, any other object is asked through its functions.
-/

import ArgGuard.Capability.Basic
import ArgGuard.Identity

namespace ArgGuard

structure Surroundings (σ : Type) where
  /-- Runs a function from outside. -/
  run : Nat → List Value → Call σ Value
  /-- The capabilities made by this library. -/
  known : Nat → Option (Capability σ)
  /-- Writes to the error stream. -/
  warn : String → Call σ Unit
  /-- Whether compilations are logged unless the options say otherwise. -/
  debugByDefault : Bool
  /-- Why generated code may not run, if it may not. -/
  refusal? : Option String
  /-- Where the state keeps the numbers of identities. -/
  identities : σ → Identities
  withIdentities : Identities → σ → σ

namespace Surroundings

variable {σ : Type}

/-- A step on the numbers of identities. -/
def onIdentities {α : Type} (env : Surroundings σ) (f : Identities → Except Thrown α × Identities) :
    Call σ α := fun s =>
  let (r, t) := f (env.identities s)
  (r, env.withIdentities t s)

/-- The text that a message takes a value in by. Functions of the value's own have their say,
and a value that has no text stops the message. -/
def spell (env : Surroundings σ) (v : Value) : Call σ String :=
  v.spell (fun f => env.run f []) (Call.fail .misuse)

/-- The text of a value where it is asked for as text, which a symbol has too. -/
def textOf (env : Surroundings σ) : Value → Call σ String
  | .symbol s => pure (Value.shown s)
  | v => env.spell v

/-- Reads the verdict that a check from outside gave. -/
def readVerdict (env : Surroundings σ) (r : Value) : Call σ Verdict :=
  if r.isAbsent then Call.fail .misuse
  else if (r.get "ok").truthy then pure .passed
  else do return .rejected ⟨r.get "reason", ← env.spell (r.get "reason")⟩

/-- The capability that an object describes by its functions. An inline form from outside gives
no text, so its condition reads as undefined. -/
def described (env : Surroundings σ) (v : Value) (id : Nat) : Capability σ where
  id
  name := match v.get "name" with
    | .text s => s
    | _ => ""
  check x :=
    match v.get "check" with
    | .function f _ => do env.readVerdict (← env.run f [x])
    | _ => Call.fail .misuse
  inline? :=
    match v.get "emitInlineCheck" with
    | .function .. => some (.foreign (fun _ => "undefined") fun _ => false)
    | _ => none
  coerce? :=
    match v.get "coerce" with
    | .function f _ => some fun x => env.run f [x]
    | _ => none

/-- The capability that a value is, if it is one. -/
def capability? (env : Surroundings σ) (v : Value) : Option (Capability σ) :=
  if v.isCapability then
    match v with
    | .object id _ _ _ _ => some ((env.known id).getD (env.described v id))
    | _ => none
  else none

end Surroundings

end ArgGuard
