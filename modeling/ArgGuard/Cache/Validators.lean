/-
  ArgGuard.Cache.Validators — caches of compiled validators.

  A ticket is a validator's request to one of several caches; each cache knows a request by
  the digest of its descriptor. Log lines go to the sink of the request that they are about.
-/

import ArgGuard.Cache.Basic
import ArgGuard.Validator

namespace ArgGuard

/-- A request to a cache. -/
structure Ticket (σ : Type) where
  cache : Nat
  request : Validator.Request σ

namespace Ticket

variable {σ ν : Type}

/-- What the caches keep a validator under. -/
abbrev Key := Nat × String

def key (t : Ticket σ) : Key := (t.cache, t.request.descriptor.digest)

/-- Reads a request to a cache. -/
def prepare (env : Surroundings σ) (cache : Nat) (params : Parameters σ) (options : Value) :
    Call σ (Ticket σ) := do
  return ⟨cache, ← Validator.prepare env params options⟩

/-- Options to define a validator with; none at all are all defaults. -/
def definedOptions (options : Value) : Value := if options.isAbsent then .record [] else options

/-- Compiles what a ticket asks for. -/
def compile (env : Surroundings σ) (t : Ticket σ) : Call σ (Validator σ) :=
  Validator.compile env t.request.set t.request.options t.request.descriptor.digest

def log (t : Ticket σ) (what : String) : Call σ Unit :=
  ArgGuard.log t.request.options.debug? ("cache " ++ t.request.options.name ++ ": " ++ what)

/-- How caches treat tickets, given what a compilation does. -/
def compiler (script : Ticket σ → Script σ (Ticket σ) ν) (depth : Nat) :
    Compiler σ Key (Ticket σ) ν where
  key
  script
  onHit t := t.log "hit"
  onJoin t := t.log "joining in-flight compilation"
  recursion t := .definition (.recursion t.request.options.name)
  depth

end Ticket

/-- How many entries one of the caches has. -/
def Cache.sizeOf {σ ρ ν : Type} (m : Cache σ Ticket.Key ρ ν) (cache : Nat) : Nat :=
  (m.entries.filter fun e => e.1.1 = cache).length

end ArgGuard
