/-
  ArgGuard.Bench.Baseline — validation that interprets the parameters on every call.

  The baseline that compiled validators are measured against: named arguments, strict,
  mapped output. It stops at the first fault and has plain messages.
-/

import ArgGuard.Spec.Set

namespace ArgGuard.Bench

inductive BaselineFault where
  | unknown (key : String)
  | missing (name : String)
  | rejected (name reason : String)
  deriving DecidableEq, Repr

namespace BaselineFault

def message : BaselineFault → String
  | .unknown k => "unknown parameter \"" ++ k ++ "\""
  | .missing n => "missing required parameter \"" ++ n ++ "\""
  | .rejected n reason => "\"" ++ n ++ "\": " ++ reason

def thrown (f : BaselineFault) : Thrown := .foreign .error (some f.message)

end BaselineFault

variable {σ : Type}

/-- The value that a parameter is checked with; `none` when it is absent and may be. Only a
value that was supplied is coerced. -/
def candidate (p : ParameterSpec σ) (args : Value) : Call σ (Option Value) :=
  let given := (args.own? p.name).getD .undefined
  if given.isUndefined then
    match p.default with
    | .value v => pure (some v)
    | .factory _ make => do return some (← make)
    | .none =>
      if p.isRequired then Call.fail (BaselineFault.missing p.name).thrown else pure none
  else do return some (← p.type.coerced given)

/-- The output with the parameters from here on. -/
def interpretFrom (args : Value) : List (ParameterSpec σ) → Entries Value → Call σ (Entries Value)
  | [], out => pure out
  | p :: ps, out => do
    match ← candidate p args with
    | none => interpretFrom args ps out
    | some v =>
      match ← p.type.check v with
      | .passed => interpretFrom args ps (if v.isUndefined then out else Entries.put p.name v out)
      | .rejected reason => Call.fail (BaselineFault.rejected p.name reason.text).thrown

/-- Validates arguments by interpretation. -/
def interpret (set : ParameterSet σ) (args : Value) : Call σ Value :=
  if args.isAbsent then Call.fail .misuse
  else
    match List.find? (fun e => !set.has e.1) args.entries with
    | some e => Call.fail (BaselineFault.unknown e.1).thrown
    | none => do return .record (← interpretFrom args set.specs [])

end ArgGuard.Bench
