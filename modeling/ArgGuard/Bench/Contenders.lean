/-
  ArgGuard.Bench.Contenders — what is measured.

  The same parameters are validated by a specialized validator, by a generic one and by the
  baseline; the sample cases order a present.
-/

import ArgGuard.Bench.Baseline
import ArgGuard.Bench.Iterations
import ArgGuard.Bench.Summary
import ArgGuard.Capability.Combine
import ArgGuard.Capability.Numeric
import ArgGuard.Capability.Scalar
import ArgGuard.Validator

namespace ArgGuard.Bench

variable {σ : Type}

structure Contenders (σ : Type) where
  inline : Value → Call σ Value
  generic : Value → Call σ Value
  naive : Value → Call σ Value

/-- The contenders for a set of parameters, which each of them reads anew. -/
def Contenders.make (env : Surroundings σ) (params : Parameters σ) : Call σ (Contenders σ) := do
  let inline ← Validator.ofParameters env params (.record [("name", .text "bench_inline")])
  let generic ← Validator.ofParameters env params
    (.record [("name", .text "bench_generic"), ("codegen", .bool false)])
  let set ← ParameterSet.read env params
  return ⟨inline.validate, generic.validate, interpret set⟩

/-! ## The sample -/

/-- A parameter of the sample; one with a default is not required. -/
def sampleParameter (name : String) (position : Nat) (type : Capability σ) (required : Bool)
    (default : Default σ) : ParameterSpec σ :=
  { name, position, type, required := .bool required, default }

/-- The parameters of the sample. Their capabilities take identities from `firstId` on. -/
def sampleSet (firstId : Nat) : Except Thrown (ParameterSet σ) := do
  let name := Capability.Scalar.nonEmptyStr.capability firstId
  let count := Capability.Scalar.positiveInt.capability (firstId + 1)
  let text := Capability.Scalar.str.capability (firstId + 2)
  let size ← Capability.Enumeration.capability (firstId + 3) [.text "s", .text "m", .text "l"] none
  .ok ⟨[
    sampleParameter "present_name" 0 name true .none,
    sampleParameter "qty" 1 (Capability.Numeric.wrap (firstId + 4) count) false (.value (.nat 1)),
    sampleParameter "tags" 2 (Capability.arrayOf (firstId + 5) text) false .none,
    sampleParameter "note" 3 text false .none,
    sampleParameter "size" 4 size false (.value (.text "m"))]⟩

structure Case where
  id : String
  label : String
  args : Value

def Case.view (c : Case) : Value :=
  .record [("id", .text c.id), ("label", .text c.label), ("args", c.args)]

def cases : List Case :=
  let name := ("present_name", Value.text "Teddy Bear")
  [⟨"defaults", "required name only, defaults filled", .record [name]⟩,
    ⟨"full", "every parameter supplied", .record [
      name,
      ("qty", .text "22"),
      ("tags", .ofItems [.text "plush", .text "gift"]),
      ("note", .text "wrap it"),
      ("size", .text "l")]⟩]

/-! ## Running -/

/-- A case of one contender, measured and summarized. -/
def runContender (clock : Call σ Number) (c : Case) (n : Iterations)
    (contender : String × (Value → Call σ Value)) : Call σ (Except BenchFault CaseSummary) := do
  let run : Call σ Unit := do
    let _ ← contender.2 c.args
    return ()
  let r ← measure clock run n (.ofNat batchSize)
  return r.bind (summarize c.id contender.1)

/-- A case of all contenders, in this order. -/
def runCase (clock : Call σ Number) (c : Case) (contenders : Contenders σ) (n : Iterations) :
    Call σ (Except BenchFault (List CaseSummary)) := do
  let inline ← runContender clock c n ("inline", contenders.inline)
  let generic ← runContender clock c n ("generic", contenders.generic)
  let naive ← runContender clock c n ("naive", contenders.naive)
  return do .ok [← inline, ← generic, ← naive]

end ArgGuard.Bench
