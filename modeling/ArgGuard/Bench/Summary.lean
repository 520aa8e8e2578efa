/-
  ArgGuard.Bench.Summary — what measurements come to.

  A case is summarized by its rate and two percentiles. The gate compares the specialized
  validator with the generic one case by case and keeps the worst ratio.
-/

import ArgGuard.Bench.Percentile
import ArgGuard.Failure.Parts
import ArgGuard.Number.Shortest
import ArgGuard.Text.Units

namespace ArgGuard.Bench

structure CaseSummary where
  caseId : String
  contender : String
  measuredCount : Nat
  opsPerSecond : Number
  p50Ns : Number
  p95Ns : Number
  deriving DecidableEq, Repr

/-- The mean of samples, zero of none. -/
def mean (samples : List Number) : Number :=
  if samples.isEmpty then .zero
  else (samples.foldl Number.add .zero).div (.ofNat samples.length)

def billion : Number := .ofNat 1000000000

def rate (meanNs : Number) : Number :=
  if Number.zero.lt meanNs then billion.div meanNs else .zero

/-- Summarizes samples in billionths of a second. -/
def summarize (caseId contender : String) (samples : List Number) :
    Except BenchFault CaseSummary := do
  let p50 ← percentile samples (.ofRatio false 1 2)
  let p95 ← percentile samples (.ofRatio false 95 100)
  .ok ⟨caseId, contender, samples.length, rate (mean samples), p50, p95⟩

namespace CaseSummary

/-- A summary as a record. -/
def view (s : CaseSummary) : Value :=
  .record [("caseId", .text s.caseId), ("contender", .text s.contender),
    ("measuredCount", .nat s.measuredCount), ("opsPerSecond", .number s.opsPerSecond),
    ("p50Ns", .number s.p50Ns), ("p95Ns", .number s.p95Ns)]

/-- The summary that a record shows. -/
def ofView {σ : Type} (env : Surroundings σ) (v : Value) : Call σ CaseSummary := do
  return ⟨← env.words v "caseId", ← env.words v "contender",
    ((v.numberAt "measuredCount").truncate?.getD 0).toNat, v.numberAt "opsPerSecond",
    v.numberAt "p50Ns", v.numberAt "p95Ns"⟩

/-- A rate as a whole number. -/
def roundedText (x : Number) : String :=
  match x.nearest? with
  | some n => (Number.ofInt n).text
  | none => x.text

/-- One line per case. -/
def line (s : CaseSummary) : String :=
  String.intercalate " · " [
    "• " ++ Text.padRight s.caseId 10 ++ " " ++ Text.padRight s.contender 8,
    "batches=" ++ Text.natText s.measuredCount,
    "ops/s=" ++ roundedText s.opsPerSecond,
    "p50=" ++ s.p50Ns.fixed 0 ++ "ns",
    "p95=" ++ s.p95Ns.fixed 0 ++ "ns"]

/-- How much faster than its generic counterpart a specialized case is, if there is one to
compare with. -/
def speedup? (all : List CaseSummary) (s : CaseSummary) : Option Number :=
  if s.contender = "inline" then
    match all.find? fun t => t.caseId = s.caseId && t.contender = "generic" with
    | some generic =>
      if generic.opsPerSecond.isZero then none
      else some (s.opsPerSecond.div generic.opsPerSecond)
    | none => none
  else none

end CaseSummary

/-! ## The gate -/

/-- The least speedup that is asked of the specialized validator. -/
def leastSpeedup : Number := .ofNat 1

/-- The worst speedup over all cases, zero when none can be compared. -/
def worstSpeedup (all : List CaseSummary) : Number :=
  match all.filterMap fun s => s.speedup? all with
  | [] => .zero
  | x :: xs => xs.foldl Number.min x

/-- The line that reports the gate. -/
def gateLine (speedup : Number) : String :=
  "Gate summary → inline/generic=" ++ speedup.fixed 2 ++ "x (budget ≥ " ++ leastSpeedup.text ++ "x)"

end ArgGuard.Bench
