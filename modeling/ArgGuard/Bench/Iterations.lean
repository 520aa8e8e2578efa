/-
  ArgGuard.Bench.Iterations — how often a measurement runs.

  Counts are given as numbers and brought to whole counts that are not negative; nothing is
  measured without at least one measured batch. The environment may override the counts.
-/

import ArgGuard.Bench.Percentile
import ArgGuard.Call
import ArgGuard.Failure.Parts

namespace ArgGuard.Bench

/-- Counts as they are asked for. -/
structure Iterations where
  warmup : Number
  measured : Number
  deriving DecidableEq, Repr

/-- Counts that a measurement can run. -/
structure BatchCounts where
  warmup : Nat
  measured : Nat
  deriving DecidableEq, Repr

namespace Iterations

def default : Iterations := ⟨.ofNat 200, .ofNat 2000⟩

def quick : Iterations := ⟨.ofNat 1, .ofNat 3⟩

/-- Counts as a record; what is no number there asks for no count. -/
def view (n : Iterations) : Value :=
  .record [("warmup", .number n.warmup), ("measured", .number n.measured)]

def ofView (v : Value) : Iterations := ⟨v.numberAt "warmup", v.numberAt "measured"⟩

/-- Whole counts, a negative one as zero. -/
def counts (n : Iterations) : Except BenchFault BatchCounts :=
  match n.warmup.truncate?, n.measured.truncate? with
  | some w, some m => if m ≤ 0 then .error .noMeasurement else .ok ⟨w.toNat, m.toNat⟩
  | _, _ => .error .iterations

end Iterations

/-- Validations that are timed together. -/
def batchSize : Nat := 100

/-- The counts that the environment asks for, if it does. -/
def overrides (lookup? : String → Option String) : Except BenchFault (Option Iterations) :=
  if lookup? "ARGSPEC_BENCH_QUICK" = some "1" then .ok (some .quick)
  else
    let warmup := (lookup? "ARGSPEC_BENCH_WARMUP").bind Number.leadingInt?
    let measured := (lookup? "ARGSPEC_BENCH_MEASURED").bind Number.leadingInt?
    if warmup.isNone && measured.isNone then .ok none
    else do
      let n : Iterations :=
        ⟨warmup.getD Iterations.default.warmup, measured.getD Iterations.default.measured⟩
      let c ← n.counts
      .ok (some ⟨.ofNat c.warmup, .ofNat c.measured⟩)

variable {σ : Type}

/-- Runs a call a number of times. -/
def repeated (run : Call σ Unit) : Nat → Call σ Unit
  | 0 => pure ()
  | n + 1 => do
    run
    repeated run n

/-- How often a counter from zero stays below a number. -/
def stepsBelow (x : Number) : Nat := (x.ceil?.getD 0).toNat

/-- Times batches: a sample is the time of one call in billionths of a second, and the clock
counts in thousandths. -/
def samples (clock : Call σ Number) (run : Call σ Unit) (size : Number) :
    Nat → Call σ (List Number)
  | 0 => pure []
  | n + 1 => do
    let start ← clock
    repeated run (stepsBelow size)
    let stop ← clock
    let sample := ((stop.sub start).mul (.ofNat 1000000)).div size
    return sample :: (← samples clock run size n)

/-- Measures a call after its warm-up. -/
def measure (clock : Call σ Number) (run : Call σ Unit) (n : Iterations) (size : Number) :
    Call σ (Except BenchFault (List Number)) :=
  match n.counts with
  | .error f => pure (.error f)
  | .ok c => do
    repeated run (stepsBelow ((Number.ofNat c.warmup).mul size))
    return .ok (← samples clock run size c.measured)

end ArgGuard.Bench
