/-
  ArgGuard.Bench.Percentile — ranks of samples.

  A percentile is the sample at a rank of the sorted list: rank `⌈p · n⌉` counted from one,
  kept inside the list. No sample at all counts as zero.
-/

import ArgGuard.Failure.Thrown

namespace ArgGuard.Bench

/-- What a measurement is asked for in vain. -/
inductive BenchFault where
  | percentile
  | iterations
  | noMeasurement
  deriving DecidableEq, Repr

def BenchFault.message : BenchFault → String
  | .percentile => "percentile must be between 0 and 1"
  | .iterations => "Iteration configuration must define numeric warmup and measured counts"
  | .noMeasurement => "Measured iteration count must be greater than zero"

/-- A percentile out of range is a fault of range. -/
def BenchFault.thrown (f : BenchFault) : Thrown :=
  .foreign (match f with | .percentile => .range | _ => .error) (some f.message)

/-- Whether a sample comes before another one: it does when their difference is negative. -/
def precedes (x y : Number) : Bool := (x.sub y).lt .zero

/-- Puts a sample in front of the first one that it does not precede; the list descends. -/
def insertDescending (x : Number) : List Number → List Number
  | [] => [x]
  | y :: ys => if precedes x y then y :: insertDescending x ys else x :: y :: ys

/-- The samples ascending; equal ones keep their order. -/
def ascending (samples : List Number) : List Number :=
  (samples.foldl (fun acc x => insertDescending x acc) []).reverse

/-- The index of a percentile in a sorted list of a length. -/
def rankIndex (product : Number → Number → Number) (p : Number) (length : Nat) : Nat :=
  let rank : Int :=
    if p.le .zero then 0 else (((product p (.ofNat length)).ceil?).getD 0) - 1
  Nat.min (length - 1) (max 0 rank).toNat

/-- The sample at a percentile, which is a number from 0 to 1; `product` multiplies it with
the length. -/
def percentileBy (product : Number → Number → Number) (samples : List Number) (p : Number) :
    Except BenchFault Number :=
  if !p.isFinite || p.lt .zero || (Number.ofNat 1).lt p then .error .percentile
  else
    let sorted := ascending samples
    .ok ((sorted[rankIndex product p sorted.length]?).getD .zero)

def percentile : List Number → Number → Except BenchFault Number := percentileBy Number.mul

end ArgGuard.Bench
