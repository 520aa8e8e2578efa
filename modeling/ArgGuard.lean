import ArgGuard.Bench.Contenders
import ArgGuard.Cache.Validators
import ArgGuard.Capability.Schema
import ArgGuard.Failure.Report
import ArgGuard.Outcome
import ArgGuard.Value.Equal
import ArgGuard.Proofs.Call
import ArgGuard.Proofs.Entries
import ArgGuard.Proofs.Capability.Inline
import ArgGuard.Proofs.Capability.Expression
import ArgGuard.Proofs.Spec.Declared
import ArgGuard.Proofs.Routine.Translation
import ArgGuard.Proofs.Routine.Phases
import ArgGuard.Proofs.Routine.Simulation
import ArgGuard.Proofs.Plan
import ArgGuard.Proofs.Routine.Watch
import ArgGuard.Proofs.Routine.Paths
import ArgGuard.Proofs.Routine.Validity
import ArgGuard.Proofs.Canonical
import ArgGuard.Proofs.Descriptor
import ArgGuard.Proofs.Cache.Store
import ArgGuard.Proofs.Cache.Transparency
import ArgGuard.Proofs.Cache.Machine
import ArgGuard.Proofs.Cache.Tasks
import ArgGuard.Proofs.Cache.Promises
import ArgGuard.Proofs.Routine.Conformance
import ArgGuard.Proofs.Routine.Enumeration
import ArgGuard.Proofs.Routine.Answers
import ArgGuard.Proofs.Routine.Outcome
import ArgGuard.Proofs.Routine.Sources
import ArgGuard.Proofs.Routine.Extras
import ArgGuard.Proofs.Capability.Stock
import ArgGuard.Proofs.Routine.Defaults
import ArgGuard.Proofs.Routine.Idempotence
import ArgGuard.Proofs.Routine.Containers
import ArgGuard.Proofs.Routine.Order
import ArgGuard.Proofs.Bench.Contenders
import ArgGuard.Proofs.Bench.Percentile
import ArgGuard.Proofs.Failure.Disclosure
import ArgGuard.Proofs.Faults
import ArgGuard.Proofs.Text.Index
import ArgGuard.Proofs.Text.Units
import ArgGuard.Proofs.Spec.WellFormed
import ArgGuard.Proofs.Spec.Records
import ArgGuard.Proofs.Canonical.Reader
import ArgGuard.Proofs.Canonical.Encoding
import ArgGuard.Proofs.Routine.Assembly
import ArgGuard.Proofs.Routine.Direct
import ArgGuard.Proofs.Routine.Blocks
import ArgGuard.Proofs.Routine.Guards
import ArgGuard.Proofs.Capability.Numeric
import ArgGuard.Proofs.Number.Whole
import ArgGuard.Proofs.Number.Order
import ArgGuard.Proofs.Routine.Passing
import ArgGuard.Proofs.Routine.WholeTexts
import ArgGuard.Proofs.Routine.Widening
import ArgGuard.Proofs.Routine.Alike
import ArgGuard.Proofs.Routine.Respelling
import ArgGuard.Proofs.Routine.Slots
import ArgGuard.Proofs.Routine.Nulls
import ArgGuard.Proofs.Routine.Statics
import ArgGuard.Proofs.Routine.Flags
import ArgGuard.Proofs.Routine.Reasons
import ArgGuard.Proofs.Bench.Percentile
