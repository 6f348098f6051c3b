import RuleConsensus.Scalar

set_option autoImplicit false
set_option relaxedAutoImplicit false

namespace RuleConsensus

/-- The causes for which a minimisation, or the setting up of one, fails. -/
inductive MinimizeError (α : Type)
  | gradientNotImplemented
  | gradientDimension (expected found : Nat)
  | invalidGradient (index : Nat) (value : α) (reason : String)
  | invalidGradientTolerance (tolerance : α) (reason : String)
  | invalidCostTolerance (tolerance : α) (reason : String)
  | invalidIterationCap (cap : Nat) (reason : String)
  | noTolerances
  | invalidLineSearch (name : String) (reason : String)
  | invalidMemory (memory : Nat) (reason : String)
  | nonFiniteCost (value : α)
  | invalidSeed (index : Nat) (value : α)
  | emptySeed
  | objectiveFailed (text : String)
  | invalidMinimizer (index : Nat) (value : α) (reason : String)
  | missingMinimizer
  | notConverged (iterations : Nat) (gradientNorm : Option α)
  | invalidParameter (text : String)
  | notImplemented (text : String)
  | notInitialized (text : String)
  | conditionViolated (text : String)
  | checkpointNotFound (text : String)
  | potentialBug (text : String)
  | impossible (text : String)
  | backend (text : String)
  | unknown

namespace MinimizeError

variable {α : Type} [Scalar α]

def message : MinimizeError α → String
  | gradientNotImplemented => "Analytic gradient not implemented"
  | gradientDimension expected found =>
    s!"Gradient dimension mismatch: expected {expected}, found {found}"
  | invalidGradient index value reason =>
    s!"Invalid gradient at index {index}: {Scalar.text value}: {reason}"
  | invalidGradientTolerance tolerance reason =>
    s!"Invalid gradient tolerance {Scalar.text tolerance}: {reason}"
  | invalidCostTolerance tolerance reason =>
    s!"Invalid cost function change tolerance {Scalar.text tolerance}: {reason}"
  | invalidIterationCap cap reason => s!"Invalid maximum iterations {cap}: {reason}"
  | noTolerances => "No tolerances provided"
  | invalidLineSearch name reason => s!"Invalid line searcher '{name}': {reason}"
  | invalidMemory memory reason => s!"Invalid L-BFGS memory {memory}: {reason}"
  | nonFiniteCost value => s!"Non-finite cost value: {Scalar.text value}"
  | invalidSeed index value =>
    s!"Invalid starting point at index {index}: {Scalar.text value}, must be finite"
  | emptySeed => "Starting point has no coordinates"
  | objectiveFailed text => s!"Objective evaluation failed: {text}"
  | invalidMinimizer index value reason =>
    s!"Invalid minimizer coordinate at index {index}: {Scalar.text value}: {reason}"
  | missingMinimizer => "Missing minimizer (no best point reported)"
  | notConverged iterations (some norm) =>
    s!"Minimizer did not converge after {iterations} iterations (||grad|| = {Scalar.text norm})"
  | notConverged iterations none =>
    s!"Minimizer did not converge after {iterations} iterations"
  | invalidParameter text => s!"Invalid parameter: {text}"
  | notImplemented text => s!"Not implemented: {text}"
  | notInitialized text => s!"Not initialized: {text}"
  | conditionViolated text => s!"Condition violated: {text}"
  | checkpointNotFound text => s!"Checkpoint not found: {text}"
  | potentialBug text => s!"Potential bug: {text}"
  | impossible text => s!"Impossible error: {text}"
  | backend text => s!"Backend error: {text}"
  | unknown => "Unknown error"

end MinimizeError

/-- What stops the iterative solver: one of its own complaints, an objective that failed, or a
failure from anywhere else, of which only the text is known. -/
inductive SolverFailure (α : Type)
  | invalidParameter (text : String)
  | notImplemented (text : String)
  | notInitialized (text : String)
  | conditionViolated (text : String)
  | checkpointNotFound (text : String)
  | potentialBug (text : String)
  | impossible (text : String)
  | objective (cause : MinimizeError α)
  | foreign (text : String)

namespace SolverFailure

variable {α : Type} [Scalar α]

/-- The cause under which a failure leaves the solver. The objective's own cause is unchanged. -/
def cause : SolverFailure α → MinimizeError α
  | invalidParameter text => .invalidParameter text
  | notImplemented text => .notImplemented text
  | notInitialized text => .notInitialized text
  | conditionViolated text => .conditionViolated text
  | checkpointNotFound text => .checkpointNotFound text
  | potentialBug text => .potentialBug text
  | impossible text => .impossible text
  | objective e => e
  | foreign text => .backend text

/-- The wording of a failure inside the solver, which puts its own complaints in quotes and asks
for a report of what should never happen. -/
def message : SolverFailure α → String
  | invalidParameter text => s!"Invalid parameter: \"{text}\""
  | notImplemented text => s!"Not implemented: \"{text}\""
  | notInitialized text => s!"Not initialized: \"{text}\""
  | conditionViolated text => s!"Condition violated: \"{text}\""
  | checkpointNotFound text => s!"Checkpoint not found: \"{text}\""
  | potentialBug text =>
    s!"Potential bug: \"{text}\". This is potentially a bug. " ++
      "Please file a report on https://github.com/argmin-rs/argmin/issues"
  | impossible text => s!"Impossible error: \"{text}\""
  | objective e => e.message
  | foreign text => text

end SolverFailure

end RuleConsensus
