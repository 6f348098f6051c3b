import RuleConsensus.Minimizer.Error

/-!
Why a term cannot be built, or a step of it fails. Positions count from zero inside the block of
the term; a cause says so where it means the global vector instead.
-/

set_option autoImplicit false
set_option relaxedAutoImplicit false

namespace RuleConsensus

/-- The causes for which terms, their steps, and the documents that describe them fail. -/
inductive TermError (α : Type)
  | emptyBlock
  | dimensionMismatch (what : String) (expected found : Nat)
  | invalidStepSize (value : α)
  | invalidWeight (value : α) (reason : String)
  | invalidCoefficient (index : Nat) (value : α)
  | invalidConstant (value : α)
  | nonFiniteInput (what : String) (index : Nat) (value : α)
  | duplicateIndex (index first second : Nat)
  | indexOutOfRange (position index length : Nat)
  | malformedGrounding (text : String)
  | invalidDistance (name : String)
  | infeasibleRule (constant : α)
  | nonFiniteSolution (termId index : Nat) (value : α)
  | invalidConfig (text : String)
  | fallback (cause : MinimizeError α)

namespace TermError

variable {α : Type} [Scalar α]

def message : TermError α → String
  | emptyBlock => "Term has no local variables"
  | dimensionMismatch what expected found =>
    s!"Dimension mismatch for {what}: expected {expected}, found {found}"
  | invalidStepSize value => s!"Invalid step size {Scalar.text value}: must be finite and > 0"
  | invalidWeight value reason => s!"Invalid weight {Scalar.text value}: {reason}"
  | invalidCoefficient index value =>
    s!"Invalid coefficient at index {index}: {Scalar.text value}, must be finite"
  | invalidConstant value => s!"Invalid constant {Scalar.text value}: must be finite"
  | nonFiniteInput what index value =>
    s!"Non-finite {what} entry at index {index}: {Scalar.text value}"
  | duplicateIndex index first second =>
    s!"Consensus index {index} is used by local positions {first} and {second}"
  | indexOutOfRange position index length =>
    s!"Consensus index {index} at local position {position} is out of range for length {length}"
  | malformedGrounding text => s!"Malformed grounded term: {text}"
  | invalidDistance name =>
    s!"Invalid distance measure '{name}': expected 'linear' or 'squared'"
  | infeasibleRule constant =>
    s!"Constraint with zero coefficients is infeasible for constant {Scalar.text constant}"
  | nonFiniteSolution termId index value =>
    s!"Term {termId}: proximal step produced {Scalar.text value} at index {index}"
  | invalidConfig text => s!"Invalid configuration: {text}"
  | fallback cause => s!"Fallback minimizer failed: {cause.message}"

def source? : TermError α → Option (MinimizeError α)
  | fallback cause => some cause
  | _ => none

end TermError

end RuleConsensus
