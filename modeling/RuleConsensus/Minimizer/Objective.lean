import RuleConsensus.Minimizer.Error
import RuleConsensus.Vector

set_option autoImplicit false
set_option relaxedAutoImplicit false

namespace RuleConsensus

/-- A function to be minimised, with its gradient and its test of starting points. -/
structure Objective (α : Type) where
  value : List α → Except (MinimizeError α) α
  gradient : List α → Except (MinimizeError α) (List α)
  check : List α → Except (MinimizeError α) Unit

namespace Objective

variable {α : Type} [Scalar α]

/-- The usual test of a starting point: it has coordinates, and they are finite. -/
def checkSeed (x : List α) : Except (MinimizeError α) Unit :=
  if x.isEmpty then .error .emptySeed
  else
    match Vector.firstNonFinite? x with
    | some (index, value) => .error (.invalidSeed index value)
    | none => .ok ()

end Objective

def checkGradient {α : Type} [Scalar α] (gradient : List α) (dimension : Nat) :
    Except (MinimizeError α) Unit :=
  if gradient.length ≠ dimension then .error (.gradientDimension dimension gradient.length)
  else
    match Vector.firstNonFinite? gradient with
    | some (index, value) =>
      .error (.invalidGradient index value "Gradient elements must be finite.")
    | none => .ok ()

end RuleConsensus
