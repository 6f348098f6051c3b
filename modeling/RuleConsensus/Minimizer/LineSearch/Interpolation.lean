import RuleConsensus.Minimizer.Ray

/-!
One step of safeguarded interpolation. From the best trial so far, the other end of the interval,
and a new trial, it chooses the new ends and the next position. Four cases, by how the new trial
compares with the best one, decide between a cubic, a secant and a quadratic position.
-/

set_option autoImplicit false
set_option relaxedAutoImplicit false

namespace RuleConsensus.Interpolation

open Scalar (larger smaller square)

/-- A position and the rule that found it: whether it is kept off the far end, whether a minimum
is now enclosed, and the number of the case. -/
structure Proposal where
  position : Float
  bounded : Bool
  enclosed : Bool
  case : Nat

/-- The new ends of the interval, the next position with the cost and slope of the last trial,
whether a minimum is enclosed, and the number of the case, zero if no step was possible. -/
structure Step where
  best : Trial
  other : Trial
  next : Trial
  enclosed : Bool
  case : Nat

def greatest (complaint : String) (a b c : Float) : Except (SolverFailure Float) Float :=
  if a.isFinite && b.isFinite && c.isFinite then .ok (larger (larger a b) c)
  else .error (.conditionViolated complaint)

def notFinite : String := "MoreThuenteLineSearch: NaN or Inf encountered during iteration"

def notFiniteThird : String := "`MoreThuenteLineSearch`: NaN or Inf encountered during iteration"

def chord (a b : Trial) : Float := 3.0 * (a.cost - b.cost) / (b.position - a.position)

/-- What stands under the root of a cubic, scaled by its greatest part. -/
def discriminant (s theta a b : Float) : Float := square (theta / s) - a / s * (b / s)

def secant (best trial : Trial) : Float :=
  trial.position + trial.slope / (trial.slope - best.slope) * (best.position - trial.position)

/-- The trial costs more, so a minimum is enclosed: the cubic position if it is nearer the best
trial than the quadratic one, otherwise their mean. -/
def proposeHigher (best trial : Trial) : Except (SolverFailure Float) Proposal := do
  let theta := chord best trial + best.slope + trial.slope
  let s ← greatest notFinite theta best.slope trial.slope
  let root := s * (discriminant s theta best.slope trial.slope).sqrt
  let gamma := if trial.position < best.position then -root else root
  let r := (gamma - best.slope + theta) / (gamma - best.slope + gamma + trial.slope)
  let cubic := best.position + r * (trial.position - best.position)
  let quadratic := best.position + best.slope /
    ((best.cost - trial.cost) / (trial.position - best.position) + best.slope) / 2.0 *
    (trial.position - best.position)
  let position :=
    if (cubic - best.position).abs < (quadratic - best.position).abs then cubic
    else cubic + (quadratic - cubic) / 2.0
  pure ⟨position, true, true, 1⟩

/-- The slopes have opposite signs, so a minimum is enclosed: of the cubic and the secant position
the one farther from the trial. -/
def proposeOpposite (best trial : Trial) : Except (SolverFailure Float) Proposal := do
  let theta := chord best trial + best.slope + trial.slope
  let s ← greatest notFinite theta best.slope trial.slope
  let root := s * (discriminant s theta best.slope trial.slope).sqrt
  let gamma := if best.position < trial.position then -root else root
  let r := (gamma - trial.slope + theta) / (gamma - trial.slope + gamma + best.slope)
  let cubic := trial.position + r * (best.position - trial.position)
  let linear := secant best trial
  let position :=
    if (linear - trial.position).abs < (cubic - trial.position).abs then cubic else linear
  pure ⟨position, false, true, 2⟩

/-- The slope has become flatter: the cubic position where the cubic falls along the step, the end
of the range otherwise. The nearer of it and the secant position is taken inside an enclosure, the
farther one outside. -/
def proposeFlatter (best trial : Trial) (enclosed : Bool) (low high : Float) :
    Except (SolverFailure Float) Proposal := do
  let theta := chord best trial + best.slope + trial.slope
  let s ← greatest notFiniteThird theta best.slope trial.slope
  let root := s * (larger 0.0 (discriminant s theta best.slope trial.slope)).sqrt
  let gamma := if best.position < trial.position then -root else root
  let r := (gamma - trial.slope + theta) / (gamma + (best.slope - trial.slope) + gamma)
  let cubic :=
    if r < 0.0 && gamma != 0.0 then trial.position + r * (best.position - trial.position)
    else if best.position < trial.position then high
    else low
  let linear := secant best trial
  let toCubic := (trial.position - cubic).abs
  let toLinear := (trial.position - linear).abs
  let takesCubic := if enclosed then decide (toCubic < toLinear) else decide (toLinear < toCubic)
  pure ⟨if takesCubic then cubic else linear, true, enclosed, 3⟩

/-- The slope has not become flatter: the cubic through the other end inside an enclosure, the end
of the range outside. -/
def proposeSteeper (best other trial : Trial) (enclosed : Bool) (low high : Float) :
    Except (SolverFailure Float) Proposal := do
  if enclosed then
    let theta := chord trial other + other.slope + trial.slope
    let s ← greatest notFinite theta other.slope trial.slope
    let root := s * (discriminant s theta other.slope trial.slope).sqrt
    let gamma := if other.position < trial.position then -root else root
    let r := (gamma - trial.slope + theta) / (gamma - trial.slope + gamma + other.slope)
    pure ⟨trial.position + r * (other.position - trial.position), false, true, 4⟩
  else
    pure ⟨if best.position < trial.position then high else low, false, false, 4⟩

def relativeSlope (best trial : Trial) : Float := trial.slope * (best.slope / best.slope.abs)

def propose (best other trial : Trial) (enclosed : Bool) (low high : Float) :
    Except (SolverFailure Float) Proposal :=
  if best.cost < trial.cost then proposeHigher best trial
  else if relativeSlope best trial < 0.0 then proposeOpposite best trial
  else if trial.slope.abs < best.slope.abs then proposeFlatter best trial enclosed low high
  else proposeSteeper best other trial enclosed low high

/-- The ends of the interval once the trial has replaced one of them: the best trial, the other. -/
def newEnds (best other trial : Trial) : Trial × Trial :=
  if best.cost < trial.cost then (best, trial)
  else if relativeSlope best trial < 0.0 then (trial, best)
  else (trial, other)

def safeguard (ends : Trial × Trial) (p : Proposal) (low high : Float) : Float :=
  let position := larger low (smaller high p.position)
  if p.enclosed && p.bounded then
    let limit := ends.1.position + 0.66 * (ends.2.position - ends.1.position)
    if ends.1.position < ends.2.position then smaller position limit else larger position limit
  else position

/-- Whether a trial can serve for a step: it lies inside the enclosure, the best trial's slope
points towards it, and the range is not empty. -/
def usable (best other trial : Trial) (enclosed : Bool) (low high : Float) : Bool :=
  !((enclosed && (trial.position ≤ smaller best.position other.position ||
      larger best.position other.position ≤ trial.position)) ||
    0.0 ≤ best.slope * (trial.position - best.position) || high < low)

/-- One step of interpolation. A trial that cannot serve leaves everything as it is. -/
def step (best other trial : Trial) (enclosed : Bool) (low high : Float) :
    Except (SolverFailure Float) Step := do
  if usable best other trial enclosed low high then
    let p ← propose best other trial enclosed low high
    let ends := newEnds best other trial
    let position := safeguard ends p low high
    pure ⟨ends.1, ends.2, ⟨position, trial.cost, trial.slope⟩, p.enclosed, p.case⟩
  else
    pure ⟨best, other, trial, enclosed, 0⟩

end RuleConsensus.Interpolation
