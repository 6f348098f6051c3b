import RuleConsensus.Minimizer.LineSearch.Interpolation

/-!
The line search of Moré and Thuente. It keeps two ends of an interval of uncertainty and moves one
of them after each trial, until the cost has dropped enough and the slope has become small. In a
first stage the costs are read against the line that the search aims at.
-/

set_option autoImplicit false
set_option relaxedAutoImplicit false

namespace RuleConsensus.MoreThuente

open Scalar (larger smaller)

/-- How much of the predicted drop has to be reached. -/
def costFactor : Float := 1e-4

/-- How small the slope has to become, relative to the slope at the start. -/
def slopeFactor : Float := 0.9

/-- The relative width at which the interval counts as closed. -/
def widthTolerance : Float := 1e-10

def leastPosition : Float := FiniteDifference.spacing

def greatestPosition : Float := Scalar.infinity

/-- Where a search stands: the position to try next with the cost last seen, the two ends, whether
they enclose a minimum, the last case of interpolation, and the widths of the interval. -/
structure State where
  position : Float
  lastCost : Float
  best : Trial
  other : Trial
  firstStage : Bool
  enclosed : Bool
  case : Nat
  width : Float
  formerWidth : Float

namespace State

def initial (ray : Ray) : State :=
  let here : Trial := ⟨0.0, ray.cost, ray.slope⟩
  let width := greatestPosition - leastPosition
  ⟨1.0, 0.0 / 0.0, here, here, true, false, 1, width, 2.0 * width⟩

def range (s : State) : Float × Float :=
  if s.enclosed then
    (smaller s.best.position s.other.position, larger s.best.position s.other.position)
  else (s.best.position, s.position + 4.0 * (s.position - s.best.position))

def closed (s : State) : Bool :=
  s.enclosed && s.range.2 - s.range.1 ≤ widthTolerance * s.range.2

/-- Whether a position is not inside the enclosure, or the last step was not possible. -/
def outside (s : State) (position : Float) : Bool :=
  (s.enclosed && (position ≤ s.range.1 || s.range.2 ≤ position)) || s.case == 0

/-- The position to try: the proposed one kept within bounds, or the best one where nothing better
can be expected. -/
def trialPosition (s : State) : Float :=
  let position := smaller (larger s.position leastPosition) greatestPosition
  if s.outside position || s.closed then s.best.position else position

end State

def targetSlope (ray : Ray) : Float := costFactor * ray.slope

def targetCost (ray : Ray) (position : Float) : Float :=
  ray.cost + position * targetSlope ray

def accepts (ray : Ray) (s : State) (t : Trial) : Bool :=
  s.outside t.position ||
  ((t.position - greatestPosition).abs < positionTolerance &&
    t.cost ≤ targetCost ray t.position && t.slope ≤ targetSlope ray) ||
  ((t.position - leastPosition).abs < positionTolerance &&
    (targetCost ray t.position < t.cost || targetSlope ray ≤ t.slope)) ||
  s.closed ||
  (t.cost ≤ targetCost ray t.position && t.slope.abs ≤ slopeFactor * -ray.slope)

/-- A trial read against the line aimed at. -/
def relative (ray : Ray) (t : Trial) : Trial :=
  ⟨t.position, t.cost - t.position * targetSlope ray, t.slope - targetSlope ray⟩

/-- An end found against the line aimed at, read absolutely again. The cost is rebuilt from the
end that stood there before. -/
def absolute (ray : Ray) (before found : Trial) : Trial :=
  ⟨found.position, before.cost + found.position * targetSlope ray,
    before.slope + targetSlope ray⟩

/-- The step of interpolation after a trial. In the first stage, a trial that lowers the cost
without reaching the aim is read against the line. -/
def interpolate (ray : Ray) (s : State) (firstStage : Bool) (t : Trial) :
    Except (SolverFailure Float) Interpolation.Step := do
  let (low, high) := s.range
  if firstStage && t.cost ≤ s.lastCost && targetCost ray t.position < t.cost then
    let i ← Interpolation.step (relative ray s.best) (relative ray s.other) (relative ray t)
      s.enclosed low high
    pure { i with best := absolute ray s.best i.best, other := absolute ray s.other i.other }
  else Interpolation.step s.best s.other t s.enclosed low high

/-- The state after a trial that was not accepted. An enclosure that does not shrink by a third
in two steps is halved. -/
def advance (ray : Ray) (s : State) (t : Trial) : Except (SolverFailure Float) State := do
  let firstStage := s.firstStage && !(t.cost ≤ targetCost ray t.position &&
    smaller costFactor slopeFactor * ray.slope ≤ t.slope)
  let i ← interpolate ray s firstStage t
  let width := (i.other.position - i.best.position).abs
  let position :=
    if i.enclosed && 0.66 * s.formerWidth ≤ width then
      i.best.position + 0.5 * (i.other.position - i.best.position)
    else i.next.position
  pure {
    position := position
    lastCost := i.next.cost
    best := i.best
    other := i.other
    firstStage := firstStage
    enclosed := i.enclosed
    case := i.case
    width := if i.enclosed then width else s.width
    formerWidth := if i.enclosed then s.width else s.formerWidth }

def pass (oracle : Oracle) (ray : Ray) :
    Nat × State → Except (SolverFailure Float) ((Nat × State) ⊕ Landing)
  | (trials, s) => do
    let t ← ray.trial oracle s.trialPosition
    if accepts ray s t then pure (.inr ⟨ray.point t.position, t.cost, trials + 1⟩)
    else
      let s ← advance ray s t
      pure (.inl (trials + 1, s))

/-- Search along a ray, which has to lead downhill. -/
def search (oracle : Oracle) (ray : Ray) : Except (Failure (SolverFailure Float)) Landing :=
  if 0.0 ≤ ray.slope then
    .error (.reported (.conditionViolated
      "`MoreThuenteLineSearch`: Search direction must be a descent direction."))
  else Failure.loop (fun s => Failure.report (pass oracle ray s)) (0, State.initial ray)

end RuleConsensus.MoreThuente
