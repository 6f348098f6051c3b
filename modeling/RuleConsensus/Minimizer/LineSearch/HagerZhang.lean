import RuleConsensus.Minimizer.Ray

/-!
The line search of Hager and Zhang. It encloses a minimum between two trials and narrows the
enclosure by secant steps, with a bisection where they are too slow, until one of three trials
meets the exact or the approximate condition on cost and slope.
-/

set_option autoImplicit false
set_option relaxedAutoImplicit false

namespace RuleConsensus.HagerZhang

open Failure (loop report)

/-- How much of the predicted drop has to be reached. -/
def costFactor : Float := 0.1

def slopeFactor : Float := 0.9

/-- How much the cost may rise, relative to the cost at the start. -/
def riseFactor : Float := 1e-6

/-- Where an enclosure is cut when its far end lies too high. -/
def cutFactor : Float := 0.5

/-- How much an enclosure has to shrink without a bisection. -/
def shrinkFactor : Float := 0.66

/-- Where a search stands: the near and the far end of the enclosure, and the best of the three
trials kept. -/
structure State where
  near : Trial
  far : Trial
  best : Trial

/-- The greatest cost that counts as no rise. -/
def ceiling (ray : Ray) : Float := ray.cost + riseFactor * ray.cost.abs

def secant (p q : Trial) : Float :=
  (p.position * q.slope - q.position * p.slope) / (q.slope - p.slope)

/-- The trial of least cost among the ends and the first trial; later ones win ties. -/
def leastCost (near far first best : Trial) : Trial :=
  let best := if near.cost ≤ far.cost && near.cost ≤ first.cost then near else best
  let best := if far.cost ≤ near.cost && far.cost ≤ first.cost then far else best
  if first.cost ≤ near.cost && first.cost ≤ far.cost then first else best

def accepts (ray : Ray) (t : Trial) : Bool :=
  (t.cost - ray.cost ≤ costFactor * t.position * ray.slope &&
    slopeFactor * ray.slope ≤ t.slope) ||
  (t.slope ≤ (2.0 * costFactor - 1.0) * ray.slope && slopeFactor * ray.slope ≤ t.slope &&
    t.cost ≤ ceiling ray)

def fallsLow (ray : Ray) (t : Trial) : Bool := t.slope < 0.0 && t.cost ≤ ceiling ray

def fallsHigh (ray : Ray) (t : Trial) : Bool := t.slope < 0.0 && ceiling ray < t.cost

/-- A trial that cannot be placed in an enclosure: it neither rises nor falls. -/
def unplaced : SolverFailure Float :=
  .potentialBug "`HagerZhangLineSearch`: Reached unreachable point in `update` method."

structure Cut where
  near : Trial
  far : Float

/-- One pass of cutting an enclosure, with the number of trials before it: a trial between the ends,
which is the new far end if it rises. A trial whose slope is not a number leaves the same cut to be
made again. -/
def cutPass (oracle : Oracle) (ray : Ray) :
    Nat × Cut → Except (SolverFailure Float) ((Nat × Cut) ⊕ (Trial × Trial × Nat))
  | (trials, c) => do
    let t ← ray.trial oracle ((1.0 - cutFactor) * c.near.position + cutFactor * c.far)
    if 0.0 ≤ t.slope then pure (.inr (c.near, t, trials + 1))
    else if fallsLow ray t then pure (.inl (trials + 1, ⟨t, c.far⟩))
    else if fallsHigh ray t then pure (.inl (trials + 1, ⟨c.near, t.position⟩))
    else pure (.inl (trials + 1, c))

def cut (oracle : Oracle) (ray : Ray) (near : Trial) (far : Float) :
    Except (Failure (SolverFailure Float)) (Trial × Trial × Nat) :=
  loop (fun c => report (cutPass oracle ray c)) (0, ⟨near, far⟩)

/-- Narrow an enclosure with one more trial. A trial outside it changes nothing; one whose slope is
not a number is refused. -/
def narrow (oracle : Oracle) (ray : Ray) (near far t : Trial) :
    Except (Failure (SolverFailure Float)) (Trial × Trial × Nat) :=
  if t.position ≤ near.position || far.position ≤ t.position then .ok (near, far, 0)
  else if 0.0 ≤ t.slope then .ok (near, t, 0)
  else if fallsLow ray t then .ok (t, far, 0)
  else if fallsHigh ray t then cut oracle ray near t.position
  else .error (.reported unplaced)

/-- The position of the second secant step, if the first one moved an end to its trial. -/
def secondPosition? (near far newNear newFar t : Trial) : Option Float :=
  if (t.position - newNear.position).abs < positionTolerance then some (secant near newNear)
  else if (t.position - newFar.position).abs < positionTolerance then some (secant far newFar)
  else none

/-- Narrow an enclosure by one or two secant steps, and by a bisection if that was too little. -/
def advance (oracle : Oracle) (ray : Ray) (near far : Trial) :
    Except (Failure (SolverFailure Float)) (Trial × Trial × Nat) := do
  let t ← report (ray.trial oracle (secant near far))
  let (a, b, trials) ← narrow oracle ray near far t
  let trials := trials + 1
  let (a, b, trials) ←
    match secondPosition? near far a b t with
    | some position => do
      let u ← report (ray.trial oracle position)
      let (a, b, more) ← narrow oracle ray a b u
      pure (a, b, trials + 1 + more)
    | none => pure (a, b, trials)
  if shrinkFactor * (far.position - near.position) < b.position - a.position then
    let m ← report (ray.trial oracle ((a.position + b.position) / 2.0))
    let (a, b, more) ← narrow oracle ray a b m
    pure (a, b, trials + 1 + more)
  else pure (a, b, trials)

def pass (oracle : Oracle) (ray : Ray) (first : Trial) :
    Nat × State → Except (Failure (SolverFailure Float)) ((Nat × State) ⊕ Landing)
  | (trials, s) => do
    if accepts ray s.best then
      pure (.inr ⟨ray.point s.best.position, s.best.cost, trials⟩)
    else
      let (near, far, more) ← advance oracle ray s.near s.far
      pure (.inl (trials + more, ⟨near, far, leastCost near far first s.best⟩))

/-- Search along a ray, from an enclosure that starts at almost nothing and ends far out. -/
def search (oracle : Oracle) (ray : Ray) : Except (Failure (SolverFailure Float)) Landing := do
  let near ← report (ray.trial oracle positionTolerance)
  let far ← report (ray.trial oracle 1e5)
  let first ← report (ray.trial oracle 1.0)
  let best := leastCost near far first ⟨0.0, Scalar.infinity, 0.0 / 0.0⟩
  loop (pass oracle ray first) (3, ⟨near, far, best⟩)

end RuleConsensus.HagerZhang
