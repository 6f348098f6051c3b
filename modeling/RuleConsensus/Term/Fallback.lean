import RuleConsensus.Minimizer.Minimize
import RuleConsensus.Term.Proximal

/-!
Fallback minimisers. The usual one descends with limited memory and refuses a result that only the
iteration cap stopped. The others are simple: fixed answers, and gradient descent with a fixed
step that stops before the value rises.
-/

set_option autoImplicit false
set_option relaxedAutoImplicit false

namespace RuleConsensus.Fallback

open Failure (report)

/-- The point of an outcome, if it was not the iteration cap that ended the run. -/
def accept (outcome : Outcome) :
    Logged (Event Float) (Except (MinimizeError Float) (List Float)) :=
  if outcome.capReached then
    ⟨.error (.notConverged outcome.iterations outcome.gradientNorm),
      [.capReached outcome.iterations outcome.gradientNorm]⟩
  else
    ⟨.ok outcome.point, [.fallbackFinished outcome.status outcome.iterations outcome.value]⟩

/-- Descend with limited memory. -/
def lbfgs (traced : Bool) (options : MinimizerOptions) : Fallback Float where
  minimize f seed := do
    match ← RuleConsensus.minimize traced f seed options with
    | .ok outcome => (accept outcome).map report
    | .error e => pure (.error e)

variable {α : Type}

def failing (cause : MinimizeError α) : Fallback α := ⟨fun _ _ => .quiet (.error (.reported cause))⟩

def returning (point : List α) : Fallback α := ⟨fun _ _ => .quiet (.ok point)⟩

def staying : Fallback α := ⟨fun _ seed => .quiet (.ok seed)⟩

/-- Ask for the value at a point, and answer with the starting point. -/
def askingValue (point : List α) : Fallback α :=
  ⟨fun f seed => .quiet (report ((f.value point).map fun _ => seed))⟩

/-- Ask for the gradient at a point, and answer with the starting point. -/
def askingGradient (point : List α) : Fallback α :=
  ⟨fun f seed => .quiet (report ((f.gradient point).map fun _ => seed))⟩

variable [Scalar α]

/-- Steps of gradient descent from a point with its value, until the value rises. -/
def descendFrom (f : Objective α) (step : α) :
    Nat → List α → α → Except (MinimizeError α) (List α)
  | 0, x, _ => .ok x
  | n + 1, x, best => do
    let g ← f.gradient x
    let next := List.zipWith (fun x g => x - step * g) x g
    let v ← f.value next
    if best < v then pure x else descendFrom f step n next v

/-- Gradient descent with a fixed step, at most so many times. -/
def gradientDescent (step : α) (n : Nat) : Fallback α where
  minimize f seed := .quiet <| report do
    f.check seed
    let best ← f.value seed
    descendFrom f step n seed best

end RuleConsensus.Fallback
