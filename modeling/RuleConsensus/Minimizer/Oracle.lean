import RuleConsensus.Minimizer.FiniteDifference
import RuleConsensus.Minimizer.Outcome

set_option autoImplicit false
set_option relaxedAutoImplicit false

namespace RuleConsensus

structure Oracle where
  cost : List Float → Except (SolverFailure Float) Float
  gradient : List Float → Except (SolverFailure Float) (List Float)

def asFailure {β : Type} (r : Except (MinimizeError Float) β) : Except (SolverFailure Float) β :=
  match r with
  | .ok v => .ok v
  | .error e => .error (.objective e)

namespace Objective

def guardedCost (f : Objective Float) (x : List Float) : Except (SolverFailure Float) Float := do
  let v ← asFailure (f.value x)
  asFailure (checkCost v)
  pure v

/-- The gradient at a point, differenced if the objective does not know it. -/
def guardedGradient (f : Objective Float) (x : List Float) :
    Except (SolverFailure Float) (List Float) :=
  match f.gradient x with
  | .ok g => do
    asFailure (checkGradient g x.length)
    pure g
  | .error .gradientNotImplemented =>
    asFailure (FiniteDifference.gradient .first f.guardedCost x)
  | .error e => .error (.objective e)

def oracle (f : Objective Float) : Oracle := ⟨f.guardedCost, f.guardedGradient⟩

end Objective

end RuleConsensus
