import RuleConsensus.Event
import RuleConsensus.Minimizer.Objective
import RuleConsensus.Term.Block

set_option autoImplicit false
set_option relaxedAutoImplicit false

namespace RuleConsensus

variable {α : Type} [Scalar α]

structure Landscape (α : Type) where
  evaluate : List α → Except (TermError α) α
  gradient : List α → Except (TermError α) (List α)

/-- A fault of a term as the failure of an objective. -/
def asObjectiveFailure {β : Type} (r : Except (TermError α) β) : Except (MinimizeError α) β :=
  match r with
  | .ok v => .ok v
  | .error e => .error (.objectiveFailed e.message)

namespace Landscape

def augmentedValue (l : Landscape α) (b : Block α) (p : List α) : Except (TermError α) α := do
  let v ← l.evaluate p
  let q ← b.penaltyValue p
  pure (v + q)

def augmentedGradient (l : Landscape α) (b : Block α) (p : List α) :
    Except (TermError α) (List α) := do
  let g ← l.gradient p
  let h ← b.penaltyGradient p
  pure (Vector.add g h)

def objective (l : Landscape α) (b : Block α) : Objective α :=
  ⟨fun p => asObjectiveFailure (l.augmentedValue b p),
    fun p => asObjectiveFailure (l.augmentedGradient b p), Objective.checkSeed⟩

end Landscape

/-- A minimiser for proximal steps: from an objective and a starting point to a point. It may also
fail, and need not come back. -/
structure Fallback (α : Type) where
  minimize : Objective α → List α →
    Logged (Event α) (Except (Failure (MinimizeError α)) (List α))

end RuleConsensus
