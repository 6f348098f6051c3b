import RuleConsensus.Term.Proximal

/-!
The linear hinge `w * max (c · p - k) 0`. Its proximal step has three regimes: the candidate where
the hinge is inactive, the candidate shifted by `(w / rho) c` where the shift stays on the sloping
side, and otherwise the nearest point of the kink.
-/

set_option autoImplicit false
set_option relaxedAutoImplicit false

namespace RuleConsensus.LinearHinge

variable {α : Type} [Scalar α]

def check (b : Block α) : Except (TermError α) Unit := do
  checkSoftWeight b.weight
  checkLinearScale b.weight b.coefficients b.stepSize

def evaluate (b : Block α) (p : List α) : Except (TermError α) α := do
  let margin ← b.margin p
  pure (b.weight * Scalar.larger margin 0)

def gradient (b : Block α) (p : List α) : Except (TermError α) (List α) := do
  let margin ← b.margin p
  if 0 < margin then pure (Vector.scale b.coefficients b.weight)
  else pure (Vector.zeros b.arity)

def landscape (b : Block α) : Landscape α := ⟨evaluate b, gradient b⟩

def shifted (b : Block α) (v : List α) : List α :=
  Vector.sub v (Vector.scale b.coefficients (b.weight / b.stepSize))

/-- The point of the kink nearest to the candidate. -/
def onKink (b : Block α) (v : List α) : List α :=
  let excess := Vector.dot b.coefficients v - b.constant
  Vector.sub v
    (Vector.scale b.coefficients (excess / Vector.dot b.coefficients b.coefficients))

inductive Regime
  | inactive
  | sloping
  | kink
  deriving DecidableEq, Repr

def regime (b : Block α) (v : List α) : Regime :=
  if b.weight == 0 || Vector.dot b.coefficients v ≤ b.constant then .inactive
  else if b.constant ≤ Vector.dot b.coefficients (shifted b v) then .sloping
  else .kink

def minimizer (b : Block α) (v : List α) : Regime → List α
  | .inactive => v
  | .sloping => shifted b v
  | .kink => onKink b v

def Regime.event (termId : Nat) : Regime → Event α
  | inactive => .linearHingeInactive termId
  | sloping => .linearHingeShifted termId
  | kink => .linearHingeProjected termId

def solve (b : Block α) : Logged (Event α) (Except (Failure (TermError α)) (List α)) := do
  let v := b.candidate
  let r := regime b v
  Logged.note (r.event b.termId)
  pure do
    let x := minimizer b v r
    Failure.report (checkSolution b.termId x)
    pure x

end RuleConsensus.LinearHinge
