import RuleConsensus.Term.Proximal

/-!
Hard rules `c · p ≤ k` and `c · p = k`. Their potential is zero where the rule holds within a
slack and infinite elsewhere; their proximal step is the projection of the candidate, for which
the rule is read without slack.
-/

set_option autoImplicit false
set_option relaxedAutoImplicit false

namespace RuleConsensus.HardRule

variable {α : Type} [Scalar α]

/-- Whether a margin counts as satisfying the rule. -/
def satisfied (comparator : Comparator) (margin : α) : Bool :=
  match comparator with
  | .inequality => margin ≤ Scalar.slack
  | .equality => Scalar.abs margin ≤ Scalar.slack

/-- A rule without variables has to be satisfied by its constant. -/
def check (b : Block α) (comparator : Comparator) : Except (TermError α) Unit :=
  if b.coefficients.all (· == 0) && !satisfied comparator (-b.constant) then
    .error (.infeasibleRule b.constant)
  else .ok ()

/-- Zero where the rule holds, infinite elsewhere. -/
def evaluate (b : Block α) (comparator : Comparator) (p : List α) :
    Except (TermError α) α := do
  let margin ← b.margin p
  pure (if satisfied comparator margin then 0 else Scalar.infinity)

def gradient (b : Block α) (p : List α) : Except (TermError α) (List α) := do
  b.checkPoint p
  pure (Vector.zeros b.arity)

def landscape (b : Block α) (comparator : Comparator) : Landscape α :=
  ⟨evaluate b comparator, gradient b⟩

/-- Whether the margin of a candidate leaves nothing to project. -/
def inside (comparator : Comparator) (margin : α) : Bool :=
  match comparator with
  | .inequality => margin ≤ 0
  | .equality => margin == 0

/-- The projection of the candidate. Coefficients whose square vanishes leave it where it is. -/
def solve (b : Block α) (comparator : Comparator) :
    Logged (Event α) (Except (Failure (TermError α)) (List α)) := do
  let v := b.candidate
  let norm := Vector.dot b.coefficients b.coefficients
  let margin := Vector.dot b.coefficients v - b.constant
  if inside comparator margin || norm == 0 then do
    Logged.note (.candidateFeasible b.termId)
    pure (.ok v)
  else do
    Logged.note (.candidateProjected b.termId)
    pure (.ok (Vector.sub v (Vector.scale b.coefficients (margin / norm))))

end RuleConsensus.HardRule
