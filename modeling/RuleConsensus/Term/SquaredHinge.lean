import RuleConsensus.Term.Proximal

/-!
The squared hinge `w * max (c · p - k) 0 ^ 2`. Its proximal step is the candidate where the hinge
is inactive. Where it is active, one and two variables have closed forms, and any other number is
handed to a fallback.
-/

set_option autoImplicit false
set_option relaxedAutoImplicit false

namespace RuleConsensus.SquaredHinge

variable {α : Type} [Scalar α]

def check (b : Block α) : Except (TermError α) Unit := do
  checkSoftWeight b.weight
  checkSquaredScale b.weight b.coefficients b.constant

def evaluate (b : Block α) (p : List α) : Except (TermError α) α := do
  let margin ← b.margin p
  pure (b.weight * Scalar.square (Scalar.larger margin 0))

/-- The gradient of the hinge at a point, zero on its flat side. -/
def gradient (b : Block α) (p : List α) : Except (TermError α) (List α) := do
  let margin ← b.margin p
  if 0 < margin then
    pure (Vector.scale b.coefficients (Scalar.two * b.weight * margin))
  else pure (Vector.zeros b.arity)

def landscape (b : Block α) : Landscape α := ⟨evaluate b, gradient b⟩

/-- The minimiser over one variable, from its normal equation. -/
def solveOne (b : Block α) (c0 v0 : α) : List α :=
  let twice := Scalar.two * b.weight
  [(b.stepSize * v0 + twice * b.constant * c0) / (twice * c0 * c0 + b.stepSize)]

def firstPivot (b : Block α) (c0 : α) : α :=
  Scalar.two * b.weight * c0 * c0 + b.stepSize

def offDiagonal (b : Block α) (c0 c1 : α) : α := Scalar.two * b.weight * c0 * c1

def secondPivot (b : Block α) (c0 c1 : α) : α :=
  firstPivot b c1 - offDiagonal b c0 c1 / firstPivot b c0 * offDiagonal b c0 c1

/-- The minimiser over two variables, by elimination and back substitution. -/
def solveTwo (b : Block α) (c0 c1 v0 v1 : α) : List α :=
  let twice := Scalar.two * b.weight
  let r0 := b.stepSize * v0 + twice * b.constant * c0
  let r1 := b.stepSize * v1 + twice * b.constant * c1
  let factor := offDiagonal b c0 c1 / firstPivot b c0
  let x1 := (r1 - factor * r0) / secondPivot b c0 c1
  let x0 := (r0 - offDiagonal b c0 c1 * x1) / firstPivot b c0
  [x0, x1]

def solveByFallback (b : Block α) (fallback : Fallback α) (v : List α) :
    Logged (Event α) (Except (Failure (TermError α)) (List α)) := do
  match ← fallback.minimize ((landscape b).objective b) v with
  | .ok x => pure (.ok x)
  | .error .silent => pure (.error .silent)
  | .error (.reported e) => do
    Logged.note (.fallbackFailed b.termId e)
    pure (.error (.reported (.fallback e)))

def solveActive (b : Block α) (fallback : Fallback α) (v : List α) :
    Logged (Event α) (Except (Failure (TermError α)) (List α)) := do
  Logged.note (.squaredHingeActive b.termId b.arity)
  match b.coefficients, v with
  | [c0], [v0] => pure (.ok (solveOne b c0 v0))
  | [c0, c1], [v0, v1] => pure (.ok (solveTwo b c0 c1 v0 v1))
  | _, _ => solveByFallback b fallback v

def inactive (b : Block α) (v : List α) : Bool :=
  b.weight == 0 || Vector.dot b.coefficients v ≤ b.constant

/-- The proximal step. A result that is not finite is refused. -/
def solve (b : Block α) (fallback : Fallback α) :
    Logged (Event α) (Except (Failure (TermError α)) (List α)) := do
  let v := b.candidate
  let found ←
    if inactive b v then do
      Logged.note (.squaredHingeInactive b.termId)
      pure (.ok v)
    else solveActive b fallback v
  pure do
    let x ← found
    Failure.report (checkSolution b.termId x)
    pure x

end RuleConsensus.SquaredHinge
