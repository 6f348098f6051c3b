import RuleConsensus.Journal
import RuleConsensus.Term.Check

/-!
The data of one term in a consensus method: a linear form `c · p - k` over a few variables, a
weight and a step size, the map into the global vector, and the three local vectors, the primal
`x`, the dual `y` and the consensus `z`. An update that is refused leaves the block as it was.
-/

set_option autoImplicit false
set_option relaxedAutoImplicit false

namespace RuleConsensus

structure Block (α : Type) where
  termId : Nat
  coefficients : List α
  constant : α
  weight : α
  stepSize : α
  indices : List Nat
  x : List α
  y : List α
  z : List α

namespace Block

variable {α : Type} [Scalar α]

/-- Build a block from its data and the consensus it starts from. The primal starts there too,
the dual at zero. -/
def build (termId : Nat) (coefficients : List α) (constant weight stepSize : α)
    (indices : List Nat) (consensus : List α) : Except (TermError α) (Block α) := do
  let arity := coefficients.length
  checkArity arity
  checkCoefficients coefficients
  checkConstant constant
  checkWeight weight
  checkStepSize stepSize
  checkIndices indices arity
  checkLocalVector "initial consensus" consensus arity
  pure ⟨termId, coefficients, constant, weight, stepSize, indices, consensus,
    Vector.zeros arity, consensus⟩

def arity (b : Block α) : Nat := b.coefficients.length

def setConsensus (b : Block α) (v : List α) : Update (Block α) (TermError α) :=
  match checkLocalVector "consensus" v b.arity with
  | .ok () => .done { b with z := v }
  | .error e => .failed b (.reported e)

def setDual (b : Block α) (v : List α) : Update (Block α) (TermError α) :=
  match checkLocalVector "dual" v b.arity with
  | .ok () => .done { b with y := v }
  | .error e => .failed b (.reported e)

/-- What the primal misses the consensus by, if one has as many entries as the other. -/
def gap? (b : Block α) : Option (List α) := Vector.sub? b.x b.z

/-- Move the dual by the step size times the gap between primal and consensus. Without a gap, or
with one that does not fit the dual, the step breaks off. -/
def dualStep (b : Block α) : Update (Block α) (TermError α) :=
  match b.gap?.bind (Vector.stretch? b.y.length) with
  | some r => .done { b with y := List.zipWith (fun y r => y + b.stepSize * r) b.y r }
  | none => .failed b .silent

/-- The centre of the proximal penalty, `z - y / rho`. -/
def candidate (b : Block α) : List α := Vector.sub b.z (Vector.divide b.y b.stepSize)

def primalResidual (b : Block α) : Option α :=
  b.gap?.map fun r => Scalar.sqrt (Vector.dot r r)

theorem primalResidual_of_length_eq {b : Block α} (same : b.x.length = b.z.length) :
    b.primalResidual =
      some (Scalar.sqrt (Vector.dot (Vector.sub b.x b.z) (Vector.sub b.x b.z))) := by
  rw [primalResidual, gap?, Vector.sub?_of_length_eq same, Option.map_some]

/-- A point has one coordinate for each local variable. -/
def checkPoint (b : Block α) (p : List α) : Except (TermError α) Unit :=
  checkLength "point" b.arity p.length

def margin (b : Block α) (p : List α) : Except (TermError α) α := do
  b.checkPoint p
  pure (Vector.dot b.coefficients p - b.constant)

/-- Half the step size times the squared distance of a point from the candidate. -/
def penaltyValue (b : Block α) (p : List α) : Except (TermError α) α := do
  b.checkPoint p
  let shifted := Vector.sub p b.candidate
  pure (Scalar.half * b.stepSize * Vector.dot shifted shifted)

def penaltyGradient (b : Block α) (p : List α) : Except (TermError α) (List α) := do
  b.checkPoint p
  pure (Vector.add (Vector.scale (Vector.sub p b.z) b.stepSize) b.y)

end Block

end RuleConsensus
