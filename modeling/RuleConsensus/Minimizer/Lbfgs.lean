import RuleConsensus.Minimizer.LineSearch.HagerZhang
import RuleConsensus.Minimizer.LineSearch.MoreThuente
import RuleConsensus.Minimizer.Options

/-!
Limited-memory quasi-Newton descent. Each iteration turns the gradient into a direction with the
help of the last moves and the gradient changes that came with them, searches along it, and
remembers the new move. The best point seen is the result.
-/

set_option autoImplicit false
set_option relaxedAutoImplicit false

namespace RuleConsensus.Lbfgs

structure Settings where
  lineSearch : LineSearch
  memory : Nat
  gradientTolerance : Float
  costTolerance : Float
  iterations : Nat

def defaultMemory : Nat := 7

def mostIterations : Nat := UInt64.size - 1

/-- The settings that options ask for. A negative tolerance is refused. -/
def Settings.ofOptions (options : MinimizerOptions) :
    Except (SolverFailure Float) Settings := do
  let gradient := options.tolerances.gradient.getD FiniteDifference.spacing
  let cost := options.tolerances.cost.getD positionTolerance
  if gradient < 0.0 then
    throw (.invalidParameter "`L-BFGS`: gradient tolerance must be >= 0.")
  if cost < 0.0 then
    throw (.invalidParameter "`L-BFGS`: cost tolerance must be >= 0.")
  pure ⟨options.lineSearch, options.memory.getD defaultMemory, gradient, cost,
    options.tolerances.iterations.getD mostIterations⟩

structure Move where
  shift : List Float
  change : List Float

/-- Where a descent stands. The moves are remembered newest first. -/
structure State where
  point : List Float
  cost : Float
  formerCost : Float
  gradient : List Float
  best : List Float
  bestCost : Float
  iterations : Nat
  moves : List Move
  costCalls : Nat
  gradientCalls : Nat

/-- How a descent ended. The gradient is lost when a line search fails. -/
structure Result where
  best : List Float
  bestCost : Float
  reason : StopReason
  iterations : Nat
  costCalls : Nat
  gradientCalls : Nat
  gradient : Option (List Float)

/-- Turn a gradient with the remembered moves, newest first, scaling it once all are undone. -/
def turn (scale : Float) : List Move → List Float → List Float
  | [], q => Vector.scale q scale
  | m :: older, q =>
    let weight := 1.0 / Vector.dot m.change m.shift
    let a := Vector.dot m.shift q * weight
    let r := turn scale older (Vector.sub q (Vector.scale m.change a))
    let b := Vector.dot m.change r * weight
    Vector.add r (Vector.scale m.shift (a - b))

def curvature : List Move → Float
  | [] => 1.0
  | m :: _ => Vector.dot m.shift m.change / Vector.dot m.change m.change

def direction (moves : List Move) (gradient : List Float) : List Float :=
  Vector.scale (turn (curvature moves) moves gradient) (-1.0)

def search (settings : Settings) (oracle : Oracle) (ray : Ray) :
    Except (Failure (SolverFailure Float)) Landing :=
  match settings.lineSearch with
  | .moreThuente => MoreThuente.search oracle ray
  | .hagerZhang => HagerZhang.search oracle ray

namespace State

def initial (oracle : Oracle) (x : List Float) : Except (SolverFailure Float) State := do
  let cost ← oracle.cost x
  let gradient ← oracle.gradient x
  pure ⟨x, cost, Scalar.infinity, gradient, x, cost, 0, [], 1, 1⟩

/-- Whether the gradient is small enough, or the last change of the cost. -/
def converged (settings : Settings) (s : State) : Bool :=
  Vector.norm s.gradient < settings.gradientTolerance ||
    (s.formerCost - s.cost).abs < settings.costTolerance

def ray (s : State) : Ray := ⟨s.point, s.cost, s.gradient, direction s.moves s.gradient⟩

def stop (s : State) (reason : StopReason) : Result :=
  ⟨s.best, s.bestCost, reason, s.iterations, s.costCalls, s.gradientCalls, some s.gradient⟩

/-- The result of stopping because the search failed. The iteration counts, its calls do not. -/
def exit (s : State) (failure : SolverFailure Float) : Result :=
  ⟨s.best, s.bestCost,
    .solverExit s!"Line search terminated with: '{failure.message}'",
    s.iterations + 1, s.costCalls, s.gradientCalls, none⟩

/-- The state after landing at a new point. Once the memory is full the oldest move goes. -/
def advance (settings : Settings) (oracle : Oracle) (s : State) (landing : Landing) :
    Except (SolverFailure Float) State := do
  let gradient ← oracle.gradient landing.point
  let kept := if settings.memory ≤ s.iterations then s.moves.dropLast else s.moves
  let move : Move := ⟨Vector.sub landing.point s.point, Vector.sub gradient s.gradient⟩
  let better := landing.cost < s.bestCost
  pure {
    point := landing.point
    cost := landing.cost
    formerCost := s.cost
    gradient := gradient
    best := if better then landing.point else s.best
    bestCost := if better then landing.cost else s.bestCost
    iterations := s.iterations + 1
    moves := move :: kept
    costCalls := s.costCalls + landing.trials
    gradientCalls := s.gradientCalls + landing.trials + 1 }

end State

/-- Descend for a number of iterations. A search that fails with a report is the end of the descent,
not its failure. -/
def run (settings : Settings) (oracle : Oracle) :
    Nat → State → Except (Failure (SolverFailure Float)) Result
  | 0, s =>
    pure (s.stop (if s.converged settings then .solverConverged else .maxItersReached))
  | n + 1, s => do
    if s.converged settings then pure (s.stop .solverConverged)
    else if s.bestCost ≤ -Scalar.infinity then pure (s.stop .targetCostReached)
    else
      match search settings oracle s.ray with
      | .error .silent => .error .silent
      | .error (.reported failure) => pure (s.exit failure)
      | .ok landing => do
        let s ← Failure.report (s.advance settings oracle landing)
        run settings oracle n s

def descend (settings : Settings) (oracle : Oracle) (x : List Float) :
    Except (Failure (SolverFailure Float)) Result := do
  let s ← Failure.report (State.initial oracle x)
  run settings oracle settings.iterations s

end RuleConsensus.Lbfgs
