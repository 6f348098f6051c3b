import RuleConsensus.Minimizer.Objective
import RuleConsensus.Text.Quoted

set_option autoImplicit false
set_option relaxedAutoImplicit false

namespace RuleConsensus

/-- Why an iterative run stopped. An exit carries the reason that the solver gave. -/
inductive StopReason
  | maxItersReached
  | targetCostReached
  | interrupt
  | solverConverged
  | timeout
  | solverExit (reason : String)
  deriving DecidableEq, Repr

inductive Termination
  | running
  | stopped (reason : StopReason)
  deriving DecidableEq, Repr

namespace StopReason

def text : StopReason → String
  | maxItersReached => "MaxItersReached"
  | targetCostReached => "TargetCostReached"
  | interrupt => "Interrupt"
  | solverConverged => "SolverConverged"
  | timeout => "Timeout"
  | solverExit reason => s!"SolverExit({Text.quoted reason})"

end StopReason

namespace Termination

def text : Termination → String
  | running => "Not terminated"
  | stopped reason => s!"Terminated({reason.text})"

end Termination

/-- How often the objective was called, by the name of the call. -/
abbrev CallCounts := List (String × Nat)

structure Outcome where
  point : List Float
  value : Float
  converged : Bool
  capReached : Bool
  status : String
  iterations : Nat
  calls : CallCounts
  gradientNorm : Option Float

def checkMinimizer (point : Option (List Float)) : Except (MinimizeError Float) (List Float) :=
  match point with
  | some x =>
    match Vector.firstNonFinite? x with
    | some (index, value) =>
      .error (.invalidMinimizer index value "Minimizer coordinates must be finite.")
    | none => .ok x
  | none => .error .missingMinimizer

def checkCost (value : Float) : Except (MinimizeError Float) Unit :=
  if value.isFinite then .ok () else .error (.nonFiniteCost value)

namespace Outcome

/-- The report of a run, if its best point and value are finite. -/
def ofRun (point : Option (List Float)) (value : Float) (termination : Termination)
    (iterations : Nat) (calls : CallCounts) (gradient : Option (List Float)) :
    Except (MinimizeError Float) Outcome := do
  let x ← checkMinimizer point
  checkCost value
  pure {
    point := x
    value := value
    converged := termination != .running
    capReached := termination == .stopped .maxItersReached
    status := termination.text
    iterations := iterations
    calls := calls
    gradientNorm := gradient.map Vector.norm }

end Outcome

end RuleConsensus
