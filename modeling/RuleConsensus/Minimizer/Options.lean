import RuleConsensus.Minimizer.Error

/-!
What a minimisation is told: when to stop, how to search along a direction, how much to remember.
The checks run in a fixed order, so the first fault of several is the one reported.
-/

set_option autoImplicit false
set_option relaxedAutoImplicit false

namespace RuleConsensus

inductive LineSearch
  | moreThuente
  | hagerZhang
  deriving DecidableEq, Repr

namespace LineSearch

def name : LineSearch → String
  | moreThuente => "MoreThuente"
  | hagerZhang => "HagerZhang"

/-- Read a name, in any case. Only the letters of the Latin alphabet lower to those of the two
names, so other letters are left as they are. -/
def ofName (s : String) : Except (MinimizeError Float) LineSearch :=
  if s.toLower = "morethuente" then .ok .moreThuente
  else if s.toLower = "hagerzhang" then .ok .hagerZhang
  else .error (.invalidLineSearch s
    "Valid options are case insensitive 'MoreThuente' or 'HagerZhang'.")

end LineSearch

structure Tolerances where
  gradient : Option Float
  cost : Option Float
  iterations : Option Nat

/-- What is wrong with a tolerance, if anything: it has to be finite, and then positive. -/
def toleranceFault? (tolerance : Float) : Option String :=
  if !tolerance.isFinite then some "Tolerance must be finite."
  else if tolerance ≤ 0.0 then some "Tolerance must be positive."
  else none

def checkGradientTolerance (tolerance : Option Float) : Except (MinimizeError Float) Unit :=
  match tolerance with
  | some t =>
    match toleranceFault? t with
    | some reason => .error (.invalidGradientTolerance t reason)
    | none => .ok ()
  | none => .ok ()

def checkCostTolerance (tolerance : Option Float) : Except (MinimizeError Float) Unit :=
  match tolerance with
  | some t =>
    match toleranceFault? t with
    | some reason => .error (.invalidCostTolerance t reason)
    | none => .ok ()
  | none => .ok ()

def checkIterations (iterations : Option Nat) : Except (MinimizeError Float) Unit :=
  match iterations with
  | some 0 => .error (.invalidIterationCap 0 "Maximum iterations must be greater than zero.")
  | _ => .ok ()

namespace Tolerances

def checked (gradient cost : Option Float) (iterations : Option Nat) :
    Except (MinimizeError Float) Tolerances := do
  if gradient.isNone && cost.isNone && iterations.isNone then throw .noTolerances
  checkCostTolerance cost
  checkGradientTolerance gradient
  checkIterations iterations
  pure ⟨gradient, cost, iterations⟩

def same (a b : Tolerances) : Bool :=
  a.gradient == b.gradient && a.cost == b.cost && a.iterations == b.iterations

end Tolerances

structure MinimizerOptions where
  tolerances : Tolerances
  lineSearch : LineSearch
  verbose : Bool
  memory : Option Nat

namespace MinimizerOptions

def checked (tolerances : Tolerances) (lineSearch : LineSearch) (verbose : Bool)
    (memory : Option Nat) : Except (MinimizeError Float) MinimizerOptions :=
  if memory = some 0 then
    .error (.invalidMemory 0 "L-BFGS memory must be greater than zero.")
  else .ok ⟨tolerances, lineSearch, verbose, memory⟩

def default : MinimizerOptions :=
  ⟨⟨some 1e-8, none, some 500⟩, .moreThuente, false, none⟩

def same (a b : MinimizerOptions) : Bool :=
  a.tolerances.same b.tolerances && a.lineSearch == b.lineSearch && a.verbose == b.verbose
    && a.memory == b.memory

end MinimizerOptions

end RuleConsensus
