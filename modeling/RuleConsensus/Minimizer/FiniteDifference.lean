import RuleConsensus.Minimizer.Objective

/-!
Gradients from values alone. Central differences are tried first and forward differences stand
behind them. A failing evaluation counts as an undefined number and is remembered: the first or
the last of a pass, as the caller asks. Only what the forward pass remembers is reported.
-/

set_option autoImplicit false
set_option relaxedAutoImplicit false

namespace RuleConsensus.FiniteDifference

abbrev Evaluation := List Float → Except (SolverFailure Float) Float

inductive Memory
  | first
  | last
  deriving DecidableEq, Repr

/-- The distance to the points of a difference, the root of the spacing of numbers at one. -/
def spacing : Float := Float.ofBits 0x3e50000000000000

def moved (x : List Float) (i : Nat) (step : Float) : List Float := x.modify i (· + step)

/-- The value at a point, undefined where the function fails. -/
def valueAt (f : Evaluation) (p : List Float) : Float :=
  match f p with
  | .ok v => v
  | .error _ => 0.0 / 0.0

def failures (f : Evaluation) (points : List (List Float)) : List (SolverFailure Float) :=
  points.filterMap fun p =>
    match f p with
    | .ok _ => none
    | .error e => some e

def remembered (memory : Memory) (f : Evaluation) (points : List (List Float)) :
    Option (SolverFailure Float) :=
  match memory with
  | .first => (failures f points).head?
  | .last => (failures f points).getLast?

def centralPoints (x : List Float) : List (List Float) :=
  (List.range x.length).flatMap fun i => [moved x i spacing, moved x i (-spacing)]

def centralQuotients (f : Evaluation) (x : List Float) : List Float :=
  (List.range x.length).map fun i =>
    (valueAt f (moved x i spacing) - valueAt f (moved x i (-spacing))) / (2.0 * spacing)

/-- The points of the forward pass, in the order of evaluation: the point itself comes first. -/
def forwardPoints (x : List Float) : List (List Float) :=
  x :: (List.range x.length).map fun i => moved x i spacing

def forwardQuotients (f : Evaluation) (x : List Float) : List Float :=
  (List.range x.length).map fun i =>
    (valueAt f (moved x i spacing) - valueAt f x) / spacing

/-- The forward quotients, if no evaluation failed and all of them are finite. -/
def forward (memory : Memory) (f : Evaluation) (x : List Float) :
    Except (MinimizeError Float) (List Float) :=
  match remembered memory f (forwardPoints x) with
  | some failure => .error failure.cause
  | none => do
    checkGradient (forwardQuotients f x) x.length
    pure (forwardQuotients f x)

/-- The central quotients, or the forward pass where they do not come out clean. -/
def gradient (memory : Memory) (f : Evaluation) (x : List Float) :
    Except (MinimizeError Float) (List Float) :=
  match remembered memory f (centralPoints x), checkGradient (centralQuotients f x) x.length with
  | none, .ok () => .ok (centralQuotients f x)
  | _, _ => forward memory f x

end RuleConsensus.FiniteDifference
