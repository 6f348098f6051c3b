import RuleConsensus.Event
import RuleConsensus.Minimizer.Lbfgs

set_option autoImplicit false
set_option relaxedAutoImplicit false

namespace RuleConsensus

/-- What the journal wants to know of a starting point. A cost that fails ends the run. -/
def seeStart (oracle : Oracle) (x : List Float) :
    Logged (Event Float) (Except (MinimizeError Float) Unit) :=
  match oracle.cost x with
  | .error failure => .quiet (.error failure.cause)
  | .ok cost =>
    let norm := match oracle.gradient x with
      | .ok g => some (Vector.norm g)
      | .error _ => none
    (Logged.note (.startSeen cost norm)).map .ok

def Lbfgs.Result.report (r : Lbfgs.Result) : Except (MinimizeError Float) Outcome :=
  Outcome.ofRun (some r.best) r.bestCost (.stopped r.reason) r.iterations
    [("cost_count", r.costCalls), ("gradient_count", r.gradientCalls)] r.gradient

def descendAndReport (settings : Lbfgs.Settings) (oracle : Oracle) (x : List Float) :
    Except (Failure (MinimizeError Float)) Outcome :=
  match Lbfgs.descend settings oracle x with
  | .ok r => Failure.report r.report
  | .error failure => .error (failure.map SolverFailure.cause)

def minimize (traced : Bool) (f : Objective Float) (x : List Float)
    (options : MinimizerOptions) :
    Logged (Event Float) (Except (Failure (MinimizeError Float)) Outcome) :=
  match f.check x, Lbfgs.Settings.ofOptions options with
  | .error e, _ => .quiet (.error (.reported e))
  | .ok (), .error failure => .quiet (.error (.reported failure.cause))
  | .ok (), .ok settings => do
    let seen ← if traced then seeStart f.oracle x else pure (.ok ())
    match seen with
    | .error e => pure (.error (.reported e))
    | .ok () => pure (descendAndReport settings f.oracle x)

end RuleConsensus
