import RuleConsensus.Failure
import RuleConsensus.Minimizer.Oracle

set_option autoImplicit false
set_option relaxedAutoImplicit false

namespace RuleConsensus

structure Ray where
  start : List Float
  cost : Float
  gradient : List Float
  direction : List Float

structure Trial where
  position : Float
  cost : Float
  slope : Float

/-- Where a line search ends, with the number of trials it took. -/
structure Landing where
  point : List Float
  cost : Float
  trials : Nat

namespace Ray

def point (ray : Ray) (position : Float) : List Float :=
  Vector.add ray.start (Vector.scale ray.direction position)

def slope (ray : Ray) : Float := Vector.dot ray.gradient ray.direction

def trial (oracle : Oracle) (ray : Ray) (position : Float) :
    Except (SolverFailure Float) Trial := do
  let p := ray.point position
  let cost ← oracle.cost p
  let gradient ← oracle.gradient p
  pure ⟨position, cost, Vector.dot ray.direction gradient⟩

end Ray

/-- The spacing of numbers at one, below which positions count as equal. -/
def positionTolerance : Float := Float.ofBits 0x3cb0000000000000

end RuleConsensus
