import RuleConsensus.Consensus.Gather
import RuleConsensus.Settings

set_option autoImplicit false
set_option relaxedAutoImplicit false

namespace RuleConsensus

/-- How far a soft rule is from holding: by its excess, or by the square of it. -/
inductive Distance
  | linear
  | squared
  deriving DecidableEq, Repr

namespace Distance

def name : Distance → String
  | linear => "linear"
  | squared => "squared"

/-- Read a name, in any case. Only the letters of the Latin alphabet lower to those of the two
names, so other letters are left as they are. -/
def ofName (s : String) : Except (TermError Float) Distance :=
  if s.toLower = "linear" then .ok .linear
  else if s.toLower = "squared" then .ok .squared
  else .error (.invalidDistance s)

end Distance

inductive RuleWeight
  | soft (weight : Float)
  | hard

namespace RuleWeight

/-- The weight as a number, infinite for a hard rule. -/
def value : RuleWeight → Float
  | soft w => w
  | hard => Scalar.infinity

def isHard : RuleWeight → Bool
  | soft _ => false
  | hard => true

/-- A number as a weight. Infinity stands for a hard rule. -/
def ofFloat (w : Float) : RuleWeight :=
  if w == Scalar.infinity then .hard else .soft w

end RuleWeight

structure GroundedTerm where
  termId : Nat
  coefficients : List Float
  constant : Float
  weight : RuleWeight
  distance : Distance
  comparator : Comparator
  indices : List Nat

namespace GroundedTerm

def block (t : GroundedTerm) (global : List Float) (settings : ProximalSettings) :
    Except (TermError Float) (Block Float) := do
  let z ← gather global t.indices
  Block.build t.termId t.coefficients t.constant t.weight.value settings.stepSize t.indices z

def build (t : GroundedTerm) (global : List Float) (settings : ProximalSettings)
    (fallback : Fallback Float) :
    Logged (Event Float) (Except (TermError Float) (Potential Float)) :=
  match t.block global settings with
  | .error e => .quiet (.error e)
  | .ok b =>
    match t.weight, t.distance with
    | .hard, _ => do
      Logged.note (.hardRuleRouted t.termId t.comparator)
      Potential.hardRule b t.comparator
    | .soft _, .squared => Potential.squaredHinge b fallback
    | .soft _, .linear => Potential.linearHinge b

end GroundedTerm

end RuleConsensus
