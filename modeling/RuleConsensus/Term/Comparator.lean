set_option autoImplicit false
set_option relaxedAutoImplicit false

namespace RuleConsensus

/-- A hard rule holds where its margin is at most zero, or where it is zero. -/
inductive Comparator
  | inequality
  | equality
  deriving DecidableEq, Repr

namespace Comparator

def name : Comparator → String
  | inequality => "inequality"
  | equality => "equality"

def label : Comparator → String
  | inequality => "Inequality"
  | equality => "Equality"

end Comparator

end RuleConsensus
