import RuleConsensus.Journal
import RuleConsensus.Minimizer.Error
import RuleConsensus.Term.Comparator

/-!
What the journal records: terms as they are built, the regime of every local solve, and the
course of every minimisation behind one. An event keeps the data; its line is written last.
-/

set_option autoImplicit false
set_option relaxedAutoImplicit false

namespace RuleConsensus

inductive Level
  | trace | debug | warn
  deriving DecidableEq, Repr

def Level.name : Level → String
  | trace => "trace"
  | debug => "debug"
  | warn => "warn"

inductive Event (α : Type)
  | squaredHingeBuilt (termId arity : Nat) (weight : α)
  | linearHingeBuilt (termId arity : Nat) (weight : α)
  | hardRuleBuilt (termId arity : Nat) (comparator : Comparator)
  | hardRuleRouted (termId : Nat) (comparator : Comparator)
  | squaredHingeInactive (termId : Nat)
  | squaredHingeActive (termId arity : Nat)
  | fallbackFailed (termId : Nat) (cause : MinimizeError α)
  | linearHingeInactive (termId : Nat)
  | linearHingeShifted (termId : Nat)
  | linearHingeProjected (termId : Nat)
  | candidateFeasible (termId : Nat)
  | candidateProjected (termId : Nat)
  | startSeen (value : α) (gradientNorm : Option α)
  | capReached (iterations : Nat) (gradientNorm : Option α)
  | fallbackFinished (status : String) (iterations : Nat) (value : α)

namespace Event

def level {α : Type} : Event α → Level
  | squaredHingeBuilt .. | linearHingeBuilt .. | hardRuleBuilt .. | hardRuleRouted ..
  | fallbackFinished .. => .debug
  | fallbackFailed .. | capReached .. => .warn
  | _ => .trace

/-- What stands for a gradient norm that was lost. -/
def unknownNorm : String := "unknown"

def text : Event Float → String
  | squaredHingeBuilt termId arity weight =>
    s!"squared hinge term {termId}: arity={arity}, weight={messageText weight}"
  | linearHingeBuilt termId arity weight =>
    s!"linear hinge term {termId}: arity={arity}, weight={messageText weight}"
  | hardRuleBuilt termId arity comparator =>
    s!"hard constraint term {termId}: arity={arity}, kind={comparator.label}"
  | hardRuleRouted termId comparator =>
    s!"term {termId}: hard rule routed to a {comparator.label} constraint"
  | squaredHingeInactive termId => s!"squared hinge term {termId}: inactive, x = z - y/rho"
  | squaredHingeActive termId arity =>
    if arity = 1 || arity = 2 then
      s!"squared hinge term {termId}: active, arity-{arity} closed form"
    else s!"squared hinge term {termId}: active, arity-{arity} fallback"
  | fallbackFailed termId cause =>
    s!"squared hinge term {termId}: fallback failed: {cause.message}"
  | linearHingeInactive termId => s!"linear hinge term {termId}: inactive"
  | linearHingeShifted termId => s!"linear hinge term {termId}: active, linear side"
  | linearHingeProjected termId => s!"linear hinge term {termId}: active, projected onto the kink"
  | candidateFeasible termId => s!"hard constraint term {termId}: candidate feasible"
  | candidateProjected termId => s!"hard constraint term {termId}: projecting candidate"
  | startSeen value (some norm) =>
    s!"init: f(x0) = {placesText 6 value}, ||grad|| = {placesText 6 norm}"
  | startSeen value none => s!"init: f(x0) = {placesText 6 value}"
  | capReached iterations norm =>
    s!"L-BFGS fallback hit the iteration cap after {iterations} iterations " ++
      s!"(grad norm {(norm.map messageText).getD unknownNorm})"
  | fallbackFinished status iterations value =>
    s!"L-BFGS fallback finished: status={status}, iterations={iterations}, " ++
      s!"value={scientificText 3 value}"

def line (e : Event Float) : String := s!"{e.level.name} {e.text}"

end Event

end RuleConsensus
