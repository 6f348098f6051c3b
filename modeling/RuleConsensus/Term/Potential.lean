import RuleConsensus.Term.HardRule
import RuleConsensus.Term.LinearHinge
import RuleConsensus.Term.SquaredHinge

set_option autoImplicit false
set_option relaxedAutoImplicit false

namespace RuleConsensus

/-- The kinds of potentials. A squared hinge brings its fallback along. -/
inductive Kind (α : Type)
  | squaredHinge (fallback : Fallback α)
  | linearHinge
  | hardRule (comparator : Comparator)

structure Potential (α : Type) where
  block : Block α
  kind : Kind α

namespace Potential

variable {α : Type} [Scalar α]

def squaredHinge (b : Block α) (fallback : Fallback α) :
    Logged (Event α) (Except (TermError α) (Potential α)) :=
  match SquaredHinge.check b with
  | .error e => .quiet (.error e)
  | .ok () =>
    ⟨.ok ⟨b, .squaredHinge fallback⟩, [.squaredHingeBuilt b.termId b.arity b.weight]⟩

def linearHinge (b : Block α) : Logged (Event α) (Except (TermError α) (Potential α)) :=
  match LinearHinge.check b with
  | .error e => .quiet (.error e)
  | .ok () => ⟨.ok ⟨b, .linearHinge⟩, [.linearHingeBuilt b.termId b.arity b.weight]⟩

def hardRule (b : Block α) (comparator : Comparator) :
    Logged (Event α) (Except (TermError α) (Potential α)) :=
  match HardRule.check b comparator with
  | .error e => .quiet (.error e)
  | .ok () => ⟨.ok ⟨b, .hardRule comparator⟩, [.hardRuleBuilt b.termId b.arity comparator]⟩

def landscape (p : Potential α) : Landscape α :=
  match p.kind with
  | .squaredHinge _ => SquaredHinge.landscape p.block
  | .linearHinge => LinearHinge.landscape p.block
  | .hardRule comparator => HardRule.landscape p.block comparator

def evaluate (p : Potential α) (q : List α) : Except (TermError α) α :=
  p.landscape.evaluate q

def gradient (p : Potential α) (q : List α) : Except (TermError α) (List α) :=
  p.landscape.gradient q

def augmentedValue (p : Potential α) (q : List α) : Except (TermError α) α :=
  p.landscape.augmentedValue p.block q

def objective (p : Potential α) : Objective α := p.landscape.objective p.block

def solution (p : Potential α) : Logged (Event α) (Except (Failure (TermError α)) (List α)) :=
  match p.kind with
  | .squaredHinge fallback => SquaredHinge.solve p.block fallback
  | .linearHinge => LinearHinge.solve p.block
  | .hardRule comparator => HardRule.solve p.block comparator

/-- Solve for the present consensus and dual, and keep the primal. -/
def solve (p : Potential α) : Logged (Event α) (Update (Potential α) (TermError α)) :=
  p.solution.map fun
    | .ok x => .done { p with block := { p.block with x := x } }
    | .error e => .failed p e

def setConsensus (p : Potential α) (v : List α) : Update (Potential α) (TermError α) :=
  (p.block.setConsensus v).map fun b => { p with block := b }

def setDual (p : Potential α) (v : List α) : Update (Potential α) (TermError α) :=
  (p.block.setDual v).map fun b => { p with block := b }

def dualStep (p : Potential α) : Update (Potential α) (TermError α) :=
  p.block.dualStep.map fun b => { p with block := b }

/-- Take a consensus vector and solve for it. A consensus that is taken stays, even if the solve
fails. -/
def proximalStep (p : Potential α) (v : List α) :
    Logged (Event α) (Update (Potential α) (TermError α)) :=
  let u := p.setConsensus v
  match u.failure with
  | some _ => .quiet u
  | none => u.state.solve

end Potential

end RuleConsensus
