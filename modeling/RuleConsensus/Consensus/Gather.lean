import RuleConsensus.Term.Potential

set_option autoImplicit false
set_option relaxedAutoImplicit false

namespace RuleConsensus

variable {α : Type}

def gatherFrom (global : List α) : Nat → List Nat → Except (TermError α) (List α)
  | _, [] => .ok []
  | position, index :: rest =>
    match global[index]? with
    | none => .error (.indexOutOfRange position index global.length)
    | some v => do
      let vs ← gatherFrom global (position + 1) rest
      pure (v :: vs)

/-- The entries of the global vector that an index map names. -/
def gather (global : List α) (indices : List Nat) : Except (TermError α) (List α) :=
  gatherFrom global 0 indices

namespace Potential

variable [Scalar α]

def stepFrom (p : Potential α) (global : List α) :
    Logged (Event α) (Update (Potential α) (TermError α)) :=
  match gather global p.block.indices with
  | .ok v => p.proximalStep v
  | .error e => .quiet (.failed p (.reported e))

/-- Gather the slice of a term, take it as consensus, and move the dual. -/
def commitFrom (p : Potential α) (global : List α) : Update (Potential α) (TermError α) :=
  match gather global p.block.indices with
  | .error e => .failed p (.reported e)
  | .ok v =>
    let u := p.setConsensus v
    match u.failure with
    | some _ => u
    | none => u.state.dualStep

end Potential

end RuleConsensus
