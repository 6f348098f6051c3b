import RuleConsensus.Consensus.Gather

/-!
Rounds of the consensus method. In a round every term solves from its slice of the global vector,
every global entry becomes the mean of what its terms propose, and every term takes the new slice
and moves its dual. A round that fails at some term stops there, and keeps what it reached.
-/

set_option autoImplicit false
set_option relaxedAutoImplicit false

namespace RuleConsensus

structure Session (α : Type) where
  global : List α
  terms : List (Potential α)

namespace Session

variable {α : Type} [Scalar α]

/-- Solve every term in order from the global vector, up to the first failure. -/
def solveAll (global : List α) :
    List (Potential α) → Logged (Event α) (Update (List (Potential α)) (TermError α))
  | [] => pure (.done [])
  | p :: ps => do
    let u ← p.stepFrom global
    match u.failure with
    | some _ => pure (u.map fun q => q :: ps)
    | none => do
      let rest ← solveAll global ps
      pure (rest.map fun qs => u.state :: qs)

/-- What is proposed position by position, with the index of the global entry it is for. Every index
takes an entry of the primal and one of the dual. -/
def propose? (rho : α) : List Nat → List α → List α → Option (List (Nat × α))
  | [], _, _ => some []
  | j :: js, x :: xs, y :: ys => (propose? rho js xs ys).map ((j, x + y / rho) :: ·)
  | _ :: _, _, _ => none

def proposals (rho : α) (p : Potential α) : Option (List (Nat × α)) :=
  propose? rho p.block.indices p.block.x p.block.y

def proposalsFor (proposed : List (Nat × α)) (j : Nat) : List α :=
  (proposed.filter (·.1 == j)).map (·.2)

def mean (vs : List α) : α := vs.foldl (· + ·) 0 / (vs.map fun _ => 1).foldl (· + ·) 0

/-- A global vector with every entry replaced by the mean of what is proposed for it. An entry that
nothing is proposed for keeps its value. -/
def means (proposed : List (Nat × α)) (global : List α) : List α :=
  global.mapIdx fun j old =>
    match proposalsFor proposed j with
    | [] => old
    | v :: vs => mean (v :: vs)

/-- The new global vector, unless a term lacks an entry to propose or the vector one to take it. -/
def average (rho : α) (terms : List (Potential α)) (global : List α) : Option (List α) := do
  let proposed ← terms.mapM (proposals rho)
  if proposed.flatten.all (·.1 < global.length) then pure (means proposed.flatten global) else none

/-- Give every term in order its slice of the global vector and move its dual, up to the first
failure. -/
def commitAll (global : List α) :
    List (Potential α) → Update (List (Potential α)) (TermError α)
  | [] => .done []
  | p :: ps =>
    let u := p.commitFrom global
    match u.failure with
    | some _ => u.map fun q => q :: ps
    | none => (commitAll global ps).map fun qs => u.state :: qs

/-- The greatest distance between primal and consensus over the terms, at least zero. -/
def residual (terms : List (Potential α)) : Option α := do
  let distances ← terms.mapM (·.block.primalResidual)
  pure (distances.foldl Scalar.larger 0)

/-- One round. The global vector is replaced as soon as every term has solved. A round breaks off
where an average or a gap asks for entries that are not there. -/
def round (rho : α) (s : Session α) : Logged (Event α) (Update (Session α) (TermError α)) := do
  let solved ← solveAll s.global s.terms
  match solved.failure with
  | some e => pure (.failed ⟨s.global, solved.state⟩ e)
  | none =>
    match average rho solved.state s.global with
    | none => pure (.failed ⟨s.global, solved.state⟩ .silent)
    | some global =>
      let committed := commitAll global solved.state
      match committed.failure with
      | some e => pure (.failed ⟨global, committed.state⟩ e)
      | none => pure (.done ⟨global, committed.state⟩)

/-- What some rounds leave behind: the session, the residual of the last completed round, zero if
there was none, and the failure of a round with its number, counted from one. -/
structure Run (α : Type) where
  session : Session α
  residual : α
  failure : Option (Nat × Failure (TermError α))

/-- Rounds up to the first failure, after some that were completed. -/
def roundsAfter (rho : α) (completed : Nat) (last : α) :
    Nat → Session α → Logged (Event α) (Run α)
  | 0, s => pure ⟨s, last, none⟩
  | n + 1, s => do
    let u ← s.round rho
    match u.failure with
    | some e => pure ⟨u.state, last, some (completed + 1, e)⟩
    | none =>
      match residual u.state.terms with
      | none => pure ⟨u.state, last, some (completed + 1, .silent)⟩
      | some latest => roundsAfter rho (completed + 1) latest n u.state

def rounds (rho : α) (n : Nat) (s : Session α) : Logged (Event α) (Run α) :=
  roundsAfter rho 0 0 n s

end Session

end RuleConsensus
