import RuleConsensus.Proofs.Term.Run

set_option autoImplicit false
set_option relaxedAutoImplicit false

namespace RuleConsensus

variable {α : Type}

/-- Two fallbacks give the same point or fail alike, whatever they are asked. What they record on
the way may differ. -/
def Fallback.Alike (f g : Fallback α) : Prop :=
  ∀ objective seed, (f.minimize objective seed).value = (g.minimize objective seed).value

/-- Two updates leave related states behind, and fail alike. -/
structure Update.Alike {σ ε : Type} (R : σ → σ → Prop) (u v : Update σ ε) : Prop where
  state : R u.state v.state
  failure : u.failure = v.failure

/-- Two terms in the same state and of the same kind. If they have fallbacks, these answer alike. -/
inductive Potential.Alike : Potential α → Potential α → Prop
  | same (p : Potential α) : Alike p p
  | refitted (b : Block α) {f g : Fallback α} : f.Alike g →
    Alike ⟨b, .squaredHinge f⟩ ⟨b, .squaredHinge g⟩

namespace Potential.Alike

variable {p q : Potential α}

theorem block_eq (alike : p.Alike q) : p.block = q.block := by
  cases alike with
  | same => rfl
  | refitted => rfl

theorem change (alike : p.Alike q) (f : Block α → Block α) :
    Alike ⟨f p.block, p.kind⟩ ⟨f q.block, q.kind⟩ := by
  cases alike with
  | same => exact .same _
  | refitted b answers => exact .refitted (f b) answers

end Potential.Alike

variable [Scalar α]

namespace SquaredHinge

variable {f g : Fallback α}

theorem solveByFallback_congr (answers : f.Alike g) (b : Block α) (v : List α) :
    (solveByFallback b f v).value = (solveByFallback b g v).value := by
  have same := answers ((landscape b).objective b) v
  simp only [solveByFallback, Logged.value_bind, same]

theorem solve_congr (answers : f.Alike g) (b : Block α) :
    (solve b f).value = (solve b g).value := by
  have active : (solveActive b f b.candidate).value = (solveActive b g b.candidate).value := by
    unfold solveActive
    split
    case h_1 => rfl
    case h_2 => rfl
    case h_3 => exact solveByFallback_congr answers b b.candidate
  rw [value_solve, value_solve, active]

end SquaredHinge

namespace Potential.Alike

variable {p q p' q' : Potential α}

theorem solution_eq (alike : p.Alike q) : p.solution.value = q.solution.value := by
  cases alike with
  | same => rfl
  | refitted b answers => exact SquaredHinge.solve_congr answers b

theorem solve (alike : p.Alike q) : Update.Alike Alike p.solve.value q.solve.value := by
  have same := alike.solution_eq
  obtain ⟨x, found, stored⟩ | ⟨e, refused, failed⟩ := p.solve_cases
  · rw [stored, solve_of_found (same.symm.trans found)]
    exact ⟨alike.change fun b => { b with x := x }, rfl⟩
  · rw [failed, solve_of_not_found (same.symm.trans refused)]
    exact ⟨alike, rfl⟩

theorem checkedUpdate (alike : p.Alike q) (stored : p'.Alike q') (what : String) (v : List α) :
    Update.Alike Alike (Potential.checkedUpdate what v p p')
      (Potential.checkedUpdate what v q q') := by
  unfold Potential.checkedUpdate
  rw [alike.block_eq]
  cases checkLocalVector what v q.block.arity with
  | ok _ => exact ⟨stored, rfl⟩
  | error e => exact ⟨alike, rfl⟩

theorem setConsensus (alike : p.Alike q) (v : List α) :
    Update.Alike Alike (p.setConsensus v) (q.setConsensus v) := by
  rw [setConsensus_eq, setConsensus_eq]
  exact alike.checkedUpdate (alike.change fun b => { b with z := v }) "consensus" v

theorem dualStep (alike : p.Alike q) : Update.Alike Alike p.dualStep q.dualStep :=
  ⟨alike.change fun b => b.dualStep.state,
    congrArg (fun b : Block α => b.dualStep.failure) alike.block_eq⟩

theorem proximalStep (alike : p.Alike q) (v : List α) :
    Update.Alike Alike (p.proximalStep v).value (q.proximalStep v).value := by
  obtain ⟨state, failure⟩ := alike.setConsensus v
  unfold Potential.proximalStep
  dsimp only
  rw [failure]
  cases (q.setConsensus v).failure with
  | none => exact state.solve
  | some e => exact alike.setConsensus v

theorem apply (alike : p.Alike q) (operation : Operation α) :
    Update.Alike Alike (p.apply operation) (q.apply operation) := by
  cases operation with
  | setConsensus v => exact alike.setConsensus v
  | setDual v =>
    change Update.Alike Alike (p.setDual v) (q.setDual v)
    rw [setDual_eq, setDual_eq]
    exact alike.checkedUpdate (alike.change fun b => { b with y := v }) "dual" v
  | dualStep => exact alike.dualStep
  | solve => exact alike.solve
  | proximalStep v => exact alike.proximalStep v

theorem run (alike : p.Alike q) (operations : List (Operation α)) :
    (p.run operations).Alike (q.run operations) := by
  induction operations generalizing p q with
  | nil => exact alike
  | cons operation rest ih =>
    have first := alike.apply operation
    exact ih first.state

end Potential.Alike

end RuleConsensus
