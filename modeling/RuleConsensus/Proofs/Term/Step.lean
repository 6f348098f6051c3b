import RuleConsensus.Proofs.Term.Feasibility
import RuleConsensus.Proofs.Term.WellFormed
import RuleConsensus.Term.Fallback

set_option autoImplicit false
set_option relaxedAutoImplicit false

namespace RuleConsensus.Potential

variable {α : Type} [Scalar α]

/-- What a failed proximal step leaves behind: an accepted slice stays as the consensus, and
nothing else has changed. So the term is as before exactly if the slice was refused, or was the
consensus already. -/
theorem failed_step_unchanged_iff (p : Potential α) (v : List α)
    (failed : (p.proximalStep v).value.failure ≠ none) :
    (p.proximalStep v).value.state =
        p.withConsensus (if p.Accepts v then v else p.block.z) ∧
      ((p.proximalStep v).value.state = p ↔ (p.Accepts v → v = p.block.z)) := by
  have replaced (z : List α) : p.withConsensus z = p ↔ z = p.block.z := by
    constructor
    · intro h
      exact congrArg (fun q : Potential α => q.block.z) h
    · intro h
      rw [h]
      rfl
  obtain ⟨ha, hv⟩ | ⟨ha, e, he⟩ := p.proximalStep_value v
  · -- The slice was taken, so it was the solve that failed, and that keeps the term.
    rw [hv] at failed ⊢
    obtain ⟨x, _, hx⟩ | ⟨e, _, he⟩ := (p.withConsensus v).solve_cases
    · rw [hx] at failed
      exact absurd rfl failed
    · rw [he, Update.state_failed, if_pos ha, replaced]
      exact ⟨rfl, fun h _ => h, fun h => h ha⟩
  · rw [he, Update.state_failed, if_neg ha]
    exact ⟨rfl, fun _ h => absurd h ha, fun _ => rfl⟩

def abandoned : Potential Float :=
  ⟨⟨1, [1.0, 1.0, 1.0], 0.0, 1.0, 1.0, [0, 1, 2], [0.0, 0.0, 0.0], Vector.zeros 3,
    [0.0, 0.0, 0.0]⟩, .squaredHinge (Fallback.failing (.notConverged 3 none))⟩

theorem failed_step_unchanged_refused :
    (abandoned.proximalStep [1.0]).value.failure ≠ none ∧
      (abandoned.proximalStep [1.0]).value.state = abandoned := by
  have failed : (abandoned.proximalStep [1.0]).value.failure ≠ none :=
    Option.isSome_iff_ne_none.mp (by decide)
  have refused : ¬abandoned.Accepts [1.0] := by decide
  exact ⟨failed, (failed_step_unchanged_iff abandoned [1.0] failed).2.mpr fun h => absurd h refused⟩

/-- A built term whose proximal step fails with another consensus than before. -/
theorem failed_step_replaces_consensus :
    abandoned.Constructed ∧ (abandoned.proximalStep [1.0, 2.0, 3.0]).value.failure ≠ none ∧
      (abandoned.proximalStep [1.0, 2.0, 3.0]).value.state.block.z ≠ abandoned.block.z := by
  exact ⟨constructed_of_checks (by decide) (by decide +kernel),
    Option.isSome_iff_ne_none.mp (by decide), by decide⟩

/-- Behind a hinge only a finite primal is found. Behind a hard rule it is the projection that is
found, finite or not. -/
theorem solution_finite_iff {p : Potential α} {x : List α} (found : p.solution.value = .ok x) :
    Vector.Finite x ↔
      ∀ comparator, p.kind = .hardRule comparator →
        Vector.Finite (HardRule.projected p.block comparator) := by
  obtain ⟨b, kind⟩ := p
  cases kind with
  | squaredHinge fallback =>
    have finite := (SquaredHinge.solve_eq_ok_iff.mp found).2
    exact iff_of_true finite fun comparator h => nomatch h
  | linearHinge =>
    have finite := (LinearHinge.solve_eq_ok_iff.mp found).2
    exact iff_of_true finite fun comparator h => nomatch h
  | hardRule comparator =>
    have hx : HardRule.projected b comparator = x :=
      Except.ok.inj ((HardRule.solve_eq_ok b comparator).symm.trans found)
    constructor
    · rintro finite _ ⟨⟩
      rw [hx]
      exact finite
    · intro h
      rw [← hx]
      exact h comparator rfl

theorem primal_finite_iff_projected (origin : Potential α) (operations : List (Operation α))
    {operation : Operation α} (solves : operation.Solves)
    (done : ((origin.run operations).apply operation).failure = none) :
    Vector.Finite ((origin.run operations).apply operation).state.block.x ↔
      ∀ comparator, origin.kind = .hardRule comparator →
        Vector.Finite (HardRule.projected
          ((origin.run operations).apply operation).state.block comparator) := by
  obtain ⟨z, x, found, after⟩ := exists_solution_of_done solves done
  have kept := (origin.run_sameRule operations).kind_eq
  rw [after, ← kept]
  -- The projection does not read the primal, so it is the same before and after it is stored.
  exact solution_finite_iff found

theorem finite_projected_iff_of_run {origin : Potential Float} {comparator : Comparator}
    (constructed : origin.Constructed) (kind : origin.kind = .hardRule comparator)
    (operations : List (Operation Float)) (operation : Operation Float) :
    Vector.Finite (HardRule.projected
        ((origin.run operations).apply operation).state.block comparator) ↔
      HardRule.Settles ((origin.run operations).apply operation).state.block comparator := by
  have keeps : origin.KeepsLength := fun _ rule => nomatch kind.symm.trans rule
  have writes := (origin.run_writes operations).trans ((origin.run operations).apply_writes operation)
  have formed := constructed.wellFormed.of_writes keeps writes
  have accepted := constructed.acceptedRule kind (sameRule_of_writes writes)
  exact HardRule.finite_projected_iff accepted.finite_coefficients accepted.arity_pos
    (Block.length_candidate formed.length_y formed.length_z)

/-- Whatever operations a term has seen, a solve that succeeds stores a finite primal exactly if
the term is a hinge, or the projection of its hard rule comes to a finite point. In binary64 that of
a built rule does exactly if its candidate is finite and, where that is outside, so are the margin
over the square of the length and every coordinate that is corrected by it, unless the square is
zero, or alone infinite. -/
theorem solved_primal_finite_iff :
    (∀ (origin : Potential α) operations operation,
      operation.Solves → ((origin.run operations).apply operation).failure = none →
        (Vector.Finite ((origin.run operations).apply operation).state.block.x ↔
          ∀ comparator, origin.kind = .hardRule comparator →
            Vector.Finite (HardRule.projected
              ((origin.run operations).apply operation).state.block comparator))) ∧
    ∀ origin : Potential Float, origin.Constructed → ∀ operations operation,
      operation.Solves → ((origin.run operations).apply operation).failure = none →
        (Vector.Finite ((origin.run operations).apply operation).state.block.x ↔
          ∀ comparator, origin.kind = .hardRule comparator →
            HardRule.Settles ((origin.run operations).apply operation).state.block comparator) := by
  constructor
  · intro origin operations operation solves done
    exact primal_finite_iff_projected origin operations solves done
  · intro origin constructed operations operation solves done
    rw [primal_finite_iff_projected origin operations solves done]
    refine forall₂_congr fun comparator kind => ?_
    exact finite_projected_iff_of_run constructed kind operations operation

/-- The square of the steep rule is infinite, and its margin is not. -/
theorem solved_primal_finite_steep :
    ((steep.run [.setDual [-2.0]]).apply (.proximalStep [2.0])).failure = none ∧
      HardRule.Settles ((steep.run [.setDual [-2.0]]).apply (.proximalStep [2.0])).state.block
        .inequality ∧
      Vector.Finite
        ((steep.run [.setDual [-2.0]]).apply (.proximalStep [2.0])).state.block.x := by
  have projects := HardRule.solve_eq_ok
    ((steep.run [.setDual [-2.0]]).withConsensus [2.0]).block .inequality
  have stepped : (steep.run [.setDual [-2.0]]).apply (.proximalStep [2.0]) = _ :=
    proximalStep_of_found (p := steep.run [.setDual [-2.0]]) (v := [2.0]) (by decide) projects
  have done : ((steep.run [.setDual [-2.0]]).apply (.proximalStep [2.0])).failure = none := by
    rw [stepped, Update.failure_done]
  have settles : HardRule.Settles
      ((steep.run [.setDual [-2.0]]).apply (.proximalStep [2.0])).state.block .inequality := by
    rw [stepped, Update.state_done]
    exact ⟨by decide, fun _ => .overflow (by decide +kernel) (by decide +kernel)⟩
  have finite_iff := (solved_primal_finite_iff (α := Float)).2 steep steep_constructed
    [.setDual [-2.0]] (.proximalStep [2.0]) (.proximalStep [2.0]) done
  refine ⟨done, settles, finite_iff.mpr ?_⟩
  rintro _ ⟨⟩
  exact settles

/-- A built hard rule whose solve succeeds with an undefined primal. -/
theorem solve_stores_undefined :
    steep.Constructed ∧ steep.solve.value.failure = none ∧
      ¬Vector.Finite steep.solve.value.state.block.x := by
  have solved := solve_of_found (p := steep) (HardRule.solve_eq_ok steep.block .inequality)
  rw [solved, Update.failure_done, Update.state_done]
  exact ⟨steep_constructed, rfl, by decide +kernel⟩

end RuleConsensus.Potential
