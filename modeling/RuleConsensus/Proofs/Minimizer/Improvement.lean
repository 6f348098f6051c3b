import RuleConsensus.Proofs.Binary.Order
import RuleConsensus.Proofs.Minimizer.Points
import RuleConsensus.Proofs.Term.Containment

set_option autoImplicit false
set_option relaxedAutoImplicit false

namespace RuleConsensus

namespace Lbfgs

variable {settings : Settings} {f : Objective Float} {x : List Float}

/-- The best cost of a descent lies no higher than the value at its start. -/
def State.NoWorse (f : Objective Float) (x : List Float) (s : State) : Prop :=
  ∃ v, f.value x = .ok v ∧ s.bestCost ≤ v

theorem State.noWorse_initial {s : State} (h : State.initial f.oracle x = .ok s) :
    s.NoWorse f x := by
  obtain ⟨cost, _, found, _, rfl⟩ := State.initial_eq_ok_iff.mp h
  obtain ⟨value, finite⟩ := (f.guards.cost _ _).mp found
  exact ⟨cost, value, Binary.le_refl (Binary.isNaN_of_isFinite finite)⟩

theorem State.NoWorse.advance {s after : State} (noWorse : s.NoWorse f x) {landing : Landing}
    (h : s.advance settings f.oracle landing = .ok after) : after.NoWorse f x := by
  obtain ⟨v, value, below⟩ := noWorse
  rcases bind_eq_ok.mp h with ⟨_, _, h⟩
  obtain rfl := pure_eq_ok.mp h
  refine ⟨v, value, ?_⟩
  dsimp only
  split
  case isTrue better => exact Binary.le_trans (Binary.le_of_lt better) below
  case isFalse => exact below

theorem Reached.noWorse {s : State} (reached : Reached settings f.oracle x s) :
    s.NoWorse f x := by
  induction reached with
  | start start => exact State.noWorse_initial start
  | land _ _ _ moved ih => exact ih.advance moved

end Lbfgs

/-- An outcome with the value at its point, which is finite, as long as the start, and no worse. -/
structure Outcome.Improves (f : Objective Float) (x : List Float) (out : Outcome) : Prop where
  length : out.point.length = x.length
  finite : Vector.Finite out.point
  finite_value : out.value.isFinite = true
  value : f.value out.point = .ok out.value
  noWorse : ∃ v, f.value x = .ok v ∧ out.value ≤ v

section Minimize

variable {traced : Bool} {f : Objective Float} {x : List Float} {options : MinimizerOptions}
  {out : Outcome}

theorem improves_of_minimize (h : (minimize traced f x options).value = .ok out) :
    out.Improves f x := by
  have long := length_point_of_minimize h
  obtain ⟨settings, r, _, found, finite, rfl⟩ := exists_result_of_minimize h
  obtain ⟨s, reached, point, cost⟩ := Lbfgs.exists_reached_of_descend found
  obtain ⟨value, finite_value⟩ := (f.guards.cost _ _).mp reached.honest.best
  obtain ⟨v, start, below⟩ := reached.noWorse
  rw [← point, ← cost] at value
  rw [← cost] at finite_value below
  exact ⟨long, finite, finite_value, value, v, start, below⟩

theorem capReached_iff_of_minimize {settings : Lbfgs.Settings}
    (taken : Lbfgs.Settings.ofOptions options = .ok settings)
    (h : (minimize traced f x options).value = .ok out) :
    out.capReached = true ↔ Lbfgs.Capped settings f.oracle x := by
  obtain ⟨settings', r, taken', found, _, rfl⟩ := exists_result_of_minimize h
  obtain rfl := Except.ok.inj (taken'.symm.trans taken)
  rw [← Lbfgs.reason_eq_maxItersReached_iff found]
  change (Termination.stopped r.reason == .stopped .maxItersReached) = true ↔ _
  rw [beq_iff_eq, Termination.stopped.injEq]

end Minimize

/-- The primal that a wide hinge with a say stores is the point of an outcome. -/
theorem exists_outcome_of_solve {p : Potential Float} {traced : Bool} {options : MinimizerOptions}
    (kind : p.kind = .squaredHinge (Fallback.lbfgs traced options)) (wide : 3 ≤ p.block.arity)
    (active : SquaredHinge.inactive p.block p.block.candidate = false)
    (done : p.solve.value.failure = none) :
    ∃ out, (minimize traced p.objective p.block.candidate options).value = .ok out ∧
      out.capReached = false ∧ p.solve.value = .done (p.withPrimal out.point) := by
  obtain ⟨x, found, stored⟩ | ⟨e, _, failed⟩ := p.solve_cases
  · obtain ⟨b, _⟩ := p
    obtain rfl := kind
    have solved := (SquaredHinge.solve_eq_ok_iff.mp found).1
    rw [active, if_neg Bool.false_ne_true, SquaredHinge.solveActive_of_wide wide] at solved
    obtain ⟨out, minimized, uncapped, rfl⟩ :=
      Fallback.lbfgs_eq_ok_iff.mp (SquaredHinge.solveByFallback_eq_ok_iff.mp solved)
    exact ⟨out, minimized, uncapped, stored⟩
  · rw [failed] at done
    cases done

/-- What a minimisation answers is the value at a finite point and no worse than the start. A wide
hinge with a say stores such a point, so its primal costs no more than its candidate, and the run
that found it was not stopped by the iteration cap. -/
theorem minimize_no_worse (traced : Bool) (options : MinimizerOptions) :
    (∀ f x out, (minimize traced f x options).value = .ok out → out.Improves f x) ∧
    ∀ p : Potential Float, p.kind = .squaredHinge (Fallback.lbfgs traced options) →
      3 ≤ p.block.arity → SquaredHinge.inactive p.block p.block.candidate = false →
      p.solve.value.failure = none →
        ∃ settings out v, Lbfgs.Settings.ofOptions options = .ok settings ∧
          ¬Lbfgs.Capped settings p.objective.oracle p.block.candidate ∧
          (minimize traced p.objective p.block.candidate options).value = .ok out ∧
          p.solve.value.state = p.withPrimal out.point ∧
          p.augmentedValue out.point = .ok out.value ∧
          p.augmentedValue p.block.candidate = .ok v ∧ out.value ≤ v := by
  refine ⟨fun f x out => improves_of_minimize, fun p kind wide active done => ?_⟩
  obtain ⟨out, minimized, uncapped, stored⟩ := exists_outcome_of_solve kind wide active done
  obtain ⟨settings, _, taken, _⟩ := exists_result_of_minimize minimized
  have improves := improves_of_minimize minimized
  obtain ⟨v, start, below⟩ := improves.noWorse
  refine ⟨settings, out, v, taken, fun capped => ?_, minimized, ?_, ?_, ?_, below⟩
  · have cap := (capReached_iff_of_minimize taken minimized).mpr capped
    exact Bool.false_ne_true (uncapped.symm.trans cap)
  · rw [stored, Update.state_done]
  · exact asObjectiveFailure_eq_ok_iff.mp improves.value
  · exact asObjectiveFailure_eq_ok_iff.mp start

/-- A hinge over three variables. One step down the gradient minimises its cost. -/
def threefold : Potential Float :=
  ⟨⟨1, [1.0, 1.0, 1.0], 0.0, 0.125, 0.25, [0, 1, 2], [1.0, 1.0, 1.0], Vector.zeros 3,
    [1.0, 1.0, 1.0]⟩, .squaredHinge (Fallback.lbfgs false .default)⟩

def threefoldStart : Lbfgs.State :=
  ⟨[1.0, 1.0, 1.0], 1.125, Scalar.infinity, [0.75, 0.75, 0.75], [1.0, 1.0, 1.0], 1.125, 0, [], 1, 1⟩

def threefoldLanding : Landing := ⟨[0.25, 0.25, 0.25], 0.28125, 1⟩

set_option maxRecDepth 4000 in
/-- The first trial of the first search is accepted, and the gradient vanishes there. -/
theorem descend_threefold :
    ∃ r, Lbfgs.descend usualSettings threefold.objective.oracle threefold.block.candidate = .ok r ∧
      r.reason = .solverConverged ∧ r.best = [0.25, 0.25, 0.25] ∧ r.bestCost = 0.28125 := by
  have started : Lbfgs.Reached usualSettings threefold.objective.oracle threefold.block.candidate
      threefoldStart := .start (by rfl)
  have on : threefoldStart.GoesOn usualSettings :=
    ⟨by decide, by decide +kernel, by decide +kernel⟩
  have tried : threefoldStart.ray.trial threefold.objective.oracle
      (MoreThuente.State.initial threefoldStart.ray).trialPosition = .ok ⟨1.0, 0.28125, 0.0⟩ := by
    rfl
  have landed : Lbfgs.search usualSettings threefold.objective.oracle threefoldStart.ray =
      .ok threefoldLanding :=
    MoreThuente.search_of_first_accepted (by decide) tried (by decide)
  obtain ⟨after, moved, converged, best, bestCost, left⟩ : ∃ after,
      threefoldStart.advance usualSettings threefold.objective.oracle threefoldLanding = .ok after ∧
        after.converged usualSettings = true ∧ after.best = [0.25, 0.25, 0.25] ∧
        after.bestCost = 0.28125 ∧ after.iterations = 1 :=
    ⟨_, rfl, by decide, by rfl, by rfl, rfl⟩
  have reached := started.land on landed moved
  refine ⟨after.stop .solverConverged, ?_, rfl, best, bestCost⟩
  rw [reached.descend_eq, left]
  exact if_pos converged

theorem solve_threefold : threefold.solve.value = .done (threefold.withPrimal [0.25, 0.25, 0.25]) := by
  obtain ⟨r, found, reason, best, bestCost⟩ := descend_threefold
  have finite : Vector.Finite r.best := by
    rw [best]
    decide
  have valued : r.bestCost.isFinite = true := by
    rw [bestCost]
    decide
  have minimized := minimize_of_descend false (by rfl) ofOptions_default found finite valued
  have uncapped : r.outcome.capReached = false := by
    rw [Lbfgs.Result.outcome, reason]
    rfl
  have answered := Fallback.lbfgs_eq_ok_iff.mpr ⟨_, minimized, uncapped, best⟩
  exact Potential.solve_of_finite_answer rfl (by decide) (by decide +kernel) answered
    (by decide)

theorem minimize_no_worse_threefold :
    threefold.solve.value.failure = none ∧
      ∃ (out : Outcome) (v : Float), out.Improves threefold.objective threefold.block.candidate ∧
        threefold.solve.value.state = threefold.withPrimal out.point ∧
        threefold.augmentedValue threefold.block.candidate = .ok v ∧ out.value ≤ v := by
  have done : threefold.solve.value.failure = none := by
    rw [solve_threefold, Update.failure_done]
  obtain ⟨improves, hinge⟩ := minimize_no_worse false .default
  obtain ⟨_, out, v, _, _, minimized, stored, _, start, below⟩ :=
    hinge threefold rfl (by decide) (by decide +kernel) done
  exact ⟨done, out, v, improves _ _ out minimized, stored, start, below⟩

end RuleConsensus
