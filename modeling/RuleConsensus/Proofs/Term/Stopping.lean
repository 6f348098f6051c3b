import RuleConsensus.Proofs.Term.Residual
import RuleConsensus.Proofs.Minimizer.Faults
import RuleConsensus.Proofs.Minimizer.Improvement

/-!
The usual fallback tests the length of the gradient before anything else, so a candidate that passes
the test is stored as it is, however far it is from the minimiser.
-/

set_option autoImplicit false
set_option relaxedAutoImplicit false

namespace RuleConsensus

open Binary

namespace Lbfgs

variable {settings : Settings} {oracle : Oracle} {x : List Float}

theorem best_of_descend_of_level
    (level : ∀ g, oracle.gradient x = .ok g → Vector.norm g < settings.gradientTolerance)
    {r : Result} (found : descend settings oracle x = .ok r) : r.best = x := by
  obtain ⟨s, start, ran⟩ := bind_eq_ok.mp found
  obtain ⟨cost, g, _, hg, rfl⟩ :=
    State.initial_eq_ok_iff.mp (Failure.report_eq_ok_iff.mp start)
  have converged : State.converged settings
      ⟨x, cost, Scalar.infinity, g, x, cost, 0, [], 1, 1⟩ = true := by
    rw [State.converged, decide_eq_true (level g hg), Bool.true_or]
  cases hn : settings.iterations with
  | zero =>
    rw [hn, run] at ran
    obtain rfl := pure_eq_ok.mp ran
    rfl
  | succ n =>
    rw [hn, run, if_pos converged] at ran
    obtain rfl := pure_eq_ok.mp ran
    rfl

end Lbfgs

namespace Potential

variable {q : Potential Float} {traced : Bool} {options : MinimizerOptions}
  {settings : Lbfgs.Settings}

theorem point_of_level (taken : Lbfgs.Settings.ofOptions options = .ok settings)
    (level : q.Level settings.gradientTolerance q.block.candidate) {out : Outcome}
    (minimized : (minimize traced q.objective q.block.candidate options).value = .ok out) :
    out.point = q.block.candidate := by
  obtain ⟨_, g, reported, small⟩ := level
  obtain ⟨settings', r, taken', found, _, rfl⟩ := exists_result_of_minimize minimized
  obtain rfl := Except.ok.inj (taken'.symm.trans taken)
  refine Lbfgs.best_of_descend_of_level (fun g' handed => ?_) found
  have known : q.objective.guardedGradient q.block.candidate = .ok g' := handed
  rw [Objective.guardedGradient_of_known reported] at known
  obtain ⟨_, _, same⟩ := bind_eq_ok.mp known
  obtain rfl := pure_eq_ok.mp same
  exact small

theorem stored_of_level (kind : q.kind = .squaredHinge (Fallback.lbfgs traced options))
    (taken : Lbfgs.Settings.ofOptions options = .ok settings) (wide : 3 ≤ q.block.arity)
    (done : q.solve.value.failure = none)
    (level : SquaredHinge.inactive q.block q.block.candidate = true ∨
      q.Level settings.gradientTolerance q.block.candidate) :
    q.solve.value.state.block.x = q.block.candidate := by
  cases idle : SquaredHinge.inactive q.block q.block.candidate with
  | true =>
    obtain ⟨x, found, stored⟩ | ⟨e, _, failed⟩ := q.solve_cases
    · rw [stored, Update.state_done]
      rw [solution, kind] at found
      have solved := (SquaredHinge.solve_eq_ok_iff.mp found).1
      rwa [idle, if_pos rfl] at solved
    · rw [failed] at done
      cases done
  | false =>
    obtain ⟨out, minimized, _, stored⟩ := exists_outcome_of_solve kind wide idle done
    rw [stored, Update.state_done]
    rw [idle] at level
    exact point_of_level taken (level.resolve_left Bool.false_ne_true) minimized

theorem level_of_slope {bound : Float} {x : List Float}
    (margin : (Vector.dot q.block.coefficients x - q.block.constant).isFinite = true)
    (slope : (q.objective.gradient x).toOption.any (fun g => decide (Vector.norm g < bound)) = true) :
    q.Level bound x := by
  refine ⟨margin, ?_⟩
  cases handed : q.objective.gradient x with
  | ok g =>
    rw [handed] at slope
    exact ⟨g, rfl, of_decide_eq_true slope⟩
  | error e =>
    rw [handed] at slope
    cases slope

/-- What the usual fallback of a wide hinge answers, whatever operations the term has seen. A
candidate where the hinge has no say is stored, and so is one that passes the gradient test. Where
the stored point passes that test, it is no farther from the exact minimiser than the bound of the
test and the roundings say, in parts of the step size. -/
theorem solve_fallback_accuracy {origin : Potential Float} {traced : Bool}
    (constructed : origin.Constructed)
    (kind : origin.kind = .squaredHinge (Fallback.lbfgs traced .default))
    (wide : 3 ≤ origin.block.arity) (operations : List (Operation Float))
    (finite : Vector.Finite (origin.run operations).block.candidate)
    (done : (origin.run operations).solve.value.failure = none) :
    let q := origin.run operations
    let v := q.block.candidate
    let x := q.solve.value.state.block.x
    (SquaredHinge.inactive q.block v = true → x = v) ∧ (q.Level 1e-8 v → x = v) ∧
      (q.Level 1e-8 x →
        ∀ d ∈ Vector.sub (x.map real) (SquaredHinge.target q.block.real),
          real q.block.stepSize * |d| ≤
            ((reach q.block.arity (value 1e-8) + SquaredHinge.noise q.block x : ℚ) : ℝ)) := by
  intro q v x
  have same : SameRule origin q := origin.run_sameRule operations
  have kept : q.kind = .squaredHinge (Fallback.lbfgs traced .default) := same.kind_eq.trans kind
  have keeps : origin.KeepsLength := by
    intro fallback h
    obtain rfl := Kind.squaredHinge.inj (kind.symm.trans h)
    exact Fallback.keepsLength_lbfgs traced .default
  have formed : q.WellFormed := constructed.wellFormed.of_writes keeps (origin.run_writes operations)
  have wide' : 3 ≤ q.block.arity := same.arity_eq.symm ▸ wide
  have twice : (Scalar.two * q.block.weight).isFinite = true := by
    obtain ⟨_, scale, _⟩ := SquaredHinge.check_eq_ok_iff.mp (constructed.check_squaredHinge kind)
    rw [same.weight_eq]
    exact (isFinite_of_mul scale).1
  have long : x.length = q.block.arity := by
    have after := formed.of_writes (same.keepsLength keeps) q.solve_writes
    exact after.length_x.trans (sameRule_of_writes q.solve_writes).arity_eq
  have bound : (1e-8 : Float).isFinite = true ∧ 0 ≤ value 1e-8 :=
    ⟨by decide, value_nonneg (by decide) (by decide)⟩
  refine ⟨fun idle => ?_, fun level => ?_, fun level => ?_⟩
  · exact stored_of_level kept ofOptions_default wide' done (.inl idle)
  · exact stored_of_level kept ofOptions_default wide' done (.inr level)
  · exact near_target_of_level formed kept twice finite bound.1 bound.2 long level

theorem solve_fallback_accuracy_threefold :
    (threefold.run []).solve.value.failure = none ∧
      (threefold.run []).Level 1e-8 (threefold.run []).solve.value.state.block.x ∧
      ∀ d ∈ Vector.sub ((threefold.run []).solve.value.state.block.x.map real)
        (SquaredHinge.target (threefold.run []).block.real), |d| ≤ 1 / 10 ^ 5 := by
  have constructed : threefold.Constructed :=
    constructed_of_checks (by decide +kernel) (by decide +kernel)
  have solved : (threefold.run []).solve.value =
      .done (threefold.withPrimal [0.25, 0.25, 0.25]) := solve_threefold
  have done : (threefold.run []).solve.value.failure = none := by
    rw [solved, Update.failure_done]
  have stored : (threefold.run []).solve.value.state.block.x = [0.25, 0.25, 0.25] := by
    rw [solved, Update.state_done]
    rfl
  have level : (threefold.run []).Level 1e-8 (threefold.run []).solve.value.state.block.x := by
    rw [stored]
    exact level_of_slope (by decide +kernel) (by decide +kernel)
  refine ⟨done, level, fun d hd => ?_⟩
  have near := (solve_fallback_accuracy constructed rfl (by decide) [] (by decide)
    done).2.2 level d hd
  rw [stored] at near
  have small : reach 3 (value 1e-8) + SquaredHinge.noise threefold.block [0.25, 0.25, 0.25] ≤
      1 / 4 * (1 / 10 ^ 5) := by decide +kernel
  have quarter : value threefold.block.stepSize = 1 / 4 := by decide +kernel
  have small' := (Rat.cast_le (K := ℝ)).mpr small
  have step : real threefold.block.stepSize = 1 / 4 := by
    rw [real, quarter]
    norm_num
  change real threefold.block.stepSize * |d| ≤ ((reach 3 (value 1e-8) +
    SquaredHinge.noise threefold.block [0.25, 0.25, 0.25] : ℚ) : ℝ) at near
  rw [step] at near
  have shrunk := near.trans small'
  push_cast at shrunk
  linarith

/-- A hinge over three variables, so shallow that its candidate passes the gradient test. -/
def shallow : Potential Float :=
  ⟨⟨1, [1.0, 1.0, 1.0], 0.0, 5e-10, 1e-9, [0, 1, 2], [1.0, 1.0, 1.0], Vector.zeros 3,
    [1.0, 1.0, 1.0]⟩, .squaredHinge (Fallback.lbfgs false .default)⟩

/-- A hinge on the sum of three variables carries the ones more than half of the way, unless the step
size is large. -/
theorem half_le_closedForm_of_ones {b : Block ℝ} (coefficients : b.coefficients = [1, 1, 1])
    (candidate : b.candidate = [1, 1, 1]) (constant : b.constant = 0) (weight : 0 < b.weight)
    (positive : 0 < b.stepSize) (steep : b.stepSize ≤ 6 * b.weight) :
    ∃ d ∈ Vector.sub [1, 1, 1] (SquaredHinge.closedForm b), 1 / 2 ≤ |d| := by
  have half : 1 / 2 ≤ 2 * b.weight * 3 / (b.stepSize + 2 * b.weight * 3) := by
    rw [le_div_iff₀ (by positivity)]
    linarith
  refine ⟨_, ?_, half.trans (le_abs_self _)⟩
  rw [SquaredHinge.closedForm, candidate, coefficients, constant]
  norm_num [Vector.dot_eq_sum, Vector.scale, Vector.sub]

/-- The candidate is stored, although the hinge is active there and its closed form is far away. -/
theorem candidate_stored_far :
    shallow.Constructed ∧ shallow.block.arity = 3 ∧ Vector.Finite shallow.block.candidate ∧
      SquaredHinge.inactive shallow.block shallow.block.candidate = false ∧
      shallow.solve.value.failure = none ∧
      ∃ d ∈ Vector.sub (shallow.solve.value.state.block.x.map real)
        (SquaredHinge.closedForm shallow.block.real), 1 / 2 ≤ |d| := by
  have constructed : shallow.Constructed :=
    constructed_of_checks (by decide +kernel) (by decide +kernel)
  have one : real 1.0 = 1 := by
    rw [real, show value 1.0 = 1 by decide +kernel, Rat.cast_one]
  have candidate : shallow.block.real.candidate = [1, 1, 1] := by
    rw [Block.candidate_real rfl rfl,
      show shallow.block.candidate = [1.0, 1.0, 1.0] by decide]
    simp [one]
  have coefficients : shallow.block.real.coefficients = [1, 1, 1] := by
    simp [shallow, Block.real, one]
  have constant : shallow.block.real.constant = 0 := by
    change real 0.0 = 0
    rw [real, show value 0.0 = 0 by decide, Rat.cast_zero]
  have weight : 0 < real 5e-10 := Rat.cast_pos.mpr (by decide +kernel)
  have positive : 0 < real 1e-9 := Rat.cast_pos.mpr (by decide +kernel)
  have steep := (Rat.cast_le (K := ℝ)).mpr
    (show value 1e-9 ≤ 6 * value 5e-10 by decide +kernel)
  push_cast at steep
  have far := half_le_closedForm_of_ones coefficients candidate constant weight positive steep
  have stored : shallow.solve.value.state.block.x.map real = [1, 1, 1] := by
    rw [show shallow.solve.value.state.block.x = [1.0, 1.0, 1.0] by decide +kernel]
    simp [one]
  rw [stored]
  exact ⟨constructed, rfl, by decide, by decide,
    Option.isNone_iff_eq_none.mp (by decide +kernel), far⟩

end Potential

end RuleConsensus
