import RuleConsensus.Proofs.Exact.Nonexpansive

/-!
A built rule is read in three ways. Its constructor and its value allow a slack, and its step does
not; and the test for a rule without variables is made on the coefficients by the constructor, and
on their square by the step.
-/

set_option autoImplicit false
set_option relaxedAutoImplicit false

namespace RuleConsensus

open Matrix

theorem Vector.norm_sub_lt {x u v : List ℝ} (closer : gap x v < gap u v) :
    norm (sub x v) < norm (sub u v) := by
  rw [norm_eq_sqrt, norm_eq_sqrt]
  exact Real.sqrt_lt_sqrt (gap_nonneg x v) closer

theorem Vector.dot_of_flat {x q : List ℝ} (flat : ∀ a ∈ x, a = 0) (hq : q.length = x.length) :
    dot x q = 0 := by
  obtain ⟨n, f, hn, rfl⟩ := coordinates x
  obtain ⟨g, rfl⟩ := exists_coordinates (hq.trans hn)
  have vanishes : f = 0 := funext (List.forall_mem_ofFn_iff.mp flat)
  rw [dot_ofFn, vanishes, zero_dotProduct]

namespace HardRule

variable {b : Block ℝ} {comparator : Comparator}

theorem satisfied_of_holds {m : ℝ} (holds : comparator.Holds m) :
    satisfied comparator m = true := by
  have slack : (0 : ℝ) ≤ Scalar.slack := by
    change (0 : ℝ) ≤ 1 / 10 ^ 9
    positivity
  cases comparator with
  | inequality => exact decide_eq_true (le_trans holds slack)
  | equality =>
    have exact_at : m = 0 := holds
    have still : |m| ≤ Scalar.slack := by rwa [exact_at, abs_zero]
    exact decide_eq_true still

/-- The constructor and the step agree on which rules are without variables. -/
theorem all_zero_iff :
    b.coefficients.all (· == 0) = true ↔
      (Vector.dot b.coefficients b.coefficients == 0) = true := by
  rw [List.all_eq_true, Scalar.beq_real, Vector.dot_self_eq_zero_iff]
  simp only [Scalar.beq_real]

theorem projected_of_flat (flat : ∀ c ∈ b.coefficients, c = 0) :
    projected b comparator = b.candidate := by
  have vanishes := Vector.dot_self_eq_zero_iff.mpr flat
  refine if_pos ?_
  rw [Bool.or_eq_true, Scalar.beq_real]
  exact .inr vanishes

theorem evaluate_of_satisfied {q : List ℝ} (hq : q.length = b.arity)
    (kept : satisfied comparator (Vector.dot b.coefficients q - b.constant) = true) :
    evaluate b comparator q = .ok 0 := by
  rw [evaluate, Block.margin_eq hq]
  exact congrArg Except.ok (if_pos kept)

end HardRule

namespace Potential

variable {p q : Potential ℝ} {comparator : Comparator} {x : List ℝ}

theorem Constructed.satisfied_of_flat (constructed : p.Constructed)
    (kind : p.kind = .hardRule comparator) (flat : ∀ c ∈ p.block.coefficients, c = 0) :
    HardRule.satisfied comparator (-p.block.constant) = true := by
  have zero := HardRule.check_eq_ok_iff.mp (constructed.check_hardRule kind)
  rw [List.all_eq_true] at zero
  exact zero fun c hc => beq_iff_eq.mpr (flat c hc)

theorem cost_of_holds (kind : p.kind = .hardRule comparator) (hx : x.length = p.block.arity)
    (holds : comparator.Holds (Vector.dot p.block.coefficients x - p.block.constant)) :
    p.cost x = (0 : ℝ) := by
  rw [cost_eq_profile hx, kind, Kind.profile_of_holds holds]
  rfl

/-- The projection of the candidate: the rule holds there without slack, and every other point where
it does is further away. -/
structure Projects (p : Potential ℝ) (comparator : Comparator) (x : List ℝ) : Prop where
  length : x.length = p.block.arity
  holds : comparator.Holds (Vector.dot p.block.coefficients x - p.block.constant)
  nearest : ∀ u, u.length = p.block.arity →
    comparator.Holds (Vector.dot p.block.coefficients u - p.block.constant) → u ≠ x →
      Vector.norm (Vector.sub x p.block.candidate) < Vector.norm (Vector.sub u p.block.candidate)

theorem Balances.projects (balances : p.Balances x) (kind : p.kind = .hardRule comparator)
    (positive : 0 < p.block.stepSize) (hv : p.block.candidate.length = p.block.arity) :
    p.Projects comparator x := by
  have hx := balances.length
  have holds := holds_of_cost_ne_top kind hx balances.pulled.2.1
  refine ⟨hx, holds, ?_⟩
  intro u hu feasible other
  have grown := balances.growth hv hu (cost_of_holds kind hx holds)
    (cost_of_holds kind hu feasible)
  have half : 0 < 1 / 2 * p.block.stepSize := by linarith
  have apart : 0 < Vector.gap u x := by
    by_contra near
    exact other (Vector.eq_of_gap_nonpos (hu.trans hx.symm) (not_lt.mp near))
  have closer : Vector.gap x p.block.candidate + Vector.gap u x ≤
      Vector.gap u p.block.candidate := by
    refine le_of_mul_le_mul_left ?_ half
    linarith
  exact Vector.norm_sub_lt (by linarith)

/-- A hard rule always solves, and its value after the step is zero. About some variable, it has
projected the candidate; without variables it has kept it. -/
theorem solve_hardRule_projects (constructed : p.Constructed)
    (kind : p.kind = .hardRule comparator) (state : p.HasState q) :
    (q.block.coefficients.all (· == 0) = true ↔
        (Vector.dot q.block.coefficients q.block.coefficients == 0) = true) ∧
      ∃ x, q.solve.value = .done (q.withPrimal x) ∧ (q.withPrimal x).evaluate x = .ok 0 ∧
        ((∃ c ∈ q.block.coefficients, c ≠ 0) → q.Projects comparator x ∧
          (x = q.block.candidate ↔ comparator.Holds
            (Vector.dot q.block.coefficients q.block.candidate - q.block.constant))) ∧
        ((∀ c ∈ q.block.coefficients, c = 0) → x = q.block.candidate) := by
  have sound := state.sound constructed
  have hz := state.length_z
  have same : q.kind = .hardRule comparator := state.sameRule.kind_eq.trans kind
  have found : q.solution.value = .ok (HardRule.projected q.block comparator) := by
    rw [solution, same]
    exact HardRule.solve_eq_ok q.block comparator
  have projects (varied : ∃ c ∈ q.block.coefficients, c ≠ 0) :
      q.Projects comparator (HardRule.projected q.block comparator) := by
    have regular : q.Regular := by
      rw [Regular, same]
      exact varied
    obtain ⟨hx, pulled⟩ := isSubgradient_of_solution sound regular hz found
    exact Balances.projects ⟨hx, pulled⟩ same sound.stepSize_pos (sound.length_candidate hz)
  refine ⟨HardRule.all_zero_iff, _, solve_of_found found, ?_, ?_, HardRule.projected_of_flat⟩
  · rw [evaluate, landscape, withPrimal, same]
    by_cases flat : ∀ c ∈ q.block.coefficients, c = 0
    · have kept : HardRule.satisfied comparator (-q.block.constant) = true := by
        obtain ⟨_, _, _, rfl⟩ := state.sameRule
        exact constructed.satisfied_of_flat kind flat
      have hv := sound.length_candidate hz
      rw [HardRule.projected_of_flat flat]
      refine HardRule.evaluate_of_satisfied hv ?_
      rwa [Vector.dot_of_flat flat hv, zero_sub]
    · push Not at flat
      have reached := projects flat
      exact HardRule.evaluate_of_satisfied reached.length
        (HardRule.satisfied_of_holds reached.holds)
  · intro varied
    refine ⟨projects varied, ?_, HardRule.projected_of_holds⟩
    intro stays
    have holds := (projects varied).holds
    rwa [stays] at holds

/-- The fence projects from three and two, where its rule is broken. -/
theorem solve_hardRule_projects_fence :
    fence.HasState (fence.withConsensus [3, 2]) ∧
      ∃ x, (fence.withConsensus [3, 2]).solve.value =
          .done ((fence.withConsensus [3, 2]).withPrimal x) ∧
        (fence.withConsensus [3, 2]).Projects .inequality x ∧
        x ≠ (fence.withConsensus [3, 2]).block.candidate := by
  have varied : ∃ c ∈ (fence.withConsensus [3, 2]).block.coefficients, c ≠ 0 :=
    ⟨1, by simp [fence, withConsensus], one_ne_zero⟩
  have constructed : fence.Constructed := by
    refine constructed_hardRule fence_block_constructed fun flat => ?_
    obtain ⟨c, hc, nonzero⟩ := varied
    exact absurd (flat c hc) nonzero
  have state : fence.HasState (fence.withConsensus [3, 2]) := ⟨⟨_, _, _, rfl⟩, rfl, rfl⟩
  have broken : ¬Comparator.inequality.Holds
      (Vector.dot (fence.withConsensus [3, 2]).block.coefficients
        (fence.withConsensus [3, 2]).block.candidate -
          (fence.withConsensus [3, 2]).block.constant) := by
    norm_num [Comparator.Holds, fence, withConsensus, Block.candidate, Vector.sub, Vector.divide,
      Vector.dot_eq_sum]
  obtain ⟨_, x, solved, _, moves, _⟩ := solve_hardRule_projects constructed rfl state
  obtain ⟨projects, stays_iff⟩ := moves varied
  exact ⟨state, x, solved, projects, fun stays => broken (stays_iff.mp stays)⟩

end Potential

end RuleConsensus
