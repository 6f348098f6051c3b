import RuleConsensus.Proofs.Exact.Stationary

set_option autoImplicit false
set_option relaxedAutoImplicit false

namespace RuleConsensus

open Matrix

namespace Vector

variable {n : ℕ} {x x' v v' : List ℝ}

private theorem gap_le_dot_of_pulls {rho : ℝ} (positive : 0 < rho) (hx : x.length = n)
    (hx' : x'.length = n) (hv : v.length = n) (hv' : v'.length = n)
    (ahead : 0 ≤ dot (sub (scale (sub v x) rho) (scale (sub v' x') rho)) (sub x x')) :
    gap x x' ≤ dot (sub x x') (sub v v') := by
  obtain ⟨f, rfl⟩ := exists_coordinates hx
  obtain ⟨f', rfl⟩ := exists_coordinates hx'
  obtain ⟨g, rfl⟩ := exists_coordinates hv
  obtain ⟨g', rfl⟩ := exists_coordinates hv'
  have pulls : rho • (g - f) - rho • (g' - f') = rho • (g - g' - (f - f')) := by
    rw [← smul_sub, sub_sub_sub_comm]
  simp only [sub_ofFn, scale_ofFn, dot_ofFn, pulls, smul_dotProduct, smul_eq_mul] at ahead
  have direct := nonneg_of_mul_nonneg_right ahead positive
  rw [sub_dotProduct, dotProduct_comm (g - g')] at direct
  simp only [gap_ofFn, sub_ofFn, dot_ofFn]
  linarith

/-- What is at most the product is at most the other factor: the square of the difference of the
two is not negative. -/
private theorem gap_le_gap_of_le_dot (hx : x.length = n) (hx' : x'.length = n) (hv : v.length = n)
    (hv' : v'.length = n) (h : gap x x' ≤ dot (sub x x') (sub v v')) : gap x x' ≤ gap v v' := by
  obtain ⟨f, rfl⟩ := exists_coordinates hx
  obtain ⟨f', rfl⟩ := exists_coordinates hx'
  obtain ⟨g, rfl⟩ := exists_coordinates hv
  obtain ⟨g', rfl⟩ := exists_coordinates hv'
  have square := gap_nonneg (List.ofFn (g - g')) (List.ofFn (f - f'))
  simp only [gap_ofFn, sub_ofFn, dot_ofFn] at h square ⊢
  generalize f - f' = a at h square ⊢
  generalize g - g' = b at h square ⊢
  rw [sub_dotProduct, dotProduct_sub, dotProduct_sub, dotProduct_comm b a] at square
  linarith

end Vector

namespace Potential

/-- A state of a term: all but the local vectors as in the term, and one entry of consensus and
dual for each variable. -/
structure HasState (p q : Potential ℝ) : Prop where
  sameRule : SameRule p q
  length_y : q.block.y.length = q.block.arity
  length_z : q.block.z.length = q.block.arity

variable {p q q' : Potential ℝ} {x x' : List ℝ}

theorem HasState.sound (constructed : p.Constructed) (state : p.HasState q) : q.block.Sound :=
  Built.sound ⟨p, constructed, state.sameRule, state.length_y⟩

theorem HasState.exists_solution (constructed : p.Constructed) (regular : p.Regular)
    (state : p.HasState q) : ∃ x, q.solution.value = .ok x :=
  Potential.exists_solution (state.sound constructed) (state.sameRule.regular regular)
    state.length_z

theorem HasState.isSubgradient (constructed : p.Constructed) (regular : p.Regular)
    (state : p.HasState q) (found : q.solution.value = .ok x) :
    x.length = q.block.arity ∧ IsSubgradient q.cost x
      (Vector.scale (Vector.sub q.block.candidate x) q.block.stepSize) :=
  isSubgradient_of_solution (state.sound constructed) (state.sameRule.regular regular)
    state.length_z found

/-- The pulls on two primals are subgradients of one cost. As these are monotone, the squared
distance of the primals is at most the product of what they and what their candidates differ by. -/
theorem HasState.gap_le (constructed : p.Constructed) (regular : p.Regular)
    (state : p.HasState q) (state' : p.HasState q') (found : q.solution.value = .ok x)
    (found' : q'.solution.value = .ok x') :
    Vector.gap x x' ≤
        Vector.dot (Vector.sub x x') (Vector.sub q.block.candidate q'.block.candidate) ∧
      Vector.gap x x' ≤ Vector.gap q.block.candidate q'.block.candidate := by
  obtain ⟨hx, pulled⟩ := state.isSubgradient constructed regular found
  obtain ⟨hx', pulled'⟩ := state'.isSubgradient constructed regular found'
  have hv := Block.length_candidate state.length_y state.length_z
  have hv' := Block.length_candidate state'.length_y state'.length_z
  have positive := (state.sound constructed).stepSize_pos
  obtain ⟨⟨_, _, _, rfl⟩, _, _⟩ := state
  obtain ⟨⟨_, _, _, rfl⟩, _, _⟩ := state'
  have firm := Vector.gap_le_dot_of_pulls positive hx hx' hv hv'
    (pulled.monotone pulled' (hx.trans hx'.symm))
  exact ⟨firm, Vector.gap_le_gap_of_le_dot hx hx' hv hv' firm⟩

theorem HasState.norm_le (constructed : p.Constructed) (regular : p.Regular)
    (state : p.HasState q) (state' : p.HasState q') (found : q.solution.value = .ok x)
    (found' : q'.solution.value = .ok x') :
    Vector.norm (Vector.sub x x') ≤
      Vector.norm (Vector.sub q.block.candidate q'.block.candidate) := by
  rw [Vector.norm_eq_sqrt, Vector.norm_eq_sqrt]
  exact Real.sqrt_le_sqrt (state.gap_le constructed regular state' found found').2

/-- The solve of a term stores an entry for each variable. It is firmly nonexpansive in the candidate,
and so it is continuous, also where regimes meet. -/
theorem solve_firmly_nonexpansive (constructed : p.Constructed) (regular : p.Regular)
    (state : p.HasState q) :
    ∃ r, q.solve.value = .done r ∧ r.block.x.length = p.block.arity ∧
      (∀ q', p.HasState q' → ∃ r', q'.solve.value = .done r' ∧
        r'.block.x.length = p.block.arity ∧
        Vector.gap r.block.x r'.block.x ≤ Vector.dot (Vector.sub r.block.x r'.block.x)
          (Vector.sub q.block.candidate q'.block.candidate) ∧
        Vector.norm (Vector.sub r.block.x r'.block.x) ≤
          Vector.norm (Vector.sub q.block.candidate q'.block.candidate)) ∧
      ∀ ε > 0, ∃ δ > 0, ∀ q' r', p.HasState q' → q'.solve.value = .done r' →
        Vector.norm (Vector.sub q.block.candidate q'.block.candidate) < δ →
          Vector.norm (Vector.sub r.block.x r'.block.x) < ε := by
  obtain ⟨x, found⟩ := state.exists_solution constructed regular
  have length {q x} (state : p.HasState q) (found : q.solution.value = .ok x) :
      x.length = p.block.arity :=
    (state.isSubgradient constructed regular found).1.trans state.sameRule.arity_eq
  refine ⟨q.withPrimal x, solve_of_found found, length state found, fun q' state' => ?_,
    fun ε positive => ?_⟩
  · obtain ⟨x', found'⟩ := state'.exists_solution constructed regular
    exact ⟨q'.withPrimal x', solve_of_found found', length state' found',
      (state.gap_le constructed regular state' found found').1,
      state.norm_le constructed regular state' found found'⟩
  · refine ⟨ε, positive, fun q' r' state' solved close => ?_⟩
    obtain ⟨x', found'⟩ := state'.exists_solution constructed regular
    obtain rfl : q'.withPrimal x' = r' := by
      rw [solve_of_found found'] at solved
      exact congrArg Update.state solved
    exact (state.norm_le constructed regular state' found found').trans_lt close

/-- A hard rule that keeps the sum of two variables from exceeding one. -/
noncomputable def fence : Potential ℝ :=
  ⟨⟨4, [1, 1], 1, 1, 1, [0, 1], [0, 0], [0, 0], [0, 0]⟩, .hardRule .inequality⟩

theorem fence_block_constructed : fence.block.Constructed :=
  Block.constructed_real (by simp) zero_le_one one_pos rfl (by decide) rfl

/-- From three and two the fence projects; at the origin it keeps the candidate. -/
theorem solve_firmly_nonexpansive_fence :
    fence.HasState (fence.withConsensus [3, 2]) ∧ fence.HasState (fence.withConsensus [0, 0]) ∧
      ∃ r r', (fence.withConsensus [3, 2]).solve.value = .done r ∧
        (fence.withConsensus [0, 0]).solve.value = .done r' ∧
        r.block.x.length = 2 ∧ r'.block.x.length = 2 ∧
        Vector.gap r.block.x r'.block.x ≤ Vector.dot (Vector.sub r.block.x r'.block.x)
          (Vector.sub (fence.withConsensus [3, 2]).block.candidate
            (fence.withConsensus [0, 0]).block.candidate) := by
  have constructed : fence.Constructed := by
    refine .hardRule ⟨4, [1, 1], 1, 1, 1, [0, 1], [0, 0], Block.build_eq_ok_iff.mpr
      ⟨⟨by simp, Vector.finite_real _, rfl⟩, ⟨rfl, by norm_num⟩, ⟨rfl, by norm_num⟩,
        ⟨rfl, by decide⟩, ⟨rfl, Vector.finite_real _⟩, rfl⟩⟩
      (hardRule_eq_ok_iff.mpr ⟨HardRule.check_eq_ok_iff.mpr fun h => ?_, rfl⟩)
    simp at h
  have regular : fence.Regular := ⟨1, by simp [fence], one_ne_zero⟩
  have far : fence.HasState (fence.withConsensus [3, 2]) := ⟨⟨_, _, _, rfl⟩, rfl, rfl⟩
  have origin : fence.HasState (fence.withConsensus [0, 0]) := ⟨⟨_, _, _, rfl⟩, rfl, rfl⟩
  obtain ⟨r, solved, long, pairs, _⟩ := solve_firmly_nonexpansive constructed regular far
  obtain ⟨r', solved', long', firm, _⟩ := pairs _ origin
  exact ⟨far, origin, r, r', solved, solved', long, long', firm⟩

end Potential

end RuleConsensus
