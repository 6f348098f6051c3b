import RuleConsensus.Proofs.Exact.Cost

set_option autoImplicit false
set_option relaxedAutoImplicit false

namespace RuleConsensus

open Matrix

theorem Vector.gap_eq_add_gap {n : ℕ} {v x q : List ℝ} (hv : v.length = n) (hx : x.length = n)
    (hq : q.length = n) :
    gap q v = gap x v + gap q x - 2 * dot (sub v x) (sub q x) := by
  obtain ⟨f, rfl⟩ := exists_coordinates hv
  obtain ⟨g, rfl⟩ := exists_coordinates hx
  obtain ⟨h, rfl⟩ := exists_coordinates hq
  simp only [gap_ofFn, sub_ofFn, dot_ofFn, sub_dotProduct, dotProduct_sub]
  rw [dotProduct_comm f h, dotProduct_comm g h, dotProduct_comm f g]
  ring

theorem Vector.dot_scale {n : ℕ} {x y : List ℝ} (hx : x.length = n) (hy : y.length = n) (a : ℝ) :
    dot (scale x a) y = a * dot x y := by
  obtain ⟨f, rfl⟩ := exists_coordinates hx
  obtain ⟨g, rfl⟩ := exists_coordinates hy
  rw [scale_ofFn, dot_ofFn, dot_ofFn, smul_dotProduct, smul_eq_mul]

namespace Potential

structure Balances (p : Potential ℝ) (x : List ℝ) : Prop where
  length : x.length = p.block.arity
  pulled : IsSubgradient p.cost x
    (Vector.scale (Vector.sub p.block.candidate x) p.block.stepSize)

variable {p : Potential ℝ} {x q : List ℝ}

/-- Cost plus penalty grows from where they balance. -/
theorem Balances.growth (balances : p.Balances x)
    (hv : p.block.candidate.length = p.block.arity) (hq : q.length = p.block.arity) {a a' : ℝ}
    (here : p.cost x = a) (there : p.cost q = a') :
    a + 1 / 2 * p.block.stepSize * Vector.gap x p.block.candidate +
        1 / 2 * p.block.stepSize * Vector.gap q x ≤
      a' + 1 / 2 * p.block.stepSize * Vector.gap q p.block.candidate := by
  obtain ⟨hx, _, _, below⟩ := balances
  have shorter : (Vector.sub p.block.candidate x).length = p.block.arity := by
    rw [Vector.length_sub, hv, hx, min_self]
  have away : (Vector.sub q x).length = p.block.arity := by
    rw [Vector.length_sub, hq, hx, min_self]
  have supported : a + p.block.stepSize *
      Vector.dot (Vector.sub p.block.candidate x) (Vector.sub q x) ≤ a' := by
    have h := below q (hq.trans hx.symm)
    rw [here, there, Vector.dot_scale shorter away] at h
    exact_mod_cast h
  rw [Vector.gap_eq_add_gap hv hx hq]
  linarith

theorem exists_cost_of_hinge (hinge : ∀ comparator, p.kind ≠ .hardRule comparator)
    (hq : q.length = p.block.arity) :
    ∃ a : ℝ, p.cost q = a ∧ p.augmentedValue q =
      .ok (a + 1 / 2 * p.block.stepSize * Vector.gap q p.block.candidate) := by
  obtain ⟨b, kind⟩ := p
  have penalty := Block.penaltyValue_eq hq
  cases kind with
  | squaredHinge fallback =>
    have value := SquaredHinge.evaluate_eq hq
    refine ⟨_, cost_eq_profile hq, ?_⟩
    simp only [augmentedValue, landscape, SquaredHinge.landscape, Landscape.augmentedValue, value,
      penalty]
    rfl
  | linearHinge =>
    have value := LinearHinge.evaluate_eq hq
    refine ⟨_, cost_eq_profile hq, ?_⟩
    simp only [augmentedValue, landscape, LinearHinge.landscape, Landscape.augmentedValue, value,
      penalty]
    rfl
  | hardRule comparator => exact absurd rfl (hinge comparator)

/-- No point has a lower augmented value, and no other point has as low a one. -/
structure Minimizes (p : Potential ℝ) (x : List ℝ) : Prop where
  length : x.length = p.block.arity
  least : ∃ least, p.augmentedValue x = .ok least ∧
    ∀ q, q.length = p.block.arity → ∃ value, p.augmentedValue q = .ok value ∧ least ≤ value ∧
      (value = least → q = x)

theorem Balances.minimizes (balances : p.Balances x)
    (hinge : ∀ comparator, p.kind ≠ .hardRule comparator) (positive : 0 < p.block.stepSize)
    (hv : p.block.candidate.length = p.block.arity) : p.Minimizes x := by
  obtain ⟨a, here, least⟩ := exists_cost_of_hinge hinge balances.length
  refine ⟨balances.length, _, least, ?_⟩
  intro q hq
  obtain ⟨a', there, value⟩ := exists_cost_of_hinge hinge hq
  have grown := balances.growth hv hq here there
  have half : 0 < 1 / 2 * p.block.stepSize := by linarith
  have apart := mul_nonneg half.le (Vector.gap_nonneg q x)
  refine ⟨_, value, by linarith, ?_⟩
  intro same
  exact Vector.eq_of_mul_gap_nonpos half (hq.trans balances.length.symm) (by linarith)

end Potential

end RuleConsensus
