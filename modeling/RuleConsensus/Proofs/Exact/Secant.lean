import RuleConsensus.Proofs.Exact.Convexity

/-!
A fallback that solves exactly. Where a squared hinge is active, its objective is quadratic along
the gradient, so two gradients tell how far to go: the quotient of slope and curvature.
-/

set_option autoImplicit false
set_option relaxedAutoImplicit false

namespace RuleConsensus

open Matrix

/-- One step down the gradient, as long as the change of the gradient along itself tells. -/
noncomputable def Fallback.secant : Fallback ℝ where
  minimize f seed := .quiet <| Failure.report do
    let g ← f.gradient seed
    let h ← f.gradient (Vector.add seed g)
    pure (Vector.sub seed
      (Vector.scale g (Vector.dot g g / Vector.dot (Vector.sub h g) g)))

namespace SquaredHinge

variable {b : Block ℝ}

/-- At the candidate the penalty does not pull; ahead of it, it pulls back. -/
private theorem gradient_ahead (sound : b.Sound) (hz : b.z.length = b.arity) (t : ℝ) :
    ((landscape b).objective b).gradient
        (Vector.add b.candidate (Vector.scale b.coefficients t)) =
      .ok (Vector.scale b.coefficients (2 * b.weight *
        max (Vector.dot b.coefficients b.candidate - b.constant +
          t * Vector.dot b.coefficients b.coefficients) 0 + b.stepSize * t)) := by
  have hl : (Vector.add b.candidate (Vector.scale b.coefficients t)).length = b.arity := by
    rw [Vector.length_add, Vector.length_scale, sound.length_candidate hz]
    exact min_self _
  have told := Potential.objective_gradient_eq (p := ⟨b, .squaredHinge .staying⟩) sound hz hl
  change ((landscape b).objective b).gradient _ = .ok (Vector.add
    (Vector.scale b.coefficients (Potential.slopeAt _ _)) _) at told
  rw [told]
  obtain ⟨n, c, v, _, hc, hv⟩ := sound.exists_coordinates hz
  have margin : c ⬝ᵥ (v + t • c) - b.constant = c ⬝ᵥ v - b.constant + t * (c ⬝ᵥ c) := by
    rw [dotProduct_add, dotProduct_smul, smul_eq_mul]
    ring
  simp only [Potential.slopeAt, Kind.slope, Scalar.two_real, hc, hv, Vector.scale_ofFn,
    Vector.add_ofFn, Vector.sub_ofFn, Vector.dot_ofFn, margin, add_sub_cancel_left, smul_smul,
    ← add_smul]

private theorem gradient_candidate (sound : b.Sound) (hz : b.z.length = b.arity) :
    ((landscape b).objective b).gradient b.candidate =
      .ok (Vector.scale b.coefficients (slope b)) := by
  have here := gradient_ahead sound hz 0
  have stay : Vector.add b.candidate (Vector.scale b.coefficients 0) = b.candidate := by
    obtain ⟨n, c, v, _, hc, hv⟩ := sound.exists_coordinates hz
    simp [hc, hv]
  rwa [stay, zero_mul, add_zero, mul_zero, add_zero] at here

private theorem gradient_slope (sound : b.Sound) (hz : b.z.length = b.arity) :
    ((landscape b).objective b).gradient
        (Vector.add b.candidate (Vector.scale b.coefficients (slope b))) =
      .ok (Vector.scale b.coefficients (slope b + curvature b * slope b)) := by
  rw [gradient_ahead sound hz]
  have square := Vector.dot_self_nonneg b.coefficients
  have ahead : 2 * b.weight * max (Vector.dot b.coefficients b.candidate - b.constant +
      slope b * Vector.dot b.coefficients b.coefficients) 0 + b.stepSize * slope b =
        slope b + curvature b * slope b := by
    rcases le_total 0 (Vector.dot b.coefficients b.candidate - b.constant) with active | idle
    · have rises := add_nonneg active (mul_nonneg (slope_nonneg sound) square)
      rw [max_eq_left rises, slope_eq, curvature_eq, max_eq_left active]
      ring
    · have flat : slope b = 0 := by rw [slope_eq, max_eq_right idle, mul_zero]
      rw [flat, zero_mul, add_zero, max_eq_right idle]
      ring
  rw [ahead]

theorem secant_eq (sound : b.Sound) (hz : b.z.length = b.arity) :
    (Fallback.secant.minimize ((landscape b).objective b) b.candidate).value =
      .ok (b.retreat (way b)) := by
  refine Failure.report_eq_ok_iff.mpr <| bind_eq_ok.mpr ⟨_, gradient_candidate sound hz,
    bind_eq_ok.mpr ⟨_, gradient_slope sound hz, pure_eq_ok.mpr ?_⟩⟩
  have curved : curvature b ≠ 0 := (curvature_pos sound).ne'
  obtain ⟨n, c, v, _, hc, hv⟩ := sound.exists_coordinates hz
  simp only [Block.retreat, way, hc, hv, Vector.scale_ofFn, Vector.sub_ofFn, Vector.dot_ofFn,
    smul_smul]
  rw [← sub_smul, add_sub_cancel_left]
  simp only [smul_dotProduct, dotProduct_smul, smul_eq_mul]
  -- Without coefficients there is no gradient, and the quotient is zero over zero.
  by_cases flat : c ⬝ᵥ c = 0
  · rw [dotProduct_self_eq_zero.mp flat, smul_zero, smul_zero]
  · by_cases still : slope b = 0
    · rw [still, mul_zero, zero_div]
    · have quotient : slope b * (slope b * (c ⬝ᵥ c)) /
          (slope b * (curvature b * slope b * (c ⬝ᵥ c))) * slope b = slope b / curvature b := by
        field_simp
      rw [quotient]

end SquaredHinge

theorem Fallback.secant_solvesExactly {b : Block ℝ} (sound : b.Sound) :
    Fallback.secant.SolvesExactly b := by
  intro z y hz hy
  have still : Block.Sound { b with y := y, z := z } :=
    ⟨sound.weight_nonneg, sound.stepSize_pos, sound.arity_pos, sound.length_indices, hy⟩
  have reached := still.length_retreat hz (SquaredHinge.way { b with y := y, z := z })
  have least := SquaredHinge.objective_value reached
  refine ⟨_, _, SquaredHinge.secant_eq still hz, reached, least, fun q other hq hother => ?_⟩
  have grown := SquaredHinge.objective_growth still hz
    (SquaredHinge.isSlope_way still hz Fallback.secant) hq least hother
  have away : 0 ≤ 1 / 2 * b.stepSize * Vector.gap q
      (Block.retreat { b with y := y, z := z } (SquaredHinge.way { b with y := y, z := z })) :=
    mul_nonneg (by linarith [sound.stepSize_pos]) (Vector.gap_nonneg _ _)
  linarith

end RuleConsensus
