import Mathlib.Tactic.FieldSimp
import RuleConsensus.Proofs.Exact.Growth

/-!
What the proximal step of a term achieves in exact arithmetic. Every kind of term moves its
candidate along the coefficients, so far that the step size times the way is a slope of its cost
at the margin reached. Hence the step size times the difference of candidate and primal is a
subgradient of the cost at the primal: the main statement, from which rounds are understood.
-/

set_option autoImplicit false
set_option relaxedAutoImplicit false

namespace RuleConsensus

open Matrix

namespace Block

variable {b : Block ℝ}

noncomputable def retreat (b : Block ℝ) (t : ℝ) : List ℝ :=
  Vector.sub b.candidate (Vector.scale b.coefficients t)

theorem Sound.length_candidate (sound : b.Sound) (hz : b.z.length = b.arity) :
    b.candidate.length = b.arity :=
  Block.length_candidate sound.length_y hz

theorem Sound.exists_coordinates (sound : b.Sound) (hz : b.z.length = b.arity) :
    ∃ (n : ℕ) (c v : Fin n → ℝ), n = b.arity ∧ b.coefficients = List.ofFn c ∧
      b.candidate = List.ofFn v := by
  obtain ⟨n, c, hn, hc⟩ := Vector.coordinates b.coefficients
  obtain ⟨v, hv⟩ := Vector.exists_coordinates ((sound.length_candidate hz).trans hn)
  exact ⟨n, c, v, hn.symm, hc, hv⟩

theorem Sound.length_retreat (sound : b.Sound) (hz : b.z.length = b.arity) (t : ℝ) :
    (b.retreat t).length = b.arity := by
  rw [retreat, Vector.length_sub, Vector.length_scale, sound.length_candidate hz]
  exact min_self _

theorem Sound.retreat_zero (sound : b.Sound) (hz : b.z.length = b.arity) :
    b.retreat 0 = b.candidate := by
  obtain ⟨n, c, v, _, hc, hv⟩ := sound.exists_coordinates hz
  simp [retreat, hc, hv]

theorem Sound.margin_retreat (sound : b.Sound) (hz : b.z.length = b.arity) (t : ℝ) :
    Vector.dot b.coefficients (b.retreat t) - b.constant =
      (Vector.dot b.coefficients b.candidate - b.constant) -
        t * Vector.dot b.coefficients b.coefficients := by
  obtain ⟨n, c, v, _, hc, hv⟩ := sound.exists_coordinates hz
  simp only [retreat, hc, hv, Vector.scale_ofFn, Vector.sub_ofFn, Vector.dot_ofFn, dotProduct_sub,
    dotProduct_smul, smul_eq_mul]
  ring

theorem Sound.pull_retreat (sound : b.Sound) (hz : b.z.length = b.arity) (t : ℝ) :
    Vector.scale (Vector.sub b.candidate (b.retreat t)) b.stepSize =
      Vector.scale b.coefficients (b.stepSize * t) := by
  obtain ⟨n, c, v, _, hc, hv⟩ := sound.exists_coordinates hz
  simp only [retreat, hc, hv, Vector.scale_ofFn, Vector.sub_ofFn, sub_sub_cancel, smul_smul]

end Block

/-- Where the step size times the way is a slope of the cost, cost and penalty balance. -/
theorem Potential.balances_of_isSlope {p : Potential ℝ} (sound : p.block.Sound)
    (hz : p.block.z.length = p.block.arity) {t : ℝ}
    (slope : IsSlope (p.kind.profile p.block.weight)
      (Vector.dot p.block.coefficients (p.block.retreat t) - p.block.constant)
      (p.block.stepSize * t)) : p.Balances (p.block.retreat t) where
  length := sound.length_retreat hz t
  pulled := by
    rw [sound.pull_retreat hz t]
    exact isSubgradient_of_isSlope (sound.length_retreat hz t) slope

theorem Block.Sound.isSlope_stay {b : Block ℝ} (sound : b.Sound) (hz : b.z.length = b.arity)
    {kind : Kind ℝ}
    (flat : kind.profile b.weight (Vector.dot b.coefficients b.candidate - b.constant) = 0) :
    IsSlope (kind.profile b.weight) (Vector.dot b.coefficients (b.retreat 0) - b.constant)
      (b.stepSize * 0) := by
  rw [sound.retreat_zero hz, mul_zero]
  exact Kind.isSlope_zero sound.weight_nonneg flat

namespace SquaredHinge

variable {b : Block ℝ}

noncomputable def slope (b : Block ℝ) : ℝ :=
  Scalar.two * b.weight * max (Vector.dot b.coefficients b.candidate - b.constant) 0

/-- How fast hinge and penalty steepen along the coefficients where the hinge counts. -/
noncomputable def curvature (b : Block ℝ) : ℝ :=
  b.stepSize + Scalar.two * b.weight * Vector.dot b.coefficients b.coefficients

/-- How far a squared hinge moves its candidate back. -/
noncomputable def way (b : Block ℝ) : ℝ := slope b / curvature b

theorem slope_eq (b : Block ℝ) :
    slope b = 2 * b.weight * max (Vector.dot b.coefficients b.candidate - b.constant) 0 := rfl

theorem curvature_eq (b : Block ℝ) :
    curvature b = b.stepSize + 2 * b.weight * Vector.dot b.coefficients b.coefficients := rfl

theorem slope_nonneg (sound : b.Sound) : 0 ≤ slope b := by
  have hw := sound.weight_nonneg
  rw [slope_eq]
  positivity

theorem curvature_pos (sound : b.Sound) : 0 < curvature b := by
  have hw := sound.weight_nonneg
  have hrho := sound.stepSize_pos
  have square := Vector.dot_self_nonneg b.coefficients
  rw [curvature_eq]
  positivity

theorem way_of_idle (idle : b.weight = 0 ∨ Vector.dot b.coefficients b.candidate ≤ b.constant) :
    way b = 0 := by
  have flat : slope b = 0 := by
    rw [slope_eq]
    rcases idle with weightless | held
    · rw [weightless, mul_zero, zero_mul]
    · rw [max_eq_right (sub_nonpos.mpr held), mul_zero]
  rw [way, flat, zero_div]

theorem inactive_iff {v : List ℝ} :
    inactive b v = true ↔ b.weight = 0 ∨ Vector.dot b.coefficients v ≤ b.constant := by
  simp only [inactive, Bool.or_eq_true, Scalar.beq_real, decide_eq_true_eq]

theorem inactive_eq_false_iff {v : List ℝ} : inactive b v = false ↔
    ¬(b.weight = 0 ∨ Vector.dot b.coefficients v ≤ b.constant) := by
  rw [← inactive_iff, Bool.not_eq_true]

def Active (b : Block ℝ) : Prop := 0 ≤ Vector.dot b.coefficients b.candidate - b.constant

theorem way_of_active (active : Active b) :
    way b = 2 * b.weight * (Vector.dot b.coefficients b.candidate - b.constant) /
      (b.stepSize + 2 * b.weight * Vector.dot b.coefficients b.coefficients) := by
  rw [way, slope_eq, curvature_eq, max_eq_left active]

theorem isSlope_way (sound : b.Sound) (hz : b.z.length = b.arity) (fallback : Fallback ℝ) :
    IsSlope (Kind.profile (.squaredHinge fallback) b.weight)
      (Vector.dot b.coefficients (b.retreat (way b)) - b.constant) (b.stepSize * way b) := by
  rcases le_total 0 (Vector.dot b.coefficients b.candidate - b.constant) with active | idle
  · rw [sound.margin_retreat hz, way_of_active active]
    exact isSlope_active sound.weight_nonneg sound.stepSize_pos (Vector.dot_self_nonneg _) active
  · rw [way_of_idle (.inr (sub_nonpos.mp idle))]
    exact sound.isSlope_stay hz (Kind.profile_of_idle (by simp) (.inr idle))

theorem objective_value {q : List ℝ} (hq : q.length = b.arity) :
    ((landscape b).objective b).value q =
      .ok (b.weight * max (Vector.dot b.coefficients q - b.constant) 0 ^ 2 +
        1 / 2 * b.stepSize * Vector.gap q b.candidate) := by
  have penalty := Block.penaltyValue_eq hq
  simp only [Landscape.objective, Landscape.augmentedValue, landscape, evaluate_eq hq, penalty]
  rfl

private theorem dot_one (a c : ℝ) : Vector.dot [a] [c] = a * c := by
  simp [Vector.dot_eq_sum]

private theorem dot_two (a a' c c' : ℝ) : Vector.dot [a, a'] [c, c'] = a * c + a' * c' := by
  simp [Vector.dot_eq_sum]

theorem solveOne_eq {c0 v0 : ℝ} (hw : 0 ≤ b.weight) (hrho : 0 < b.stepSize) (active : Active b)
    (hc : b.coefficients = [c0]) (hv : b.candidate = [v0]) :
    solveOne b c0 v0 = b.retreat (way b) := by
  rw [Active, hc, hv, dot_one] at active
  have hd : 0 < b.stepSize + 2 * b.weight * (c0 * c0) :=
    add_pos_of_pos_of_nonneg hrho (mul_nonneg (by linarith) (mul_self_nonneg c0))
  have pivot : 2 * b.weight * c0 * c0 + b.stepSize = b.stepSize + 2 * b.weight * (c0 * c0) := by
    ring
  have h : (b.stepSize * v0 + 2 * b.weight * b.constant * c0) /
      (b.stepSize + 2 * b.weight * (c0 * c0)) =
        v0 - c0 * (2 * b.weight * (c0 * v0 - b.constant) /
          (b.stepSize + 2 * b.weight * (c0 * c0))) := by
    field_simp
    ring
  simp only [solveOne, Block.retreat, way, slope_eq, curvature_eq, hc, hv, dot_one,
    Scalar.two_real, pivot, h, max_eq_left active]
  rfl

theorem stepSize_le_firstPivot (hw : 0 ≤ b.weight) (c : ℝ) : b.stepSize ≤ firstPivot b c := by
  have square : 0 ≤ 2 * b.weight * (c * c) := mul_nonneg (by linarith) (mul_self_nonneg c)
  rw [firstPivot, Scalar.two_real]
  linarith

/-- The pivots multiply to step size times curvature. -/
theorem secondPivot_eq (hw : 0 ≤ b.weight) (hrho : 0 < b.stepSize) (c0 c1 : ℝ) :
    secondPivot b c0 c1 = b.stepSize *
      (b.stepSize + 2 * b.weight * (c0 * c0 + c1 * c1)) / firstPivot b c0 := by
  have first : 2 * b.weight * c0 * c0 + b.stepSize ≠ 0 :=
    (hrho.trans_le (stepSize_le_firstPivot hw c0)).ne'
  simp only [secondPivot, firstPivot, offDiagonal, Scalar.two_real]
  field_simp
  ring

theorem stepSize_le_secondPivot (hw : 0 ≤ b.weight) (hrho : 0 < b.stepSize) (c0 c1 : ℝ) :
    b.stepSize ≤ secondPivot b c0 c1 := by
  have first : 0 < firstPivot b c0 := hrho.trans_le (stepSize_le_firstPivot hw c0)
  have square : 0 ≤ 2 * b.weight * (c1 * c1) := mul_nonneg (by linarith) (mul_self_nonneg c1)
  have greater : firstPivot b c0 ≤ b.stepSize + 2 * b.weight * (c0 * c0 + c1 * c1) := by
    rw [firstPivot, Scalar.two_real]
    linarith
  rw [secondPivot_eq hw hrho, le_div_iff₀ first]
  exact mul_le_mul_of_nonneg_left greater hrho.le

theorem solveTwo_eq {c0 c1 v0 v1 : ℝ} (hw : 0 ≤ b.weight) (hrho : 0 < b.stepSize)
    (active : Active b) (hc : b.coefficients = [c0, c1]) (hv : b.candidate = [v0, v1]) :
    solveTwo b c0 c1 v0 v1 = b.retreat (way b) := by
  rw [Active, hc, hv, dot_two] at active
  have first : 2 * b.weight * c0 * c0 + b.stepSize ≠ 0 :=
    (hrho.trans_le (stepSize_le_firstPivot hw c0)).ne'
  have whole : 0 < b.stepSize + 2 * b.weight * (c0 * c0 + c1 * c1) :=
    add_pos_of_pos_of_nonneg hrho
      (mul_nonneg (by linarith) (add_nonneg (mul_self_nonneg c0) (mul_self_nonneg c1)))
  have second := secondPivot_eq hw hrho c0 c1
  rw [firstPivot, Scalar.two_real] at second
  have ahead : (b.stepSize * v1 + 2 * b.weight * b.constant * c1 -
      2 * b.weight * c0 * c1 / (2 * b.weight * c0 * c0 + b.stepSize) *
        (b.stepSize * v0 + 2 * b.weight * b.constant * c0)) / secondPivot b c0 c1 =
      v1 - c1 * (2 * b.weight * (c0 * v0 + c1 * v1 - b.constant) /
        (b.stepSize + 2 * b.weight * (c0 * c0 + c1 * c1))) := by
    rw [second]
    field_simp
    ring
  have back : (b.stepSize * v0 + 2 * b.weight * b.constant * c0 - 2 * b.weight * c0 * c1 *
      (v1 - c1 * (2 * b.weight * (c0 * v0 + c1 * v1 - b.constant) /
        (b.stepSize + 2 * b.weight * (c0 * c0 + c1 * c1))))) /
          (2 * b.weight * c0 * c0 + b.stepSize) =
      v0 - c0 * (2 * b.weight * (c0 * v0 + c1 * v1 - b.constant) /
        (b.stepSize + 2 * b.weight * (c0 * c0 + c1 * c1))) := by
    field_simp
    ring
  simp only [solveTwo, firstPivot, offDiagonal, Scalar.two_real, ahead, back, Block.retreat, way,
    slope_eq, curvature_eq, hc, hv, dot_two, max_eq_left active]
  rfl

theorem objective_growth (sound : b.Sound) (hz : b.z.length = b.arity) {fallback : Fallback ℝ}
    {t : ℝ} (slope : IsSlope (Kind.profile (.squaredHinge fallback) b.weight)
      (Vector.dot b.coefficients (b.retreat t) - b.constant) (b.stepSize * t))
    {q : List ℝ} (hq : q.length = b.arity) {least other : ℝ}
    (hleast : ((landscape b).objective b).value (b.retreat t) = .ok least)
    (hother : ((landscape b).objective b).value q = .ok other) :
    least + 1 / 2 * b.stepSize * Vector.gap q (b.retreat t) ≤ other := by
  have reached := sound.length_retreat hz t
  have balances : Potential.Balances ⟨b, .squaredHinge fallback⟩ (b.retreat t) :=
    Potential.balances_of_isSlope sound hz slope
  have grown := balances.growth (sound.length_candidate hz) hq (Potential.cost_eq_profile reached)
    (Potential.cost_eq_profile hq)
  rw [objective_value reached, Except.ok.injEq] at hleast
  rw [objective_value hq, Except.ok.injEq] at hother
  rw [← hleast, ← hother]
  exact grown

theorem solveByFallback_eq (sound : b.Sound) (hz : b.z.length = b.arity) {fallback : Fallback ℝ}
    (exact : fallback.SolvesExactly b) :
    (solveByFallback b fallback b.candidate).value = .ok (b.retreat (way b)) := by
  obtain ⟨x, least, found, hx, hleast, best⟩ := exact b.z b.y hz sound.length_y
  have hr := objective_value (sound.length_retreat hz (way b))
  have grown := objective_growth sound hz (isSlope_way sound hz fallback) hx hr hleast
  have lowest := best _ _ (sound.length_retreat hz (way b)) hr
  have half : 0 < 1 / 2 * b.stepSize := by linarith [sound.stepSize_pos]
  have same : x = b.retreat (way b) :=
    Vector.eq_of_mul_gap_nonpos half (hx.trans (sound.length_retreat hz _).symm) (by linarith)
  simp only [solveByFallback, Logged.value_bind, found, same]
  rfl

theorem solveActive_eq (sound : b.Sound) (hz : b.z.length = b.arity) {fallback : Fallback ℝ}
    (exact : 3 ≤ b.arity → fallback.SolvesExactly b) (active : Active b) :
    (solveActive b fallback b.candidate).value = .ok (b.retreat (way b)) := by
  have hv := sound.length_candidate hz
  unfold solveActive
  -- The cases are those of the closed forms; in the last one there are at least three variables.
  split
  case h_1 c0 v0 hc hv =>
    exact congrArg _ (solveOne_eq sound.weight_nonneg sound.stepSize_pos active hc hv)
  case h_2 c0 c1 v0 v1 hc hv =>
    exact congrArg _ (solveTwo_eq sound.weight_nonneg sound.stepSize_pos active hc hv)
  case h_3 one two =>
    have many : 3 ≤ b.arity := by
      have positive := sound.arity_pos
      by_contra few
      obtain h | h : b.arity = 1 ∨ b.arity = 2 := by omega
      · obtain ⟨c0, hc⟩ := List.length_eq_one_iff.mp h
        obtain ⟨v0, hv⟩ := List.length_eq_one_iff.mp (hv.trans h)
        exact one c0 v0 hc hv
      · obtain ⟨c0, c1, hc⟩ := List.length_eq_two.mp h
        obtain ⟨v0, v1, hv⟩ := List.length_eq_two.mp (hv.trans h)
        exact two c0 c1 v0 v1 hc hv
    exact solveByFallback_eq sound hz (exact many)

/-- The step of a squared hinge moves the candidate back by the way. Only a hinge with a say over
three or more variables needs its fallback for that. -/
theorem solve_eq (sound : b.Sound) (hz : b.z.length = b.arity)
    {fallback : Fallback ℝ}
    (exact : inactive b b.candidate = false → 3 ≤ b.arity → fallback.SolvesExactly b) :
    (solve b fallback).value = .ok (b.retreat (way b)) := by
  refine solve_eq_ok_iff.mpr ⟨?_, Vector.finite_real _⟩
  cases idle : inactive b b.candidate with
  | true =>
    rw [if_pos rfl, way_of_idle (inactive_iff.mp idle), sound.retreat_zero hz]
  | false =>
    have above := not_le.mp (not_or.mp (inactive_eq_false_iff.mp idle)).2
    have active : Active b := (sub_pos.mpr above).le
    rw [if_neg Bool.false_ne_true]
    exact solveActive_eq sound hz (exact idle) active

theorem exists_retreat (sound : b.Sound) (hz : b.z.length = b.arity)
    {fallback : Fallback ℝ} (exact : 3 ≤ b.arity → fallback.SolvesExactly b) :
    ∃ t, (solve b fallback).value = .ok (b.retreat t) ∧
      IsSlope (Kind.profile (.squaredHinge fallback) b.weight)
        (Vector.dot b.coefficients (b.retreat t) - b.constant) (b.stepSize * t) :=
  ⟨way b, solve_eq sound hz fun _ => exact, isSlope_way sound hz fallback⟩

end SquaredHinge

namespace LinearHinge

variable {b : Block ℝ}

/-- How far a linear hinge moves its candidate back in each of its regimes. -/
noncomputable def way (b : Block ℝ) : Regime → ℝ
  | .inactive => 0
  | .sloping => b.weight / b.stepSize
  | .kink => (Vector.dot b.coefficients b.candidate - b.constant) /
      Vector.dot b.coefficients b.coefficients

theorem minimizer_eq_retreat (sound : b.Sound) (hz : b.z.length = b.arity) (regime : Regime) :
    minimizer b b.candidate regime = b.retreat (way b regime) := by
  cases regime with
  | inactive => exact (sound.retreat_zero hz).symm
  | sloping => rfl
  | kink => rfl

theorem regime_cases (sound : b.Sound) (hz : b.z.length = b.arity) {m a : ℝ}
    (hm : Vector.dot b.coefficients b.candidate - b.constant = m)
    (ha : Vector.dot b.coefficients b.coefficients = a) :
    (regime b b.candidate = .inactive ∧ (b.weight = 0 ∨ m ≤ 0)) ∨
      (regime b b.candidate = .sloping ∧ 0 ≤ m - b.weight / b.stepSize * a) ∨
      (regime b b.candidate = .kink ∧ 0 < m ∧ m - b.weight / b.stepSize * a < 0) := by
  have shift : Vector.dot b.coefficients (shifted b b.candidate) - b.constant =
      m - b.weight / b.stepSize * a := by
    rw [← hm, ← ha]
    exact sound.margin_retreat hz (b.weight / b.stepSize)
  unfold regime
  split_ifs with idle sloping
  · simp only [Bool.or_eq_true, Scalar.beq_real, decide_eq_true_eq] at idle
    exact .inl ⟨rfl, idle.imp_right fun below => hm ▸ sub_nonpos.mpr below⟩
  · exact .inr (.inl ⟨rfl, shift ▸ sub_nonneg.mpr sloping⟩)
  · simp only [Bool.or_eq_true, Scalar.beq_real, decide_eq_true_eq, not_or, not_le] at idle
    exact .inr (.inr ⟨rfl, hm ▸ sub_pos.mpr idle.2, shift ▸ sub_neg.mpr (not_le.mp sloping)⟩)

theorem isSlope_way (sound : b.Sound) (hz : b.z.length = b.arity) :
    IsSlope (Kind.profile .linearHinge b.weight)
      (Vector.dot b.coefficients (b.retreat (way b (regime b b.candidate))) - b.constant)
      (b.stepSize * way b (regime b b.candidate)) := by
  rcases regime_cases sound hz rfl rfl with
    ⟨taken, idle⟩ | ⟨taken, reached⟩ | ⟨taken, above, missed⟩
  · rw [taken]
    exact sound.isSlope_stay hz (Kind.profile_of_idle (by simp) idle)
  · rw [taken, sound.margin_retreat hz]
    exact isSlope_sloping sound.weight_nonneg sound.stepSize_pos reached
  · rw [taken, sound.margin_retreat hz]
    exact isSlope_kink sound.stepSize_pos (Vector.dot_self_nonneg _) above missed

theorem solve_eq (sound : b.Sound) (hz : b.z.length = b.arity) :
    (solve b).value = .ok (b.retreat (way b (regime b b.candidate))) :=
  solve_eq_ok_iff.mpr ⟨minimizer_eq_retreat sound hz _, Vector.finite_real _⟩

theorem exists_retreat (sound : b.Sound) (hz : b.z.length = b.arity) :
    ∃ t, (solve b).value = .ok (b.retreat t) ∧
      IsSlope (Kind.profile .linearHinge b.weight)
        (Vector.dot b.coefficients (b.retreat t) - b.constant) (b.stepSize * t) :=
  ⟨_, solve_eq sound hz, isSlope_way sound hz⟩

end LinearHinge

namespace HardRule

variable {b : Block ℝ} {comparator : Comparator}

theorem inside_iff {m : ℝ} : inside comparator m = true ↔ comparator.Holds m := by
  cases comparator <;> simp [inside, Comparator.Holds]

theorem square_pos (varied : ∃ c ∈ b.coefficients, c ≠ 0) :
    0 < Vector.dot b.coefficients b.coefficients := by
  refine lt_of_le_of_ne (Vector.dot_self_nonneg _) fun vanishes => ?_
  obtain ⟨c, hc, nonzero⟩ := varied
  exact nonzero (Vector.dot_self_eq_zero_iff.mp vanishes.symm c hc)

theorem projected_of_holds
    (holds : comparator.Holds (Vector.dot b.coefficients b.candidate - b.constant)) :
    projected b comparator = b.candidate := by
  have stays := inside_iff.mpr holds
  simp only [projected, stays, Bool.true_or, if_true]

theorem projected_of_not_holds (varied : ∃ c ∈ b.coefficients, c ≠ 0)
    (broken : ¬comparator.Holds (Vector.dot b.coefficients b.candidate - b.constant)) :
    projected b comparator =
      b.retreat ((Vector.dot b.coefficients b.candidate - b.constant) /
        Vector.dot b.coefficients b.coefficients) := by
  refine if_neg ?_
  rw [Bool.or_eq_true, inside_iff, Scalar.beq_real, not_or]
  exact ⟨broken, (square_pos varied).ne'⟩

theorem exists_retreat (sound : b.Sound) (hz : b.z.length = b.arity)
    (varied : ∃ c ∈ b.coefficients, c ≠ 0) :
    ∃ t, (solve b comparator).value = .ok (b.retreat t) ∧
      IsSlope (Kind.profile (.hardRule comparator) b.weight)
        (Vector.dot b.coefficients (b.retreat t) - b.constant) (b.stepSize * t) := by
  rw [solve_eq_ok]
  by_cases holds : comparator.Holds (Vector.dot b.coefficients b.candidate - b.constant)
  · refine ⟨0, ?_, sound.isSlope_stay hz (Kind.profile_of_holds holds)⟩
    rw [projected_of_holds holds, sound.retreat_zero hz]
  · refine ⟨_, congrArg _ (projected_of_not_holds varied holds), ?_⟩
    rw [sound.margin_retreat hz]
    refine isSlope_projected sound.stepSize_pos (square_pos varied) ?_
    rintro rfl
    exact not_le.mp holds

end HardRule

namespace Potential

variable {p : Potential ℝ}

/-- In exact arithmetic a proximal step never fails, and moves the candidate back along the
coefficients until the step size times the way is a slope of the cost. -/
theorem exists_retreat (sound : p.block.Sound) (regular : p.Regular)
    (hz : p.block.z.length = p.block.arity) :
    ∃ t, p.solution.value = .ok (p.block.retreat t) ∧
      IsSlope (p.kind.profile p.block.weight)
        (Vector.dot p.block.coefficients (p.block.retreat t) - p.block.constant)
        (p.block.stepSize * t) := by
  obtain ⟨b, kind⟩ := p
  cases kind with
  | squaredHinge fallback => exact SquaredHinge.exists_retreat sound hz regular
  | linearHinge => exact LinearHinge.exists_retreat sound hz
  | hardRule comparator => exact HardRule.exists_retreat sound hz regular

theorem exists_solution (sound : p.block.Sound) (regular : p.Regular)
    (hz : p.block.z.length = p.block.arity) : ∃ x, p.solution.value = .ok x := by
  obtain ⟨t, found, _⟩ := exists_retreat sound regular hz
  exact ⟨_, found⟩

/-- What a proximal step finds is where the pull of the penalty is a subgradient of the cost. -/
theorem isSubgradient_of_solution (sound : p.block.Sound) (regular : p.Regular)
    (hz : p.block.z.length = p.block.arity) {x : List ℝ} (found : p.solution.value = .ok x) :
    x.length = p.block.arity ∧
      IsSubgradient p.cost x
        (Vector.scale (Vector.sub p.block.candidate x) p.block.stepSize) := by
  obtain ⟨t, retreated, slope⟩ := exists_retreat sound regular hz
  obtain rfl : p.block.retreat t = x := Except.ok.inj (retreated.symm.trans found)
  have balances := balances_of_isSlope sound hz slope
  exact ⟨balances.length, balances.pulled⟩

end Potential

end RuleConsensus
