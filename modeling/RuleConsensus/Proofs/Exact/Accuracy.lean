import RuleConsensus.Proofs.Exact.Convexity

set_option autoImplicit false
set_option relaxedAutoImplicit false

namespace RuleConsensus

namespace SquaredHinge

variable {b : Block ℝ}

/-- The candidate moved back as far as the normal equations of an active hinge say. -/
noncomputable def closedForm (b : Block ℝ) : List ℝ :=
  Vector.sub b.candidate (Vector.scale b.coefficients
    (Scalar.two * b.weight * (Vector.dot b.coefficients b.candidate - b.constant) /
      (b.stepSize + Scalar.two * b.weight * Vector.dot b.coefficients b.coefficients)))

theorem retreat_way_of_active (active : Active b) : b.retreat (way b) = closedForm b := by
  rw [way_of_active active]
  rfl

/-- Where an exact step ends: at the candidate if the hinge has no say there, and otherwise at the
closed form. -/
noncomputable def target (b : Block ℝ) : List ℝ :=
  if inactive b b.candidate then b.candidate else closedForm b

end SquaredHinge

namespace Vector

variable {n : ℕ} {x y g : List ℝ}

theorem sq_mul_gap_le {rho : ℝ} (hx : x.length = n) (hy : y.length = n) (hg : g.length = n)
    (positive : 0 < rho) (slope : rho * gap x y ≤ dot g (sub x y)) :
    rho ^ 2 * gap x y ≤ dot g g := by
  have apart : (sub x y).length = n := by rw [length_sub, hx, hy, min_self]
  have schwarz := dot_sq_le hg apart
  have distance := gap_nonneg x y
  have squared : (rho * gap x y) ^ 2 ≤ dot g g * gap x y :=
    (pow_le_pow_left₀ (mul_nonneg positive.le distance) slope 2).trans schwarz
  rcases distance.eq_or_lt with same | away
  · rw [← same, mul_zero]
    exact dot_self_nonneg g
  · refine le_of_mul_le_mul_right ?_ away
    linarith

theorem mul_abs_le_of_sq_mul_gap {rho t : ℝ} (ht : 0 ≤ t) (near : rho ^ 2 * gap x y ≤ t ^ 2) :
    ∀ d ∈ sub x y, rho * |d| ≤ t := by
  intro d hd
  have part : d ^ 2 ≤ gap x y := by
    rw [gap]
    obtain ⟨n, f, _, hf⟩ := coordinates (sub x y)
    rw [hf] at hd ⊢
    obtain ⟨i, rfl⟩ := List.mem_ofFn.mp hd
    rw [dot_ofFn, sq]
    exact Finset.single_le_sum (f := fun i => f i * f i) (fun j _ => mul_self_nonneg _)
      (Finset.mem_univ i)
  refine le_of_sq_le_sq ?_ ht
  rw [mul_pow, sq_abs]
  exact (mul_le_mul_of_nonneg_left part (sq_nonneg rho)).trans near

theorem dot_le_of_sq {rho : ℝ} (hx : x.length = n) (hy : y.length = n) (hg : g.length = n)
    (positive : 0 < rho) :
    dot g (sub x y) - rho / 2 * gap x y ≤ dot g g / (2 * rho) := by
  have square := dot_self_nonneg (sub g (scale (sub x y) rho))
  have opened : dot (sub g (scale (sub x y) rho)) (sub g (scale (sub x y) rho)) =
      dot g g - 2 * rho * dot g (sub x y) + rho ^ 2 * gap x y := by
    obtain ⟨f, rfl⟩ := exists_coordinates hx
    obtain ⟨h, rfl⟩ := exists_coordinates hy
    obtain ⟨k, rfl⟩ := exists_coordinates hg
    simp only [gap_ofFn, sub_ofFn, scale_ofFn, dot_ofFn]
    generalize f - h = d
    rw [sub_dotProduct, dotProduct_sub, dotProduct_sub, smul_dotProduct, smul_dotProduct,
      dotProduct_smul, dotProduct_smul, dotProduct_comm d k]
    simp only [smul_eq_mul]
    ring
  rw [le_div_iff₀ (by positivity)]
  nlinarith

theorem seen_from (hx : x.length = n) (hy : y.length = n) (hg : g.length = n) :
    dot g (sub y x) = -dot g (sub x y) ∧ gap y x = gap x y := by
  obtain ⟨f, rfl⟩ := exists_coordinates hx
  obtain ⟨h, rfl⟩ := exists_coordinates hy
  obtain ⟨k, rfl⟩ := exists_coordinates hg
  simp only [gap_ofFn, sub_ofFn, dot_ofFn]
  rw [← neg_sub f h, dotProduct_neg, neg_dotProduct_neg]
  exact ⟨rfl, rfl⟩

end Vector

namespace Potential

variable {p q : Potential ℝ} {x y e e' : List ℝ} {fallback : Fallback ℝ} {value value' : ℝ}

theorem reports_closedForm (kind : p.kind = .squaredHinge fallback) (sound : p.block.Sound)
    (hz : p.block.z.length = p.block.arity) (active : SquaredHinge.Active p.block) :
    (SquaredHinge.closedForm p.block).length = p.block.arity ∧
      ∃ least, Reports p.objective.value p.objective.gradient (SquaredHinge.closedForm p.block)
        least (Vector.zeros p.block.arity) := by
  have hinge : ∀ comparator, p.kind ≠ .hardRule comparator := by simp [kind]
  have reached := sound.length_retreat hz (SquaredHinge.way p.block)
  rw [SquaredHinge.retreat_way_of_active active] at reached
  obtain ⟨c, _, _, told⟩ := exists_reports hinge sound hz reached
  have curved := SquaredHinge.curvature_pos sound
  have margin : Vector.dot p.block.coefficients (SquaredHinge.closedForm p.block) -
      p.block.constant = p.block.stepSize *
        (Vector.dot p.block.coefficients p.block.candidate - p.block.constant) /
          SquaredHinge.curvature p.block := by
    rw [← SquaredHinge.retreat_way_of_active active, sound.margin_retreat hz,
      SquaredHinge.way_of_active active]
    exact margin_active curved
  have ahead : 0 ≤ p.block.stepSize *
      (Vector.dot p.block.coefficients p.block.candidate - p.block.constant) /
        SquaredHinge.curvature p.block :=
    div_nonneg (mul_nonneg sound.stepSize_pos.le active) curved.le
  have slope : p.slopeAt (SquaredHinge.closedForm p.block) =
      p.block.stepSize * SquaredHinge.way p.block := by
    rw [slopeAt, margin, kind, Kind.slope, max_eq_left ahead, SquaredHinge.way_of_active active,
      SquaredHinge.curvature_eq, Scalar.two_real]
    ring
  have pull := sound.pull_retreat hz (SquaredHinge.way p.block)
  rw [SquaredHinge.retreat_way_of_active active] at pull
  have balanced : Vector.add (Vector.scale p.block.coefficients
      (p.slopeAt (SquaredHinge.closedForm p.block)))
        (Vector.scale (Vector.sub (SquaredHinge.closedForm p.block) p.block.candidate)
          p.block.stepSize) = Vector.zeros p.block.arity := by
    obtain ⟨n, c, v, hn, hc, hv⟩ := sound.exists_coordinates hz
    obtain ⟨f, hf⟩ := Vector.exists_coordinates (reached.trans hn.symm)
    rw [slope, ← hn]
    rw [hc, hv, hf, Vector.sub_ofFn, Vector.scale_ofFn, Vector.scale_ofFn] at pull
    have level := List.ofFn_injective pull
    rw [hc, hv, hf, Vector.sub_ofFn, Vector.scale_ofFn, Vector.scale_ofFn, Vector.add_ofFn,
      ← level, ← smul_add, sub_add_sub_cancel', sub_self, smul_zero, Vector.zeros_ofFn]
  rw [balanced] at told
  exact ⟨reached, _, told⟩

theorem reports_target (kind : p.kind = .squaredHinge fallback) (sound : p.block.Sound)
    (hz : p.block.z.length = p.block.arity) :
    (SquaredHinge.target p.block).length = p.block.arity ∧
      ∃ least, Reports p.objective.value p.objective.gradient (SquaredHinge.target p.block)
        least (Vector.zeros p.block.arity) := by
  have hinge : ∀ comparator, p.kind ≠ .hardRule comparator := by simp [kind]
  have hv := sound.length_candidate hz
  unfold SquaredHinge.target
  cases idle : SquaredHinge.inactive p.block p.block.candidate with
  | true =>
    obtain ⟨c, _, _, told⟩ := exists_reports hinge sound hz hv
    have level : p.slopeAt p.block.candidate = 0 := by
      rw [slopeAt, kind, Kind.slope]
      rcases SquaredHinge.inactive_iff.mp idle with weightless | below
      · rw [weightless, mul_zero, zero_mul]
      · rw [max_eq_right (sub_nonpos.mpr below), mul_zero]
    have balanced : Vector.add (Vector.scale p.block.coefficients
        (p.slopeAt p.block.candidate))
          (Vector.scale (Vector.sub p.block.candidate p.block.candidate) p.block.stepSize) =
            Vector.zeros p.block.arity := by
      obtain ⟨n, c, v, hn, hc, hv⟩ := sound.exists_coordinates hz
      rw [level, hc, hv, ← hn, Vector.sub_ofFn, Vector.scale_ofFn, Vector.scale_ofFn,
        Vector.add_ofFn, zero_smul, sub_self, smul_zero, add_zero, Vector.zeros_ofFn]
    rw [balanced] at told
    rw [if_pos rfl]
    exact ⟨hv, _, told⟩
  | false =>
    have above := not_le.mp (not_or.mp (SquaredHinge.inactive_eq_false_iff.mp idle)).2
    rw [if_neg Bool.false_ne_true]
    exact reports_closedForm kind sound hz (sub_pos.mpr above).le

/-- The gradient at a point bounds how far it is from a point without gradient. -/
theorem sq_mul_gap_le_of_rest (hinge : ∀ comparator, p.kind ≠ .hardRule comparator)
    (sound : p.block.Sound) (hz : p.block.z.length = p.block.arity)
    (hx : x.length = p.block.arity) (hy : y.length = p.block.arity)
    (here : Reports p.objective.value p.objective.gradient x value e)
    (rest : Reports p.objective.value p.objective.gradient y value' (Vector.zeros p.block.arity)) :
    p.block.stepSize ^ 2 * Vector.gap x y ≤ Vector.dot e e ∧ 0 ≤ value - value' ∧
      value - value' ≤ Vector.dot e e / (2 * p.block.stepSize) := by
  have hrho := sound.stepSize_pos
  have he : e.length = p.block.arity := here.length.trans hx
  have ahead := objective_above hinge sound hz hx hy here rest
  have back := objective_above hinge sound hz hy hx rest here
  have still : Vector.dot (Vector.zeros p.block.arity) (Vector.sub x y) = 0 := by
    obtain ⟨f, rfl⟩ := Vector.exists_coordinates hx
    obtain ⟨g, rfl⟩ := Vector.exists_coordinates hy
    rw [Vector.zeros_ofFn, Vector.sub_ofFn, Vector.dot_ofFn, zero_dotProduct]
  obtain ⟨turned, same⟩ := Vector.seen_from hx hy he
  have distance := Vector.gap_nonneg x y
  have steep := Vector.dot_le_of_sq hx hy he hrho
  have away : 0 ≤ p.block.stepSize / 2 * Vector.gap x y := by positivity
  rw [turned, same] at ahead
  rw [still] at back
  refine ⟨Vector.sq_mul_gap_le hx hy he hrho ?_, ?_, ?_⟩
  · linarith
  · linarith
  · linarith

/-- Where a squared hinge has a say, the closed form is the one point without gradient. Over one or
two variables it is stored. Over more, whatever the fallback returns is stored, and its gradient
bounds how far it is from the closed form and how much its value is above the least. -/
theorem solve_squaredHinge_accuracy (constructed : p.Constructed)
    (kind : p.kind = .squaredHinge fallback) (state : p.HasState q)
    (weighted : q.block.weight ≠ 0)
    (above : q.block.constant < Vector.dot q.block.coefficients q.block.candidate) :
    SquaredHinge.closedForm q.block =
        Vector.sub q.block.candidate (Vector.scale q.block.coefficients
          (2 * q.block.weight *
            (Vector.dot q.block.coefficients q.block.candidate - q.block.constant) /
            (q.block.stepSize + 2 * q.block.weight *
              Vector.dot q.block.coefficients q.block.coefficients))) ∧
      (∀ x, q.objective.gradient x = .ok (Vector.zeros q.block.arity) ↔
        x = SquaredHinge.closedForm q.block) ∧
      (q.block.arity ≤ 2 →
        q.solve.value = .done (q.withPrimal (SquaredHinge.closedForm q.block))) ∧
      (3 ≤ q.block.arity → ∀ x, x.length = q.block.arity →
        (fallback.minimize q.objective q.block.candidate).value = .ok x →
        q.solve.value = .done (q.withPrimal x) ∧
          ∃ value e least, Reports q.objective.value q.objective.gradient x value e ∧
            Reports q.objective.value q.objective.gradient (SquaredHinge.closedForm q.block) least
              (Vector.zeros q.block.arity) ∧
            q.block.stepSize ^ 2 * Vector.gap x (SquaredHinge.closedForm q.block) ≤
              Vector.dot e e ∧
            0 ≤ value - least ∧ value - least ≤ Vector.dot e e / (2 * q.block.stepSize)) := by
  have sound := state.sound constructed
  have hz := state.length_z
  have same : q.kind = .squaredHinge fallback := state.sameRule.kind_eq.trans kind
  have hinge : ∀ comparator, q.kind ≠ .hardRule comparator := by simp [same]
  have active : SquaredHinge.Active q.block := (sub_pos.mpr above).le
  have say : SquaredHinge.inactive q.block q.block.candidate = false :=
    SquaredHinge.inactive_eq_false_iff.mpr (not_or.mpr ⟨weighted, not_le.mpr above⟩)
  have reached : (SquaredHinge.closedForm q.block).length = q.block.arity :=
    (reports_closedForm same sound hz active).1
  obtain ⟨least, rest⟩ := (reports_closedForm same sound hz active).2
  refine ⟨rfl, fun x => ⟨fun level => ?_, ?_⟩, fun few => ?_, fun wide x hx returned => ⟨?_, ?_⟩⟩
  · have hx : x.length = q.block.arity := Landscape.length_of_gradient level
    obtain ⟨_, _, _, told⟩ := exists_reports hinge sound hz hx
    have slope := told.gradient_eq
    rw [level, Except.ok.injEq] at slope
    rw [← slope] at told
    obtain ⟨near, _, _⟩ := sq_mul_gap_le_of_rest hinge sound hz hx reached told rest
    have none : Vector.dot (Vector.zeros q.block.arity : List ℝ) (Vector.zeros q.block.arity) =
        0 := by simp [Vector.dot_ofFn, Vector.zeros_ofFn]
    have square : 0 < q.block.stepSize ^ 2 := pow_pos sound.stepSize_pos 2
    exact Vector.eq_of_mul_gap_nonpos square (hx.trans reached.symm) (near.trans_eq none)
  · rintro rfl
    exact rest.gradient_eq
  · refine solve_of_found ?_
    rw [solution, same, ← SquaredHinge.retreat_way_of_active active]
    exact SquaredHinge.solve_eq sound hz fun _ wide => absurd wide (by omega)
  · refine solve_of_found ?_
    rw [objective, landscape, same] at returned
    rw [solution, same]
    refine SquaredHinge.solve_eq_ok_iff.mpr ⟨?_, Vector.finite_real _⟩
    rw [say, if_neg Bool.false_ne_true, SquaredHinge.solveActive_of_wide wide]
    exact SquaredHinge.solveByFallback_eq_ok_iff.mpr returned
  · obtain ⟨_, _, _, told⟩ := exists_reports hinge sound hz hx
    exact ⟨_, _, least, told, rest, sq_mul_gap_le_of_rest hinge sound hz hx reached told rest⟩

/-- A squared hinge on the sum of three variables, whose fallback stays where it starts. -/
noncomputable def triple : Potential ℝ :=
  ⟨⟨6, [1, 1, 1], 0, 1, 1, [0, 1, 2], [1, 1, 1], [0, 0, 0], [1, 1, 1]⟩, .squaredHinge .staying⟩

/-- The candidate of the triple is stored, six sevenths away from the closed form. -/
theorem solve_squaredHinge_accuracy_triple :
    triple.HasState triple ∧ triple.solve.value = .done (triple.withPrimal [1, 1, 1]) ∧
      ∃ value e least, Reports triple.objective.value triple.objective.gradient [1, 1, 1] value e ∧
        Reports triple.objective.value triple.objective.gradient [1 / 7, 1 / 7, 1 / 7] least
          (Vector.zeros 3) ∧
        1 ^ 2 * Vector.gap [1, 1, 1] [1 / 7, 1 / 7, 1 / 7] ≤ Vector.dot e e ∧
        0 ≤ value - least ∧ value - least ≤ Vector.dot e e / (2 * 1) := by
  have block : triple.block.Constructed :=
    Block.constructed_real (by simp) zero_le_one one_pos rfl (by decide) rfl
  have state : triple.HasState triple := ⟨.refl _, rfl, rfl⟩
  have candidate : triple.block.candidate = [1, 1, 1] := by
    simp [triple, Block.candidate, Vector.sub, Vector.divide]
  have above : triple.block.constant < Vector.dot triple.block.coefficients
      triple.block.candidate := by
    rw [candidate]
    norm_num [triple, Vector.dot_eq_sum]
  obtain ⟨formula, _, _, wide⟩ := solve_squaredHinge_accuracy
    (constructed_squaredHinge block .staying) rfl state one_ne_zero above
  have reached : SquaredHinge.closedForm triple.block = [1 / 7, 1 / 7, 1 / 7] := by
    rw [formula, candidate]
    norm_num [triple, Vector.dot_eq_sum, Vector.scale, Vector.sub]
  obtain ⟨solved, value, e, least, here, rest, bounds⟩ :=
    wide le_rfl [1, 1, 1] rfl (congrArg Except.ok candidate)
  rw [reached] at rest bounds
  exact ⟨state, solved, value, e, least, here, rest, bounds⟩

end Potential

end RuleConsensus
