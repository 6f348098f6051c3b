import RuleConsensus.Proofs.Exact.HingeMinimizers

set_option autoImplicit false
set_option relaxedAutoImplicit false

namespace RuleConsensus

open Matrix

namespace Vector

variable {n : ℕ} {x y z : List ℝ}

theorem dot_sq_le (hx : x.length = n) (hy : y.length = n) :
    dot x y ^ 2 ≤ dot x x * dot y y := by
  obtain ⟨f, rfl⟩ := exists_coordinates hx
  obtain ⟨g, rfl⟩ := exists_coordinates hy
  simp only [dot_ofFn, dotProduct]
  calc (∑ i, f i * g i) ^ 2 ≤ (∑ i, f i ^ 2) * ∑ i, g i ^ 2 :=
        Finset.sum_mul_sq_le_sq_mul_sq Finset.univ f g
    _ = (∑ i, f i * f i) * ∑ i, g i * g i := by simp only [sq]

theorem dot_add (hx : x.length = n) (hy : y.length = n) (hz : z.length = n) :
    dot (add x y) z = dot x z + dot y z := by
  obtain ⟨f, rfl⟩ := exists_coordinates hx
  obtain ⟨g, rfl⟩ := exists_coordinates hy
  obtain ⟨h, rfl⟩ := exists_coordinates hz
  rw [add_ofFn, dot_ofFn, dot_ofFn, dot_ofFn, add_dotProduct]

theorem sq_norm (x : List ℝ) : norm x ^ 2 = dot x x := by
  rw [norm_eq_sqrt, Real.sq_sqrt (dot_self_nonneg x)]

/-- The point that lies between two others, so much of the way from the first to the second. -/
noncomputable def between (x y : List ℝ) (t : ℝ) : List ℝ := add (scale x (1 - t)) (scale y t)

theorem length_between (hx : x.length = n) (hy : y.length = n) (t : ℝ) :
    (between x y t).length = n := by
  rw [between, length_add, length_scale, length_scale, hx, hy, min_self]

theorem dot_from_between {s : List ℝ} (hs : s.length = n) (hx : x.length = n) (hy : y.length = n)
    (t : ℝ) :
    (1 - t) * dot s (sub x (between x y t)) + t * dot s (sub y (between x y t)) = 0 := by
  obtain ⟨h, rfl⟩ := exists_coordinates hs
  obtain ⟨f, rfl⟩ := exists_coordinates hx
  obtain ⟨g, rfl⟩ := exists_coordinates hy
  simp only [between, scale_ofFn, add_ofFn, sub_ofFn, dot_ofFn, dotProduct_sub, dotProduct_add,
    dotProduct_smul, smul_eq_mul]
  ring

end Vector

section Functions

variable {ε : Type}

/-- A value and a gradient as a function and its derivative report them at a point. -/
structure Reports (value : List ℝ → Except ε ℝ) (gradient : List ℝ → Except ε (List ℝ))
    (x : List ℝ) (v : ℝ) (g : List ℝ) : Prop where
  value_eq : value x = .ok v
  gradient_eq : gradient x = .ok g
  length : g.length = x.length

/-- Close to a point, a function changes as a gradient says, up to any part of the distance. -/
def IsGradient (value : List ℝ → Except ε ℝ) (x : List ℝ) (v : ℝ) (g : List ℝ) : Prop :=
  ∀ part > 0, ∃ near > 0, ∀ q v', q.length = x.length → value q = .ok v' →
    Vector.norm (Vector.sub q x) < near →
      |v' - v - Vector.dot g (Vector.sub q x)| ≤ part * Vector.norm (Vector.sub q x)

theorem isGradient_of_sq {value : List ℝ → Except ε ℝ} {x g : List ℝ} {v bound : ℝ}
    (positive : 0 < bound)
    (close : ∀ q v', q.length = x.length → value q = .ok v' →
      |v' - v - Vector.dot g (Vector.sub q x)| ≤ bound * Vector.gap q x) :
    IsGradient value x v g := by
  intro part hpart
  refine ⟨part / bound, div_pos hpart positive, ?_⟩
  intro q v' hq reported near
  have away : 0 ≤ Vector.norm (Vector.sub q x) := by
    rw [Vector.norm_eq_sqrt]
    exact Real.sqrt_nonneg _
  have short : bound * Vector.norm (Vector.sub q x) ≤ part := by
    have h := (lt_div_iff₀ positive).mp near
    linarith
  calc |v' - v - Vector.dot g (Vector.sub q x)| ≤ bound * Vector.gap q x := close q v' hq reported
    _ = bound * Vector.norm (Vector.sub q x) * Vector.norm (Vector.sub q x) := by
      rw [Vector.gap, ← Vector.sq_norm]
      ring
    _ ≤ part * Vector.norm (Vector.sub q x) := mul_le_mul_of_nonneg_right short away

end Functions

namespace Kind

variable {w m : ℝ}

/-- The slope that a kind of term reports at a margin: none on the flat side, and none of a hard
rule. -/
noncomputable def slope (kind : Kind ℝ) (w m : ℝ) : ℝ :=
  open Classical in
  match kind with
  | .squaredHinge _ => Scalar.two * w * max m 0
  | .linearHinge => if 0 < m then w else 0
  | .hardRule _ => 0

theorem isSlope_slope {kind : Kind ℝ} (soft : ∀ comparator, kind ≠ .hardRule comparator)
    (hw : 0 ≤ w) (m : ℝ) : IsSlope (kind.profile w) m (kind.slope w m) := by
  cases kind with
  | squaredHinge fallback =>
    rcases le_total 0 m with ahead | flat
    · have steep : slope (.squaredHinge fallback) w m = 2 * w * m := by
        rw [slope, max_eq_left ahead, Scalar.two_real]
      rw [steep]
      exact isSlope_squaredHinge hw ahead
    · have level : slope (.squaredHinge fallback) w m = 0 := by
        rw [slope, max_eq_right flat, mul_zero]
      rw [level]
      exact isSlope_zero hw (profile_of_idle (by simp) (.inr flat))
  | linearHinge =>
    by_cases ahead : 0 < m
    · have steep : slope .linearHinge w m = w := if_pos ahead
      rw [steep]
      exact isSlope_linearHinge hw le_rfl (fun behind => absurd behind ahead.le.not_gt) fun _ => rfl
    · have level : slope .linearHinge w m = 0 := if_neg ahead
      rw [level]
      exact isSlope_linearHinge le_rfl hw (fun _ => rfl) fun behind => absurd behind ahead
  | hardRule comparator => exact absurd rfl (soft comparator)

/-- The square of a hinge bends no more than the square itself. -/
theorem profile_squaredHinge_le (fallback : Fallback ℝ) (hw : 0 ≤ w) (m t : ℝ) :
    w * max t 0 ^ 2 ≤
      w * max m 0 ^ 2 + slope (.squaredHinge fallback) w m * (t - m) + w * (t - m) ^ 2 := by
  have bend : max t 0 ^ 2 ≤ max m 0 ^ 2 + 2 * max m 0 * (t - m) + (t - m) ^ 2 := by
    rcases le_total 0 m with ahead | flat
    · have lower : max t 0 ^ 2 ≤ t ^ 2 := by
        rcases le_total 0 t with ht | ht
        · rw [max_eq_left ht]
        · rw [max_eq_right ht]
          nlinarith [sq_nonneg t]
      rw [max_eq_left ahead]
      linarith
    · rw [max_eq_right flat]
      rcases le_total 0 t with ht | ht
      · rw [max_eq_left ht]
        nlinarith
      · rw [max_eq_right ht]
        nlinarith [sq_nonneg (t - m)]
  rw [slope, Scalar.two_real]
  nlinarith [mul_le_mul_of_nonneg_left bend hw]

end Kind

theorem Block.penaltyGradient_eq {b : Block ℝ} {q : List ℝ} (sound : b.Sound)
    (hz : b.z.length = b.arity) (hq : q.length = b.arity) :
    b.penaltyGradient q = .ok (Vector.scale (Vector.sub q b.candidate) b.stepSize) := by
  have pull : Vector.add (Vector.scale (Vector.sub q b.z) b.stepSize) b.y =
      Vector.scale (Vector.sub q b.candidate) b.stepSize := by
    obtain ⟨u, rfl⟩ := Vector.exists_coordinates hq
    obtain ⟨z, hz⟩ := Vector.exists_coordinates hz
    obtain ⟨y, hy⟩ := Vector.exists_coordinates sound.length_y
    simp only [candidate, hz, hy, Vector.divide_ofFn, Vector.sub_ofFn, Vector.scale_ofFn,
      Vector.add_ofFn]
    rw [← sub_add, smul_add, smul_inv_smul₀ sound.stepSize_pos.ne']
  rw [penaltyGradient, checkPoint, checkLength_eq_ok_iff.mpr hq.symm, ← pull]
  rfl

namespace Potential

variable {p q : Potential ℝ} {a b : List ℝ}

noncomputable def slopeAt (p : Potential ℝ) (a : List ℝ) : ℝ :=
  p.kind.slope p.block.weight (Vector.dot p.block.coefficients a - p.block.constant)

theorem gradient_eq (ha : a.length = p.block.arity) :
    p.gradient a = .ok (Vector.scale p.block.coefficients (p.slopeAt a)) := by
  have flat : Vector.scale p.block.coefficients (0 : ℝ) = Vector.zeros p.block.arity := by
    obtain ⟨n, c, hn, hc⟩ := Vector.coordinates p.block.coefficients
    rw [Block.arity, hn, hc]
    simp
  have margin := Block.margin_eq ha
  obtain ⟨b, kind⟩ := p
  cases kind with
  | squaredHinge fallback =>
    change SquaredHinge.gradient b a = _
    rw [SquaredHinge.gradient, margin, slopeAt, Kind.slope]
    by_cases active : 0 < Vector.dot b.coefficients a - b.constant
    · rw [max_eq_left active.le]
      exact if_pos active
    · rw [max_eq_right (not_lt.mp active), mul_zero, flat]
      exact if_neg active
  | linearHinge =>
    change LinearHinge.gradient b a = _
    rw [LinearHinge.gradient, margin, slopeAt, Kind.slope]
    by_cases active : 0 < Vector.dot b.coefficients a - b.constant
    · rw [if_pos active]
      exact if_pos active
    · rw [if_neg active, flat]
      exact if_neg active
  | hardRule comparator =>
    change HardRule.gradient b a = _
    rw [HardRule.gradient, Block.checkPoint, checkLength_eq_ok_iff.mpr ha.symm, slopeAt, Kind.slope,
      flat]
    rfl

theorem objective_gradient_eq (sound : p.block.Sound) (hz : p.block.z.length = p.block.arity)
    (ha : a.length = p.block.arity) :
    p.objective.gradient a = .ok (Vector.add (Vector.scale p.block.coefficients (p.slopeAt a))
      (Vector.scale (Vector.sub a p.block.candidate) p.block.stepSize)) := by
  have slope := gradient_eq ha
  have pull := Block.penaltyGradient_eq sound hz ha
  rw [gradient] at slope
  simp only [objective, Landscape.objective, Landscape.augmentedGradient, slope, pull]
  rfl

theorem evaluate_eq_ok_iff (hinge : ∀ comparator, p.kind ≠ .hardRule comparator)
    (ha : a.length = p.block.arity) {v : ℝ} : p.evaluate a = .ok v ↔ p.cost a = v := by
  obtain ⟨b, kind⟩ := p
  cases kind with
  | squaredHinge fallback =>
    have value := SquaredHinge.evaluate_eq ha
    simp only [cost, evaluate, landscape, SquaredHinge.landscape, value, Except.ok.injEq,
      WithTop.coe_inj]
  | linearHinge =>
    have value := LinearHinge.evaluate_eq ha
    simp only [cost, evaluate, landscape, LinearHinge.landscape, value, Except.ok.injEq,
      WithTop.coe_inj]
  | hardRule comparator => exact absurd rfl (hinge comparator)

theorem isSubgradient_slopeAt (hinge : ∀ comparator, p.kind ≠ .hardRule comparator)
    (hw : 0 ≤ p.block.weight) (ha : a.length = p.block.arity) :
    IsSubgradient p.cost a (Vector.scale p.block.coefficients (p.slopeAt a)) :=
  isSubgradient_of_isSlope ha (Kind.isSlope_slope hinge hw _)

theorem penalty_eq (sound : p.block.Sound) (hz : p.block.z.length = p.block.arity)
    (ha : a.length = p.block.arity) (hb : b.length = p.block.arity) :
    1 / 2 * p.block.stepSize * Vector.gap b p.block.candidate =
      1 / 2 * p.block.stepSize * Vector.gap a p.block.candidate +
        Vector.dot (Vector.scale (Vector.sub a p.block.candidate) p.block.stepSize)
          (Vector.sub b a) +
        1 / 2 * p.block.stepSize * Vector.gap b a := by
  have hv := sound.length_candidate hz
  have turned : Vector.dot (Vector.scale (Vector.sub a p.block.candidate) p.block.stepSize)
      (Vector.sub b a) = -(p.block.stepSize *
        Vector.dot (Vector.sub p.block.candidate a) (Vector.sub b a)) := by
    obtain ⟨f, rfl⟩ := Vector.exists_coordinates ha
    obtain ⟨g, rfl⟩ := Vector.exists_coordinates hb
    obtain ⟨v, hv⟩ := Vector.exists_coordinates hv
    simp only [hv, Vector.sub_ofFn, Vector.scale_ofFn, Vector.dot_ofFn, smul_dotProduct,
      smul_eq_mul, ← neg_sub v f, neg_dotProduct, mul_neg]
  rw [turned, Vector.gap_eq_add_gap hv ha hb]
  ring

theorem exists_reports (hinge : ∀ comparator, p.kind ≠ .hardRule comparator)
    (sound : p.block.Sound) (hz : p.block.z.length = p.block.arity)
    (ha : a.length = p.block.arity) :
    ∃ c : ℝ, p.cost a = c ∧
      Reports p.evaluate p.gradient a c (Vector.scale p.block.coefficients (p.slopeAt a)) ∧
      Reports p.objective.value p.objective.gradient a
        (c + 1 / 2 * p.block.stepSize * Vector.gap a p.block.candidate)
        (Vector.add (Vector.scale p.block.coefficients (p.slopeAt a))
          (Vector.scale (Vector.sub a p.block.candidate) p.block.stepSize)) := by
  obtain ⟨c, here, value⟩ := exists_cost_of_hinge hinge ha
  have hv := sound.length_candidate hz
  have long : (Vector.scale p.block.coefficients (p.slopeAt a)).length = p.block.arity :=
    Vector.length_scale _ _
  refine ⟨c, here, ⟨(evaluate_eq_ok_iff hinge ha).mpr here, gradient_eq ha, long.trans ha.symm⟩,
    ⟨?_, objective_gradient_eq sound hz ha, ?_⟩⟩
  · have reported := congrArg asObjectiveFailure value
    exact reported
  · rw [Vector.length_add, long, Vector.length_scale, Vector.length_sub, ha, hv, min_self, min_self]

theorem cost_above (hinge : ∀ comparator, p.kind ≠ .hardRule comparator) (hw : 0 ≤ p.block.weight)
    (ha : a.length = p.block.arity) (hb : b.length = p.block.arity) {c c' : ℝ}
    (here : p.cost a = c) (there : p.cost b = c') :
    c + Vector.dot (Vector.scale p.block.coefficients (p.slopeAt a)) (Vector.sub b a) ≤ c' := by
  obtain ⟨_, _, below⟩ := isSubgradient_slopeAt hinge hw ha
  have above := below b (hb.trans ha.symm)
  rw [here, there] at above
  exact_mod_cast above

theorem cost_below {fallback : Fallback ℝ} (kind : p.kind = .squaredHinge fallback)
    (hw : 0 ≤ p.block.weight) (ha : a.length = p.block.arity) (hb : b.length = p.block.arity)
    {c c' : ℝ} (here : p.cost a = c) (there : p.cost b = c') :
    c' ≤ c + Vector.dot (Vector.scale p.block.coefficients (p.slopeAt a)) (Vector.sub b a) +
      p.block.weight * Vector.dot p.block.coefficients p.block.coefficients *
        Vector.gap b a := by
  rw [cost_eq_profile ha, kind] at here
  rw [cost_eq_profile hb, kind] at there
  have hc : p.block.weight *
      max (Vector.dot p.block.coefficients a - p.block.constant) 0 ^ 2 = c :=
    WithTop.coe_injective here
  have hc' : p.block.weight *
      max (Vector.dot p.block.coefficients b - p.block.constant) 0 ^ 2 = c' :=
    WithTop.coe_injective there
  have bend := Kind.profile_squaredHinge_le fallback hw
    (Vector.dot p.block.coefficients a - p.block.constant)
    (Vector.dot p.block.coefficients b - p.block.constant)
  have apart : (Vector.sub b a).length = p.block.coefficients.length := by
    rw [Vector.length_sub, ha, hb]
    exact min_self _
  have schwarz := Vector.dot_sq_le rfl apart
  have along := Block.dot_scale_sub ha hb 1
  rw [Vector.dot_scale rfl apart, one_mul, one_mul] at along
  rw [along] at schwarz
  have square := mul_le_mul_of_nonneg_left schwarz hw
  rw [Block.dot_scale_sub ha hb, slopeAt, kind, ← hc, ← hc', mul_assoc, Vector.gap]
  linarith

theorem cost_between (hinge : ∀ comparator, p.kind ≠ .hardRule comparator)
    (hw : 0 ≤ p.block.weight) (ha : a.length = p.block.arity) (hb : b.length = p.block.arity)
    {c c' : ℝ} (here : p.cost a = c) (there : p.cost b = c') {t : ℝ} (ht : 0 ≤ t) (ht' : t ≤ 1) :
    ∃ m : ℝ, p.evaluate (Vector.between a b t) = .ok m ∧ m ≤ (1 - t) * c + t * c' := by
  have hm := Vector.length_between ha hb t
  obtain ⟨m, middle, _⟩ := exists_cost_of_hinge hinge hm
  have back := cost_above hinge hw hm ha middle here
  have ahead := cost_above hinge hw hm hb middle there
  have level := Vector.dot_from_between
    (Vector.length_scale p.block.coefficients (p.slopeAt (Vector.between a b t))) ha hb t
  have back' := mul_le_mul_of_nonneg_left back (sub_nonneg.mpr ht')
  have ahead' := mul_le_mul_of_nonneg_left ahead ht
  refine ⟨m, (evaluate_eq_ok_iff hinge hm).mpr middle, ?_⟩
  linarith

theorem exists_cost_of_reports (hinge : ∀ comparator, p.kind ≠ .hardRule comparator)
    (sound : p.block.Sound) (hz : p.block.z.length = p.block.arity)
    (ha : a.length = p.block.arity) {v : ℝ} {g : List ℝ}
    (told : Reports p.objective.value p.objective.gradient a v g) :
    ∃ c : ℝ, p.cost a = c ∧ c + 1 / 2 * p.block.stepSize * Vector.gap a p.block.candidate = v ∧
      ∀ b : List ℝ, b.length = p.block.arity → Vector.dot g (Vector.sub b a) =
        Vector.dot (Vector.scale p.block.coefficients (p.slopeAt a)) (Vector.sub b a) +
          Vector.dot (Vector.scale (Vector.sub a p.block.candidate) p.block.stepSize)
            (Vector.sub b a) := by
  obtain ⟨c, here, _, known⟩ := exists_reports hinge sound hz ha
  have hv := sound.length_candidate hz
  have value := told.value_eq
  have slope := told.gradient_eq
  rw [known.value_eq, Except.ok.injEq] at value
  rw [known.gradient_eq, Except.ok.injEq] at slope
  refine ⟨c, here, value, fun b hb => ?_⟩
  rw [← slope]
  refine Vector.dot_add (Vector.length_scale _ _) ?_ ?_
  · rw [Vector.length_scale, Vector.length_sub, ha, hv]
    exact min_self _
  · rw [Vector.length_sub, ha, hb]
    exact min_self _

theorem objective_above (hinge : ∀ comparator, p.kind ≠ .hardRule comparator)
    (sound : p.block.Sound) (hz : p.block.z.length = p.block.arity)
    (ha : a.length = p.block.arity) (hb : b.length = p.block.arity) {v v' : ℝ} {g g' : List ℝ}
    (here : Reports p.objective.value p.objective.gradient a v g)
    (there : Reports p.objective.value p.objective.gradient b v' g') :
    v + Vector.dot g (Vector.sub b a) + p.block.stepSize / 2 * Vector.gap b a ≤ v' := by
  obtain ⟨c, hc, hv, parted⟩ := exists_cost_of_reports hinge sound hz ha here
  obtain ⟨c', hc', hv', _⟩ := exists_cost_of_reports hinge sound hz hb there
  have penalty := penalty_eq sound hz ha hb
  have above := cost_above hinge sound.weight_nonneg ha hb hc hc'
  rw [parted b hb, ← hv, ← hv']
  linarith

theorem objective_below {fallback : Fallback ℝ} (kind : p.kind = .squaredHinge fallback)
    (sound : p.block.Sound) (hz : p.block.z.length = p.block.arity)
    (ha : a.length = p.block.arity) (hb : b.length = p.block.arity) {v v' : ℝ} {g g' : List ℝ}
    (here : Reports p.objective.value p.objective.gradient a v g)
    (there : Reports p.objective.value p.objective.gradient b v' g') :
    v' ≤ v + Vector.dot g (Vector.sub b a) +
      (p.block.stepSize / 2 + p.block.weight *
        Vector.dot p.block.coefficients p.block.coefficients) * Vector.gap b a := by
  have hinge : ∀ comparator, p.kind ≠ .hardRule comparator := by simp [kind]
  obtain ⟨c, hc, hv, parted⟩ := exists_cost_of_reports hinge sound hz ha here
  obtain ⟨c', hc', hv', _⟩ := exists_cost_of_reports hinge sound hz hb there
  have penalty := penalty_eq sound hz ha hb
  have below := cost_below kind sound.weight_nonneg ha hb hc hc'
  rw [parted b hb, ← hv, ← hv']
  linarith

/-- Both bounds together leave the objective of a squared hinge no other gradient, at the kink
neither. -/
theorem isGradient_objective {fallback : Fallback ℝ} (kind : p.kind = .squaredHinge fallback)
    (sound : p.block.Sound) (hz : p.block.z.length = p.block.arity)
    (ha : a.length = p.block.arity) {v : ℝ} {g : List ℝ}
    (here : Reports p.objective.value p.objective.gradient a v g) :
    IsGradient p.objective.value a v g := by
  have hinge : ∀ comparator, p.kind ≠ .hardRule comparator := by simp [kind]
  have hw := sound.weight_nonneg
  have hrho := sound.stepSize_pos
  have square := Vector.dot_self_nonneg p.block.coefficients
  have bends : 0 < p.block.stepSize / 2 +
      p.block.weight * Vector.dot p.block.coefficients p.block.coefficients := by positivity
  refine isGradient_of_sq bends ?_
  intro b v' hb reported
  obtain ⟨_, _, _, there⟩ := exists_reports hinge sound hz (hb.trans ha)
  have same := there.value_eq
  rw [reported, Except.ok.injEq] at same
  rw [← same] at there
  have above := objective_above hinge sound hz ha (hb.trans ha) here there
  have below := objective_below kind sound hz ha (hb.trans ha) here there
  have gap := Vector.gap_nonneg b a
  have curved : 0 ≤ p.block.weight *
      Vector.dot p.block.coefficients p.block.coefficients * Vector.gap b a := by positivity
  have bent : 0 ≤ p.block.stepSize * Vector.gap b a := by positivity
  rw [abs_le]
  constructor <;> linarith

/-- The objective of a hinge has the gradient that it reports. From every point it rises at least
as fast as that gradient and the penalty say, and for a squared hinge no faster than with the
curvature of the hinge added. Without the penalty it is convex, and what is reported as the gradient
is a subgradient. -/
theorem objective_belongs_to_gradient (constructed : p.Constructed)
    (hinge : ∀ comparator, p.kind ≠ .hardRule comparator) (state : p.HasState q)
    (ha : a.length = q.block.arity) :
    ∃ value slope cost pull, Reports q.objective.value q.objective.gradient a value slope ∧
      Reports q.evaluate q.gradient a cost pull ∧
      (∀ b, b.length = q.block.arity → ∃ value' slope' cost' pull',
        Reports q.objective.value q.objective.gradient b value' slope' ∧
        Reports q.evaluate q.gradient b cost' pull' ∧
        value + Vector.dot slope (Vector.sub b a) +
          q.block.stepSize / 2 * Vector.gap b a ≤ value' ∧
        (∀ fallback, q.kind = .squaredHinge fallback →
          value' ≤ value + Vector.dot slope (Vector.sub b a) +
            (q.block.stepSize / 2 + q.block.weight *
              Vector.dot q.block.coefficients q.block.coefficients) * Vector.gap b a) ∧
        cost + Vector.dot pull (Vector.sub b a) ≤ cost' ∧
        ∀ t, 0 ≤ t → t ≤ 1 → ∃ middle, q.evaluate (Vector.between a b t) = .ok middle ∧
          middle ≤ (1 - t) * cost + t * cost') ∧
      ∀ fallback, q.kind = .squaredHinge fallback →
        IsGradient q.objective.value a value slope := by
  have sound := state.sound constructed
  have hz := state.length_z
  have soft : ∀ comparator, q.kind ≠ .hardRule comparator := by
    rw [state.sameRule.kind_eq]
    exact hinge
  have hw := sound.weight_nonneg
  obtain ⟨c, hc, said, here⟩ := exists_reports soft sound hz ha
  refine ⟨_, _, _, _, here, said, fun b hb => ?_, fun fallback kind =>
    isGradient_objective kind sound hz ha here⟩
  obtain ⟨c', hc', said', there⟩ := exists_reports soft sound hz hb
  exact ⟨_, _, _, _, there, said', objective_above soft sound hz ha hb here there,
    fun fallback kind => objective_below kind sound hz ha hb here there,
    cost_above soft hw ha hb hc hc', fun t ht ht' => cost_between soft hw ha hb hc hc' ht ht'⟩

/-- From one and one, where the soft fence has a say, to the origin, where it has none. -/
theorem objective_belongs_to_gradient_softFence :
    softFence.HasState (softFence.withConsensus [3, 2]) ∧
      ∃ value slope value' slope',
        Reports (softFence.withConsensus [3, 2]).objective.value
          (softFence.withConsensus [3, 2]).objective.gradient [1, 1] value slope ∧
        Reports (softFence.withConsensus [3, 2]).objective.value
          (softFence.withConsensus [3, 2]).objective.gradient [0, 0] value' slope' ∧
        value + Vector.dot slope (Vector.sub [0, 0] [1, 1]) +
          1 / 2 * Vector.gap [0, 0] [1, 1] ≤ value' ∧
        value' ≤ value + Vector.dot slope (Vector.sub [0, 0] [1, 1]) +
          (1 / 2 + 1 * Vector.dot [1, 1] [1, 1]) * Vector.gap [0, 0] [1, 1] := by
  have state : softFence.HasState (softFence.withConsensus [3, 2]) := ⟨⟨_, _, _, rfl⟩, rfl, rfl⟩
  obtain ⟨value, slope, _, _, told, _, pairs, _⟩ := objective_belongs_to_gradient
    (constructed_squaredHinge fence_block_constructed .staying) (by simp) state
    (show ([1, 1] : List ℝ).length = (softFence.withConsensus [3, 2]).block.arity from rfl)
  obtain ⟨value', slope', _, _, told', _, above, below, _⟩ := pairs [0, 0] rfl
  exact ⟨state, value, slope, value', slope', told, told', above, below .staying rfl⟩

end Potential

end RuleConsensus
