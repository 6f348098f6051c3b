import RuleConsensus.Proofs.Exact.Profile
import RuleConsensus.Proofs.Term.Run

/-!
The cost of a term in exact arithmetic, as a function of a point that may be infinite. It is a
profile read along the coefficients, so a slope of the profile becomes a subgradient of the cost.
-/

set_option autoImplicit false
set_option relaxedAutoImplicit false

namespace RuleConsensus

open Matrix

/-- The affine minorants of an extended function that touch it at a point, by their gradients. -/
def IsSubgradient (f : List ℝ → WithTop ℝ) (x g : List ℝ) : Prop :=
  g.length = x.length ∧ f x ≠ ⊤ ∧
    ∀ q, q.length = x.length → f x + ((Vector.dot g (Vector.sub q x) : ℝ) : WithTop ℝ) ≤ f q

/-- Subgradients are monotone: a greater slope lies further ahead. -/
theorem IsSubgradient.monotone {f : List ℝ → WithTop ℝ} {x g x' g' : List ℝ}
    (h : IsSubgradient f x g) (h' : IsSubgradient f x' g') (hl : x.length = x'.length) :
    0 ≤ Vector.dot (Vector.sub g g') (Vector.sub x x') := by
  obtain ⟨hg, hx, below⟩ := h
  obtain ⟨hg', hx', below'⟩ := h'
  obtain ⟨a, ha⟩ := WithTop.ne_top_iff_exists.mp hx
  obtain ⟨a', ha'⟩ := WithTop.ne_top_iff_exists.mp hx'
  have ahead : a + Vector.dot g (Vector.sub x' x) ≤ a' := by
    have h := below x' hl.symm
    rw [← ha, ← ha'] at h
    exact_mod_cast h
  have behind : a' + Vector.dot g' (Vector.sub x x') ≤ a := by
    have h := below' x hl
    rw [← ha, ← ha'] at h
    exact_mod_cast h
  obtain ⟨n, u, hn, rfl⟩ := Vector.coordinates x
  obtain ⟨u', rfl⟩ := Vector.exists_coordinates (hl.symm.trans hn)
  obtain ⟨v, rfl⟩ := Vector.exists_coordinates (hg.trans hn)
  obtain ⟨v', rfl⟩ := Vector.exists_coordinates (hg'.trans (hl.symm.trans hn))
  simp only [Vector.sub_ofFn, Vector.dot_ofFn, dotProduct_sub, sub_dotProduct] at ahead behind ⊢
  linarith

theorem IsSubgradient.length_neg {f : List ℝ → WithTop ℝ} {x y : List ℝ}
    (h : IsSubgradient f x (Vector.neg y)) : y.length = x.length := by
  have hl := h.1
  rwa [Vector.neg, List.length_map] at hl

/-- The fallback solves the proximal steps of a block exactly: from every consensus and dual it
returns a point with one entry for each variable, and no other such point has a lower value. -/
def Fallback.SolvesExactly (fallback : Fallback ℝ) (b : Block ℝ) : Prop :=
  ∀ z y, z.length = b.arity → y.length = b.arity →
    let block := { b with y := y, z := z }
    let objective := (SquaredHinge.landscape block).objective block
    ∃ x least, (fallback.minimize objective block.candidate).value = .ok x ∧
      x.length = b.arity ∧ objective.value x = .ok least ∧
      ∀ q other, q.length = b.arity → objective.value q = .ok other → least ≤ other

/-- What every block of a built term satisfies in exact arithmetic. -/
structure Block.Sound (b : Block ℝ) : Prop where
  weight_nonneg : 0 ≤ b.weight
  stepSize_pos : 0 < b.stepSize
  arity_pos : 0 < b.arity
  length_indices : b.indices.length = b.arity
  length_y : b.y.length = b.arity

theorem Vector.finite_real (x : List ℝ) : Vector.Finite x := fun _ _ => rfl

/-- In exact arithmetic every number is finite, so only signs, lengths and indices are checked. -/
theorem Block.constructed_real {termId : ℕ} {c z : List ℝ} {k w rho : ℝ} {indices : List ℕ}
    (some : c.length ≠ 0) (hw : 0 ≤ w) (hrho : 0 < rho) (hi : indices.length = c.length)
    (distinct : firstAlias? indices = none) (hz : z.length = c.length) :
    Block.Constructed ⟨termId, c, k, w, rho, indices, z, Vector.zeros c.length, z⟩ := by
  have data : c.length ≠ 0 ∧ Vector.Finite c ∧ Scalar.isFinite k = true :=
    ⟨some, Vector.finite_real c, rfl⟩
  exact ⟨termId, c, k, w, rho, indices, z, Block.build_eq_ok_iff.mpr ⟨data, ⟨rfl, not_lt.mpr hw⟩,
    ⟨rfl, not_le.mpr hrho⟩, ⟨hi, distinct⟩, ⟨hz, Vector.finite_real z⟩, rfl⟩⟩

theorem Block.Constructed.weight_nonneg {b : Block ℝ} (constructed : b.Constructed) :
    0 ≤ b.weight := by
  obtain ⟨_, c, k, w, rho, indices, z, accepted⟩ := constructed
  obtain ⟨_, ⟨_, hw⟩, _, _, _, hb⟩ := Block.build_eq_ok_iff.mp accepted
  rw [← hb]
  exact not_lt.mp hw

theorem Block.margin_eq {b : Block ℝ} {q : List ℝ} (hq : q.length = b.arity) :
    b.margin q = .ok (Vector.dot b.coefficients q - b.constant) := by
  rw [margin, checkPoint, checkLength_eq_ok_iff.mpr hq.symm]
  rfl

theorem Block.penaltyValue_eq {b : Block ℝ} {q : List ℝ} (hq : q.length = b.arity) :
    b.penaltyValue q = .ok (1 / 2 * b.stepSize * Vector.gap q b.candidate) := by
  rw [penaltyValue, checkPoint, checkLength_eq_ok_iff.mpr hq.symm]
  rfl

theorem Block.dot_scale_sub {b : Block ℝ} {x q : List ℝ} (hx : x.length = b.arity)
    (hq : q.length = b.arity) (g : ℝ) :
    Vector.dot (Vector.scale b.coefficients g) (Vector.sub q x) =
      g * (Vector.dot b.coefficients q - b.constant -
        (Vector.dot b.coefficients x - b.constant)) := by
  obtain ⟨n, c, hn, hc⟩ := Vector.coordinates b.coefficients
  obtain ⟨u, rfl⟩ := Vector.exists_coordinates (hx.trans hn)
  obtain ⟨v, rfl⟩ := Vector.exists_coordinates (hq.trans hn)
  simp only [hc, Vector.scale_ofFn, Vector.sub_ofFn, Vector.dot_ofFn, smul_dotProduct,
    dotProduct_sub, smul_eq_mul]
  ring

theorem SquaredHinge.evaluate_eq {b : Block ℝ} {q : List ℝ} (hq : q.length = b.arity) :
    SquaredHinge.evaluate b q =
      .ok (b.weight * max (Vector.dot b.coefficients q - b.constant) 0 ^ 2) := by
  rw [SquaredHinge.evaluate, Block.margin_eq hq, ← Scalar.larger_real, sq]
  rfl

theorem LinearHinge.evaluate_eq {b : Block ℝ} {q : List ℝ} (hq : q.length = b.arity) :
    LinearHinge.evaluate b q =
      .ok (b.weight * max (Vector.dot b.coefficients q - b.constant) 0) := by
  rw [LinearHinge.evaluate, Block.margin_eq hq, ← Scalar.larger_real]
  rfl

namespace Potential

/-- The cost of a point: the value of a hinge, and for a hard rule zero where it holds without
slack and infinity elsewhere. -/
noncomputable def cost (p : Potential ℝ) (q : List ℝ) : WithTop ℝ :=
  open Classical in
  match p.kind with
  | .hardRule comparator =>
    match p.block.margin q with
    | .ok m => if comparator.Holds m then 0 else ⊤
    | .error _ => ⊤
  | _ =>
    match p.evaluate q with
    | .ok a => (a : WithTop ℝ)
    | .error _ => ⊤

/-- What exact statements ask of a term: a fallback that is needed solves exactly, and a hard rule
is about some variable. -/
def Regular (p : Potential ℝ) : Prop :=
  match p.kind with
  | .squaredHinge fallback => 3 ≤ p.block.arity → fallback.SolvesExactly p.block
  | .linearHinge => True
  | .hardRule _ => ∃ c ∈ p.block.coefficients, c ≠ 0

theorem cost_sameRule {p q : Potential ℝ} (same : SameRule p q) : q.cost = p.cost := by
  obtain ⟨x, y, z, rfl⟩ := same
  rfl

theorem SameRule.regular {p q : Potential ℝ} (same : SameRule p q) (regular : p.Regular) :
    q.Regular := by
  obtain ⟨x, y, z, rfl⟩ := same
  obtain ⟨b, kind⟩ := p
  cases kind <;> exact regular

theorem constructed_squaredHinge {b : Block ℝ} (constructed : b.Constructed)
    (fallback : Fallback ℝ) : Constructed ⟨b, .squaredHinge fallback⟩ := by
  have soft : ¬b.weight < 0 := not_lt.mpr constructed.weight_nonneg
  have accepted : SquaredHinge.check b = .ok () :=
    SquaredHinge.check_eq_ok_iff.mpr ⟨⟨⟨rfl, soft⟩, rfl⟩, rfl, rfl⟩
  exact .squaredHinge constructed (squaredHinge_eq_ok_iff.mpr ⟨accepted, rfl⟩)

theorem constructed_linearHinge {b : Block ℝ} (constructed : b.Constructed) :
    Constructed ⟨b, .linearHinge⟩ := by
  have soft : ¬b.weight < 0 := not_lt.mpr constructed.weight_nonneg
  have accepted : LinearHinge.check b = .ok () :=
    LinearHinge.check_eq_ok_iff.mpr ⟨⟨⟨rfl, soft⟩, rfl⟩, rfl⟩
  exact .linearHinge constructed (linearHinge_eq_ok_iff.mpr ⟨accepted, rfl⟩)

theorem constructed_hardRule {b : Block ℝ} {comparator : Comparator} (constructed : b.Constructed)
    (satisfied : (∀ c ∈ b.coefficients, c = 0) →
      HardRule.satisfied comparator (-b.constant) = true) :
    Constructed ⟨b, .hardRule comparator⟩ := by
  have accepted : HardRule.check b comparator = .ok () := by
    rw [HardRule.check_eq_ok_iff, List.all_eq_true]
    simpa only [Scalar.beq_real] using satisfied
  exact .hardRule constructed (hardRule_eq_ok_iff.mpr ⟨accepted, rfl⟩)

theorem Built.sound {p : Potential ℝ} (built : p.Built) : p.block.Sound := by
  obtain ⟨origin, constructed, ⟨x, y, z, rfl⟩, hy⟩ := built
  obtain ⟨_, c, _, w, rho, indices, _, h⟩ := constructed.block
  obtain ⟨⟨hc, _⟩, ⟨_, hw⟩, ⟨_, hrho⟩, ⟨hi, _⟩, _, hb⟩ := Block.build_eq_ok_iff.mp h
  rw [← hb] at hy ⊢
  exact ⟨not_lt.mp hw, not_le.mp hrho, Nat.pos_of_ne_zero hc, hi, hy⟩

theorem cost_eq_profile {p : Potential ℝ} {q : List ℝ} (hq : q.length = p.block.arity) :
    p.cost q = p.kind.profile p.block.weight
      (Vector.dot p.block.coefficients q - p.block.constant) := by
  obtain ⟨b, kind⟩ := p
  cases kind with
  | squaredHinge fallback =>
    simp only [cost, evaluate, landscape, SquaredHinge.landscape, SquaredHinge.evaluate_eq hq]
    rfl
  | linearHinge =>
    simp only [cost, evaluate, landscape, LinearHinge.landscape, LinearHinge.evaluate_eq hq]
    rfl
  | hardRule comparator =>
    simp only [cost, Block.margin_eq hq]
    rfl

theorem holds_of_cost_ne_top {p : Potential ℝ} {comparator : Comparator} {x : List ℝ}
    (hk : p.kind = .hardRule comparator) (hx : x.length = p.block.arity) (h : p.cost x ≠ ⊤) :
    comparator.Holds (Vector.dot p.block.coefficients x - p.block.constant) := by
  by_contra broken
  rw [cost_eq_profile hx, hk, Kind.profile] at h
  exact h (if_neg broken)

/-- The cost is a ridge: along the coefficients it has the slopes of its profile, and across them
it is flat. -/
theorem isSubgradient_of_isSlope {p : Potential ℝ} {x : List ℝ} {g : ℝ}
    (hx : x.length = p.block.arity)
    (slope : IsSlope (p.kind.profile p.block.weight)
      (Vector.dot p.block.coefficients x - p.block.constant) g) :
    IsSubgradient p.cost x (Vector.scale p.block.coefficients g) := by
  obtain ⟨attained, below⟩ := slope
  refine ⟨by rw [Vector.length_scale, hx, Block.arity], ?_, fun q hq => ?_⟩
  · rw [cost_eq_profile hx]
    exact attained
  rw [cost_eq_profile hx, cost_eq_profile (hq.trans hx), Block.dot_scale_sub hx (hq.trans hx)]
  exact below _

end Potential

end RuleConsensus
