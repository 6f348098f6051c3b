import RuleConsensus.Proofs.Exact.HingeMinimizers

set_option autoImplicit false
set_option relaxedAutoImplicit false

namespace RuleConsensus

def Block.withWeight (b : Block ℝ) (w : ℝ) : Block ℝ := { b with weight := w }

noncomputable def Block.violation (b : Block ℝ) : ℝ :=
  max (Vector.dot b.coefficients b.x - b.constant) 0

variable {b : Block ℝ}

theorem Block.Sound.withWeight (sound : b.Sound) {w : ℝ} (nonneg : 0 ≤ w) :
    (b.withWeight w).Sound :=
  { sound with weight_nonneg := nonneg }

theorem Block.Sound.taken_nonneg (sound : b.Sound) :
    0 ≤ b.weight / b.stepSize * Vector.dot b.coefficients b.coefficients :=
  mul_nonneg (div_nonneg sound.weight_nonneg sound.stepSize_pos.le) (Vector.dot_self_nonneg _)

namespace LinearHinge

theorem regime_of_held {v : List ℝ} (held : Vector.dot b.coefficients v ≤ b.constant) :
    regime b v = .inactive := by
  refine if_pos ?_
  rw [Bool.or_eq_true, decide_eq_true_eq]
  exact .inr held

/-- How far a linear hinge moves its candidate back: not at all where the rule holds, up to the kink
where the weight can take the whole margin away, and by the shift where it cannot. -/
theorem way_cases (sound : b.Sound) (hz : b.z.length = b.arity) {m a : ℝ}
    (hm : Vector.dot b.coefficients b.candidate - b.constant = m)
    (ha : Vector.dot b.coefficients b.coefficients = a) :
    (m ≤ 0 ∧ way b (regime b b.candidate) = 0) ∨
      (0 < m ∧ m ≤ b.weight / b.stepSize * a ∧ 0 < a ∧ way b (regime b b.candidate) = m / a) ∨
      (0 < m ∧ b.weight / b.stepSize * a < m ∧
        way b (regime b b.candidate) = b.weight / b.stepSize) := by
  by_cases held : m ≤ 0
  · rw [← hm, sub_nonpos] at held
    rw [← hm, sub_nonpos, regime_of_held held]
    exact .inl ⟨held, rfl⟩
  have broken : 0 < m := not_le.mp held
  have square : 0 ≤ a := ha ▸ Vector.dot_self_nonneg _
  obtain ⟨taken, idle⟩ | ⟨taken, reached⟩ | ⟨taken, _, missed⟩ := regime_cases sound hz hm ha
  · have weightless : b.weight = 0 := idle.resolve_right held
    rw [taken, weightless, zero_div, zero_mul]
    exact .inr (.inr ⟨broken, broken, rfl⟩)
  · rw [taken]
    rcases (sub_nonneg.mp reached).eq_or_lt with border | short
    · -- The shift ends on the kink, where the projection ends as well.
      have some : 0 < a := by
        refine lt_of_le_of_ne square ?_
        rintro rfl
        rw [mul_zero] at border
        exact broken.ne border
      exact .inr (.inl ⟨broken, border.ge, some, eq_div_of_mul_eq some.ne' border⟩)
    · exact .inr (.inr ⟨broken, short, rfl⟩)
  · have some := RuleConsensus.square_pos_of_kink square broken missed
    rw [taken, way, hm, ha]
    exact .inr (.inl ⟨broken, (sub_neg.mp missed).le, some, rfl⟩)

theorem violation_retreat (sound : b.Sound) (hz : b.z.length = b.arity) {m a : ℝ}
    (hm : Vector.dot b.coefficients b.candidate - b.constant = m)
    (ha : Vector.dot b.coefficients b.coefficients = a) :
    max (Vector.dot b.coefficients (b.retreat (way b (regime b b.candidate))) - b.constant) 0 =
      max (m - b.weight / b.stepSize * a) 0 := by
  have taken := sound.taken_nonneg
  rw [ha] at taken
  rw [sound.margin_retreat hz, hm, ha]
  obtain ⟨held, still⟩ | ⟨_, enough, some, projected⟩ | ⟨_, _, shifted⟩ := way_cases sound hz hm ha
  · rw [still, zero_mul, sub_zero, max_eq_right held, max_eq_right (by linarith)]
  · rw [projected, div_mul_cancel₀ m some.ne', sub_self, max_self,
      max_eq_right (sub_nonpos.mpr enough)]
  · rw [shifted]

theorem margin_of_short (sound : b.Sound) (hz : b.z.length = b.arity)
    (short : b.weight / b.stepSize * Vector.dot b.coefficients b.coefficients <
      Vector.dot b.coefficients b.candidate - b.constant) :
    Vector.dot b.coefficients (b.retreat (way b (regime b b.candidate))) - b.constant =
      Vector.dot b.coefficients b.candidate - b.constant -
        b.weight / b.stepSize * Vector.dot b.coefficients b.coefficients := by
  obtain ⟨held, _⟩ | ⟨_, enough, _⟩ | ⟨_, _, shifted⟩ := way_cases sound hz rfl rfl
  · exact absurd (sound.taken_nonneg.trans_lt short) (not_lt.mpr held)
  · exact absurd short (not_lt.mpr enough)
  · rw [shifted, sound.margin_retreat hz]

theorem retreat_eq_projected (sound : b.Sound) (hz : b.z.length = b.arity)
    (enough : Vector.dot b.coefficients b.candidate - b.constant ≤
      b.weight / b.stepSize * Vector.dot b.coefficients b.coefficients) :
    b.retreat (way b (regime b b.candidate)) = HardRule.projected b .inequality := by
  obtain ⟨held, still⟩ | ⟨broken, _, some, projected⟩ | ⟨_, short, _⟩ := way_cases sound hz rfl rfl
  · have holds : Comparator.inequality.Holds
        (Vector.dot b.coefficients b.candidate - b.constant) := held
    rw [still, sound.retreat_zero hz, HardRule.projected_of_holds holds]
  · have varied : ∃ c ∈ b.coefficients, c ≠ 0 := by
      by_contra flat
      push Not at flat
      exact some.ne' (Vector.dot_self_eq_zero_iff.mpr flat)
    have breaks : ¬Comparator.inequality.Holds
        (Vector.dot b.coefficients b.candidate - b.constant) := not_le.mpr broken
    rw [projected, HardRule.projected_of_not_holds varied breaks]
  · exact absurd enough (not_le.mpr short)

end LinearHinge

namespace Potential

def softened (b : Block ℝ) (w : ℝ) : Potential ℝ := ⟨b.withWeight w, .linearHinge⟩

def hardened (b : Block ℝ) (w : ℝ) : Potential ℝ := ⟨b.withWeight w, .hardRule .inequality⟩

theorem solve_softened (sound : b.Sound) (hz : b.z.length = b.arity) {w : ℝ} (nonneg : 0 ≤ w) :
    (softened b w).solve.value = .done ((softened b w).withPrimal
      ((b.withWeight w).retreat (LinearHinge.way (b.withWeight w)
        (LinearHinge.regime (b.withWeight w) b.candidate)))) :=
  solve_of_found (LinearHinge.solve_eq (sound.withWeight nonneg) hz)

theorem solve_hardened (b : Block ℝ) (w : ℝ) :
    (hardened b w).solve.value = .done ((hardened b w).withPrimal
      (HardRule.projected (b.withWeight w) .inequality)) :=
  solve_of_found (HardRule.solve_eq_ok _ _)

noncomputable def violationUnder (b : Block ℝ) (w : ℝ) : ℝ :=
  (softened b w).solve.value.state.block.violation

theorem violationUnder_eq (sound : b.Sound) (hz : b.z.length = b.arity) {w : ℝ}
    (nonneg : 0 ≤ w) :
    violationUnder b w = max (Vector.dot b.coefficients b.candidate - b.constant -
      w / b.stepSize * Vector.dot b.coefficients b.coefficients) 0 := by
  rw [violationUnder, solve_softened sound hz nonneg]
  exact LinearHinge.violation_retreat (sound.withWeight nonneg) hz rfl rfl

/-- A linear hinge and the hard inequality of the same data store the same primal where the rule
holds at the candidate, or where the weight can take the whole margin away. Elsewhere the hinge
breaks the rule by what is left of the margin. So the violation does not rise with the weight, and
it is gone exactly where both store the same primal. -/
theorem linearHinge_penalizes_exactly (sound : b.Sound) (hz : b.z.length = b.arity) :
    (∀ w, 0 ≤ w → ∃ x x',
      (softened b w).solve.value = .done ((softened b w).withPrimal x) ∧
      (hardened b w).solve.value = .done ((hardened b w).withPrimal x') ∧
      (Vector.dot b.coefficients b.candidate ≤ b.constant ∨
        Vector.dot b.coefficients b.candidate - b.constant ≤
          w / b.stepSize * Vector.dot b.coefficients b.coefficients → x = x') ∧
      (b.constant < Vector.dot b.coefficients b.candidate →
        w / b.stepSize * Vector.dot b.coefficients b.coefficients <
            Vector.dot b.coefficients b.candidate - b.constant →
          Vector.dot b.coefficients x - b.constant =
            Vector.dot b.coefficients b.candidate - b.constant -
              w / b.stepSize * Vector.dot b.coefficients b.coefficients ∧
          0 < Vector.dot b.coefficients x - b.constant)) ∧
    (∀ w w', 0 ≤ w → w ≤ w' → violationUnder b w' ≤ violationUnder b w) ∧
    ∀ w, 0 ≤ w → (violationUnder b w = 0 ↔
      Vector.dot b.coefficients b.candidate ≤ b.constant ∨
        Vector.dot b.coefficients b.candidate - b.constant ≤
          w / b.stepSize * Vector.dot b.coefficients b.coefficients) := by
  have enough_iff (w : ℝ) (nonneg : 0 ≤ w) :
      (Vector.dot b.coefficients b.candidate ≤ b.constant ∨
        Vector.dot b.coefficients b.candidate - b.constant ≤
          w / b.stepSize * Vector.dot b.coefficients b.coefficients) ↔
        Vector.dot b.coefficients b.candidate - b.constant ≤
          w / b.stepSize * Vector.dot b.coefficients b.coefficients :=
    or_iff_right_of_imp fun held =>
      (sub_nonpos.mpr held).trans (sound.withWeight nonneg).taken_nonneg
  refine ⟨fun w nonneg => ⟨_, _, solve_softened sound hz nonneg, solve_hardened b w, ?_, ?_⟩,
    fun w w' nonneg more => ?_, fun w nonneg => ?_⟩
  · rw [enough_iff w nonneg]
    exact LinearHinge.retreat_eq_projected (sound.withWeight nonneg) hz
  · intro _ short
    have left := LinearHinge.margin_of_short (sound.withWeight nonneg) hz short
    exact ⟨left, (sub_pos.mpr short).trans_eq left.symm⟩
  · have square := Vector.dot_self_nonneg b.coefficients
    have grown : w / b.stepSize ≤ w' / b.stepSize :=
      div_le_div_of_nonneg_right more sound.stepSize_pos.le
    rw [violationUnder_eq sound hz nonneg, violationUnder_eq sound hz (nonneg.trans more)]
    exact max_le_max_right 0 (sub_le_sub_left (mul_le_mul_of_nonneg_right grown square) _)
  · rw [enough_iff w nonneg, violationUnder_eq sound hz nonneg, max_eq_right_iff, sub_nonpos]

/-- The fence seen from one and one, where its margin is one. -/
noncomputable def nearFence : Block ℝ := (fence.withConsensus [1, 1]).block

/-- A weight of one half just takes the margin of the near fence away. Half of that weight leaves
half of the margin. -/
theorem linearHinge_penalizes_exactly_nearFence :
    nearFence.Sound ∧ nearFence.z.length = nearFence.arity ∧
      (∃ x, (softened nearFence (1 / 2)).solve.value =
          .done ((softened nearFence (1 / 2)).withPrimal x) ∧
        (hardened nearFence (1 / 2)).solve.value =
          .done ((hardened nearFence (1 / 2)).withPrimal x)) ∧
      (∃ x, (softened nearFence (1 / 4)).solve.value =
          .done ((softened nearFence (1 / 4)).withPrimal x) ∧
        Vector.dot nearFence.coefficients x - nearFence.constant = 1 / 2) ∧
      violationUnder nearFence (1 / 2) = 0 := by
  have constructed : Constructed ⟨fence.block, .linearHinge⟩ :=
    constructed_linearHinge fence_block_constructed
  have state : HasState ⟨fence.block, .linearHinge⟩ ⟨nearFence, .linearHinge⟩ :=
    ⟨⟨_, _, _, rfl⟩, rfl, rfl⟩
  have sound : (⟨nearFence, .linearHinge⟩ : Potential ℝ).block.Sound := state.sound constructed
  have candidate : nearFence.candidate = [1, 1] := fence_candidate _ 1 1
  have margin : Vector.dot nearFence.coefficients nearFence.candidate - nearFence.constant = 1 := by
    rw [candidate]
    norm_num [nearFence, fence, withConsensus, Vector.dot_eq_sum]
  have square : Vector.dot nearFence.coefficients nearFence.coefficients = 2 := by
    norm_num [nearFence, fence, withConsensus, Vector.dot_eq_sum]
  have unit : nearFence.stepSize = 1 := rfl
  have broken : nearFence.constant < Vector.dot nearFence.coefficients nearFence.candidate := by
    rw [← sub_pos, margin]
    exact one_pos
  obtain ⟨solves, _, gone⟩ := linearHinge_penalizes_exactly sound state.length_z
  rw [margin, square, unit] at solves gone
  obtain ⟨x, _, soft, hard, same, _⟩ := solves (1 / 2) one_half_pos.le
  obtain ⟨u, _, softer, _, _, left⟩ := solves (1 / 4) (by norm_num)
  obtain rfl := same (.inr (by norm_num))
  refine ⟨sound, state.length_z, ⟨x, soft, hard⟩, ⟨u, softer, ?_⟩,
    (gone (1 / 2) one_half_pos.le).mpr (.inr (by norm_num))⟩
  rw [(left broken (by norm_num)).1]
  norm_num

end Potential

end RuleConsensus
