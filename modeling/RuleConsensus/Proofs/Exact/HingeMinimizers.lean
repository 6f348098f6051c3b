import RuleConsensus.Proofs.Exact.Nonexpansive
import RuleConsensus.Term.Fallback

set_option autoImplicit false
set_option relaxedAutoImplicit false

namespace RuleConsensus

namespace SquaredHinge

variable {b : Block ℝ}

theorem constant_lt_of_active (sound : b.Sound) (hz : b.z.length = b.arity)
    (above : b.constant < Vector.dot b.coefficients b.candidate) :
    b.constant < Vector.dot b.coefficients (b.retreat (way b)) := by
  have active : Active b := (sub_pos.mpr above).le
  have curved := curvature_pos sound
  rw [curvature_eq] at curved
  rw [← sub_pos, sound.margin_retreat hz, way_of_active active, margin_active curved]
  exact div_pos (mul_pos sound.stepSize_pos (sub_pos.mpr above)) curved

end SquaredHinge

namespace LinearHinge

variable {b : Block ℝ}

theorem constant_le_of_sloping (sound : b.Sound) (hz : b.z.length = b.arity)
    (sloping : regime b b.candidate = .sloping) :
    b.constant ≤ Vector.dot b.coefficients (b.retreat (b.weight / b.stepSize)) := by
  rw [← sub_nonneg, sound.margin_retreat hz]
  obtain ⟨taken, _⟩ | ⟨_, reached⟩ | ⟨taken, _⟩ := regime_cases sound hz rfl rfl
  · exact nomatch sloping.symm.trans taken
  · exact reached
  · exact nomatch sloping.symm.trans taken

theorem square_pos_of_kink (sound : b.Sound) (hz : b.z.length = b.arity)
    (kink : regime b b.candidate = .kink) :
    0 < Vector.dot b.coefficients b.coefficients := by
  obtain ⟨taken, _⟩ | ⟨taken, _⟩ | ⟨_, above, missed⟩ := regime_cases sound hz rfl rfl
  · exact nomatch kink.symm.trans taken
  · exact nomatch kink.symm.trans taken
  · exact RuleConsensus.square_pos_of_kink (Vector.dot_self_nonneg _) above missed

theorem dot_eq_of_kink (sound : b.Sound) (hz : b.z.length = b.arity)
    (kink : regime b b.candidate = .kink) :
    Vector.dot b.coefficients (b.retreat (way b .kink)) = b.constant := by
  have square := (square_pos_of_kink sound hz kink).ne'
  rw [← sub_eq_zero, sound.margin_retreat hz, way, div_mul_cancel₀ _ square, sub_self]

end LinearHinge

namespace Potential

variable {p q : Potential ℝ}

theorem minimizes_of_isSlope (hinge : ∀ comparator, p.kind ≠ .hardRule comparator)
    (sound : p.block.Sound) (hz : p.block.z.length = p.block.arity) {t : ℝ}
    (slope : IsSlope (p.kind.profile p.block.weight)
      (Vector.dot p.block.coefficients (p.block.retreat t) - p.block.constant)
      (p.block.stepSize * t)) : p.Minimizes (p.block.retreat t) :=
  (balances_of_isSlope sound hz slope).minimizes hinge sound.stepSize_pos
    (sound.length_candidate hz)

/-- A squared hinge without a say at its candidate, or over one or two variables, solves whatever
its fallback does, and divides by nothing less than its step size. -/
theorem solve_squaredHinge_minimizes {fallback : Fallback ℝ} (constructed : p.Constructed)
    (kind : p.kind = .squaredHinge fallback) (state : p.HasState q)
    (closed : q.block.weight = 0 ∨
      Vector.dot q.block.coefficients q.block.candidate ≤ q.block.constant ∨ q.block.arity ≤ 2) :
    (0 < q.block.stepSize ∧ ∀ c0 c1,
        q.block.stepSize ≤ SquaredHinge.firstPivot q.block c0 ∧
        q.block.stepSize ≤ SquaredHinge.secondPivot q.block c0 c1) ∧
      ∃ x, q.solve.value = .done (q.withPrimal x) ∧ q.Minimizes x ∧
        (q.block.weight = 0 ∨
          Vector.dot q.block.coefficients q.block.candidate ≤ q.block.constant →
            x = q.block.candidate) ∧
        (q.block.weight ≠ 0 →
          q.block.constant < Vector.dot q.block.coefficients q.block.candidate →
            x = Vector.sub q.block.candidate (Vector.scale q.block.coefficients
              (2 * q.block.weight *
                (Vector.dot q.block.coefficients q.block.candidate - q.block.constant) /
                (q.block.stepSize + 2 * q.block.weight *
                  Vector.dot q.block.coefficients q.block.coefficients))) ∧
            q.block.constant < Vector.dot q.block.coefficients x) := by
  have sound := state.sound constructed
  have hz := state.length_z
  have same : q.kind = .squaredHinge fallback := state.sameRule.kind_eq.trans kind
  have hinge : ∀ comparator, q.kind ≠ .hardRule comparator := by simp [same]
  have slope : IsSlope (q.kind.profile q.block.weight)
      (Vector.dot q.block.coefficients (q.block.retreat (SquaredHinge.way q.block)) -
        q.block.constant) (q.block.stepSize * SquaredHinge.way q.block) := by
    rw [same]
    exact SquaredHinge.isSlope_way sound hz fallback
  have found : q.solution.value = .ok (q.block.retreat (SquaredHinge.way q.block)) := by
    rw [solution, same]
    refine SquaredHinge.solve_eq sound hz ?_
    intro say wide
    -- A hinge with a say is one of those with a closed form, so there is no such block.
    have neither := SquaredHinge.inactive_eq_false_iff.mp say
    have few : q.block.arity ≤ 2 := (or_assoc.mpr closed).resolve_left neither
    omega
  refine ⟨⟨sound.stepSize_pos, fun c0 c1 => ⟨?_, ?_⟩⟩, _, solve_of_found found,
    minimizes_of_isSlope hinge sound hz slope, ?_, ?_⟩
  · exact SquaredHinge.stepSize_le_firstPivot sound.weight_nonneg c0
  · exact SquaredHinge.stepSize_le_secondPivot sound.weight_nonneg sound.stepSize_pos c0 c1
  · intro idle
    rw [SquaredHinge.way_of_idle idle, sound.retreat_zero hz]
  · intro _ above
    refine ⟨?_, SquaredHinge.constant_lt_of_active sound hz above⟩
    rw [SquaredHinge.way_of_active (sub_pos.mpr above).le]
    rfl

theorem fence_candidate (kind : Kind ℝ) (z0 z1 : ℝ) :
    (withConsensus ⟨fence.block, kind⟩ [z0, z1]).block.candidate = [z0, z1] := by
  simp [withConsensus, fence, Block.candidate, Vector.sub, Vector.divide]

noncomputable def softFence : Potential ℝ := ⟨fence.block, .squaredHinge .staying⟩

/-- From three and two, the soft fence shrinks an excess of four to four fifths. -/
theorem solve_squaredHinge_minimizes_softFence :
    softFence.HasState (softFence.withConsensus [3, 2]) ∧
      (softFence.withConsensus [3, 2]).solve.value =
        .done ((softFence.withConsensus [3, 2]).withPrimal [7 / 5, 2 / 5]) ∧
      (softFence.withConsensus [3, 2]).Minimizes [7 / 5, 2 / 5] := by
  have state : softFence.HasState (softFence.withConsensus [3, 2]) := ⟨⟨_, _, _, rfl⟩, rfl, rfl⟩
  have candidate : (softFence.withConsensus [3, 2]).block.candidate = [3, 2] :=
    fence_candidate _ 3 2
  have above : (softFence.withConsensus [3, 2]).block.constant <
      Vector.dot (softFence.withConsensus [3, 2]).block.coefficients
        (softFence.withConsensus [3, 2]).block.candidate := by
    rw [candidate]
    norm_num [softFence, withConsensus, fence, Vector.dot_eq_sum]
  obtain ⟨_, x, solved, least, _, active⟩ := solve_squaredHinge_minimizes
    (constructed_squaredHinge fence_block_constructed .staying) rfl state (.inr (.inr le_rfl))
  obtain ⟨hx, _⟩ := active one_ne_zero above
  have reached : x = [7 / 5, 2 / 5] := by
    rw [hx, candidate]
    norm_num [softFence, withConsensus, fence, Vector.dot_eq_sum, Vector.scale, Vector.sub]
  rw [reached] at solved least
  exact ⟨state, solved, least⟩

/-- A linear hinge solves whatever its regime is, and divides by the square of its coefficients
only where that is positive. -/
theorem solve_linearHinge_minimizes (constructed : p.Constructed) (kind : p.kind = .linearHinge)
    (state : p.HasState q) :
    0 < q.block.stepSize ∧
      ∃ x, q.solve.value = .done (q.withPrimal x) ∧ q.Minimizes x ∧
        (LinearHinge.regime q.block q.block.candidate = .inactive → x = q.block.candidate) ∧
        (LinearHinge.regime q.block q.block.candidate = .sloping →
          x = Vector.sub q.block.candidate
            (Vector.scale q.block.coefficients (q.block.weight / q.block.stepSize)) ∧
          q.block.constant ≤ Vector.dot q.block.coefficients x) ∧
        (LinearHinge.regime q.block q.block.candidate = .kink →
          0 < Vector.dot q.block.coefficients q.block.coefficients ∧
          x = Vector.sub q.block.candidate (Vector.scale q.block.coefficients
            ((Vector.dot q.block.coefficients q.block.candidate - q.block.constant) /
              Vector.dot q.block.coefficients q.block.coefficients)) ∧
          Vector.dot q.block.coefficients x = q.block.constant) := by
  have sound := state.sound constructed
  have hz := state.length_z
  have same : q.kind = .linearHinge := state.sameRule.kind_eq.trans kind
  have hinge : ∀ comparator, q.kind ≠ .hardRule comparator := by simp [same]
  have found : q.solution.value = .ok (q.block.retreat
      (LinearHinge.way q.block (LinearHinge.regime q.block q.block.candidate))) := by
    rw [solution, same]
    exact LinearHinge.solve_eq sound hz
  have slope := LinearHinge.isSlope_way sound hz
  rw [← same] at slope
  refine ⟨sound.stepSize_pos, _, solve_of_found found, minimizes_of_isSlope hinge sound hz slope,
    ?_, ?_, ?_⟩
  · intro inactive
    rw [inactive]
    exact sound.retreat_zero hz
  · intro sloping
    rw [sloping]
    exact ⟨rfl, LinearHinge.constant_le_of_sloping sound hz sloping⟩
  · intro kink
    rw [kink]
    exact ⟨LinearHinge.square_pos_of_kink sound hz kink, rfl,
      LinearHinge.dot_eq_of_kink sound hz kink⟩

noncomputable def slopedFence : Potential ℝ := ⟨fence.block, .linearHinge⟩

/-- From one and one, a shift would pass the kink. -/
theorem solve_linearHinge_minimizes_slopedFence :
    slopedFence.HasState (slopedFence.withConsensus [1, 1]) ∧
      (slopedFence.withConsensus [1, 1]).solve.value =
        .done ((slopedFence.withConsensus [1, 1]).withPrimal [1 / 2, 1 / 2]) ∧
      (slopedFence.withConsensus [1, 1]).Minimizes [1 / 2, 1 / 2] := by
  have state : slopedFence.HasState (slopedFence.withConsensus [1, 1]) :=
    ⟨⟨_, _, _, rfl⟩, rfl, rfl⟩
  have candidate : (slopedFence.withConsensus [1, 1]).block.candidate = [1, 1] :=
    fence_candidate _ 1 1
  have kink : LinearHinge.regime (slopedFence.withConsensus [1, 1]).block
      (slopedFence.withConsensus [1, 1]).block.candidate = .kink := by
    rw [candidate]
    norm_num [LinearHinge.regime, LinearHinge.shifted, slopedFence, withConsensus, fence,
      Vector.dot_eq_sum, Vector.scale, Vector.sub]
  obtain ⟨_, x, solved, least, _, _, projected⟩ := solve_linearHinge_minimizes
    (constructed_linearHinge fence_block_constructed) rfl state
  obtain ⟨_, hx, _⟩ := projected kink
  have reached : x = [1 / 2, 1 / 2] := by
    rw [hx, candidate]
    norm_num [slopedFence, withConsensus, fence, Vector.dot_eq_sum, Vector.scale, Vector.sub]
  rw [reached] at solved least
  exact ⟨state, solved, least⟩

end Potential

end RuleConsensus
