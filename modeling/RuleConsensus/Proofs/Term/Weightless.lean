import RuleConsensus.Proofs.Binary.Squares
import RuleConsensus.Proofs.Term.WellFormed

/-!
A rule of weight zero has no say once it is built. The check of a squared hinge multiplies the
square of the length of its coefficients by the weight, and zero times infinity is no number.
-/

set_option autoImplicit false
set_option relaxedAutoImplicit false

namespace RuleConsensus

variable {α : Type}

namespace Potential

def withFallback (p : Potential α) (fallback : Fallback α) : Potential α :=
  { p with kind := .squaredHinge fallback }

def keptEvent (p : Potential α) : Event α :=
  match p.kind with
  | .squaredHinge _ => .squaredHingeInactive p.block.termId
  | .linearHinge => .linearHingeInactive p.block.termId
  | .hardRule _ => .candidateFeasible p.block.termId

variable {p q : Potential α}

theorem SameRule.isHinge (same : SameRule p q) (hinge : p.IsHinge) : q.IsHinge := by
  rw [IsHinge, same.kind_eq]
  exact hinge

theorem SameRule.keptEvent_eq (same : SameRule p q) : q.keptEvent = p.keptEvent := by
  obtain ⟨x, y, z, rfl⟩ := same
  rfl

end Potential

variable [Scalar α]

/-- The weight is a zero of either sign. -/
def Block.Weightless (b : Block α) : Prop := (b.weight == 0) = true

instance (b : Block α) : Decidable b.Weightless := instDecidableEqBool _ true

namespace Potential

variable {p q : Potential α} {fallback : Fallback α}

theorem SameRule.weightless (same : SameRule p q) (weightless : p.block.Weightless) :
    q.block.Weightless := by
  rw [Block.Weightless, same.weight_eq]
  exact weightless

theorem solution_of_weightless (hinge : p.IsHinge) (weightless : p.block.Weightless) :
    p.solution = ⟨do
      Failure.report (checkSolution p.block.termId p.block.candidate)
      pure p.block.candidate, [p.keptEvent]⟩ := by
  obtain ⟨b, kind⟩ := p
  cases kind with
  | squaredHinge fallback =>
    have inactive : SquaredHinge.inactive b b.candidate = true := by
      rw [SquaredHinge.inactive, weightless, Bool.true_or]
    change SquaredHinge.solve b fallback = _
    unfold SquaredHinge.solve
    simp only [if_pos inactive]
    rfl
  | linearHinge =>
    have inactive : LinearHinge.regime b b.candidate = .inactive := by
      rw [LinearHinge.regime, weightless, Bool.true_or, if_pos rfl]
    change LinearHinge.solve b = _
    unfold LinearHinge.solve
    simp only [inactive]
    rfl
  | hardRule comparator => exact absurd rfl (hinge comparator)

theorem solve_of_weightless (hinge : p.IsHinge) (weightless : p.block.Weightless)
    (finite : Vector.Finite p.block.candidate) :
    p.solve = ⟨.done (p.withPrimal p.block.candidate), [p.keptEvent]⟩ := by
  rw [solve, solution_of_weightless hinge weightless, checkSolution_eq_ok_iff.mpr finite]
  rfl

section Fallbacks

variable (kind : p.kind = .squaredHinge fallback) (weightless : p.block.Weightless)
  (other : Fallback α)

include kind weightless

theorem solve_withFallback :
    (p.withFallback other).solve.value = p.solve.value.map (·.withFallback other) := by
  have hinge : p.IsHinge := fun comparator rule => nomatch kind.symm.trans rule
  have hinge' : (p.withFallback other).IsHinge := fun comparator rule => nomatch rule
  have same : (p.withFallback other).solution.value = p.solution.value := by
    rw [solution_of_weightless hinge weightless, solution_of_weightless hinge' weightless]
    rfl
  obtain ⟨x, found, stored⟩ | ⟨e, refused, failed⟩ := p.solve_cases
  · rw [stored, solve_of_found (same.trans found)]
    rfl
  · rw [failed, solve_of_not_found (same.trans refused)]
    rfl

theorem apply_withFallback (operation : Operation α) :
    (p.withFallback other).apply operation = (p.apply operation).map (·.withFallback other) := by
  cases operation with
  | setConsensus v => rfl
  | setDual v => rfl
  | dualStep => rfl
  | solve => exact solve_withFallback kind weightless other
  | proximalStep v =>
    have taken : (p.withFallback other).setConsensus v =
        (p.setConsensus v).map (·.withFallback other) := rfl
    have same : SameRule p (p.setConsensus v).state := p.apply_sameRule (.setConsensus v)
    change ((p.withFallback other).proximalStep v).value =
      (p.proximalStep v).value.map (·.withFallback other)
    unfold proximalStep
    dsimp only
    rw [taken, Update.failure_map]
    cases (p.setConsensus v).failure with
    | some e => rfl
    | none => exact solve_withFallback (same.kind_eq.trans kind) (same.weightless weightless) other

theorem run_withFallback (operations : List (Operation α)) :
    (p.withFallback other).run operations = (p.run operations).withFallback other := by
  induction operations generalizing p with
  | nil => rfl
  | cons operation rest ih =>
    have same := p.apply_sameRule operation
    -- The operation has changed neither weight nor kind, so the rest starts as the run did.
    have next := ih (same.kind_eq.trans kind) (same.weightless weightless)
    change ((p.withFallback other).apply operation).state.run rest = _
    rw [apply_withFallback kind weightless other operation]
    exact next

end Fallbacks

end Potential

section Checks

open Binary

theorem Scalar.isFinite_larger {a b : α} (ha : Scalar.isFinite a = true)
    (hb : Scalar.isFinite b = true) : Scalar.isFinite (Scalar.larger a b) = true := by
  unfold Scalar.larger
  split_ifs
  · exact ha
  · exact ha
  · exact hb

theorem Vector.isFinite_maxAbs {c : List Float} (finite : Finite c) :
    Scalar.isFinite (maxAbs c) = true := by
  refine List.foldlRecOn (motive := fun m : Float => Scalar.isFinite m = true) c _ isFinite_zero ?_
  intro m before a ha
  exact Scalar.isFinite_larger before (value_abs (finite a ha)).1

variable {b : Block Float}

theorem LinearHinge.check_of_weightless (constructed : b.Constructed)
    (weightless : b.Weightless) : check b = .ok () := by
  obtain ⟨_, c, k, w, rho, _, _, built⟩ := constructed
  obtain ⟨⟨_, hc, _⟩, weight, ⟨hrho, positive⟩, _, _, rfl⟩ := Block.build_eq_ok_iff.mp built
  have none : Vanishes w := beq_zero_iff.mp weightless
  have shift : Vanishes (w / rho) := none.div hrho (value_pos hrho positive).ne'
  exact check_eq_ok_iff.mpr
    ⟨⟨weight, none.1⟩, (shift.mul_right (Vector.isFinite_maxAbs hc)).1⟩

/-- A squared hinge of weight zero is refused exactly if the square of the length of its coefficients
is not finite. -/
theorem SquaredHinge.check_of_weightless (constructed : b.Constructed)
    (weightless : b.Weightless) :
    check b = if (Vector.dot b.coefficients b.coefficients).isFinite then .ok ()
      else .error (.invalidWeight b.weight
        "Weight is too large: 2w·‖c‖² or 2w·|k|·|c| overflows.") := by
  obtain ⟨_, c, k, w, rho, _, _, built⟩ := constructed
  obtain ⟨⟨_, hc, hk⟩, weight, _, _, _, rfl⟩ := Block.build_eq_ok_iff.mp built
  have none : Vanishes w := beq_zero_iff.mp weightless
  have twice : Vanishes (Scalar.two * w) := none.mul_left (by decide)
  have soft : checkSoftWeight w = .ok () := checkSoftWeight_eq_ok_iff.mpr ⟨weight, none.1⟩
  have curvature : Scalar.isFinite (Scalar.two * w * Vector.dot c c) =
    (Vector.dot c c).isFinite := twice.isFinite_mul
  -- Here every factor is finite, unlike the square above.
  have forcing : Scalar.isFinite (Scalar.two * w * Scalar.abs k * Vector.maxAbs c) = true :=
    ((twice.mul_right (value_abs hk).1).mul_right (Vector.isFinite_maxAbs hc)).1
  change (checkSoftWeight w >>= fun _ => checkSquaredScale w c k) = _
  rw [soft]
  change (if _ && _ then _ else _) = _
  rw [curvature, forcing, Bool.and_true]

end Checks

namespace Potential

variable {b : Block Float}

/-- A rule of weight zero is accepted as a linear hinge, and as a squared hinge exactly if the square
of the length of its coefficients is finite; else its weight is called too large. Whatever operations
it has seen since, a solve from a finite candidate stores the candidate and records that the hinge is
inactive, and nothing else. The states that a squared hinge goes through are the same for all
fallbacks. -/
theorem weightless_hinges_inert (constructed : b.Constructed) (weightless : b.Weightless) :
    (linearHinge b).value = .ok ⟨b, .linearHinge⟩ ∧
    (∀ fallback, (squaredHinge b fallback).value =
      if (Vector.dot b.coefficients b.coefficients).isFinite then .ok ⟨b, .squaredHinge fallback⟩
      else .error (.invalidWeight b.weight
        "Weight is too large: 2w·‖c‖² or 2w·|k|·|c| overflows.")) ∧
    (∀ p : Potential Float, p.block = b → p.IsHinge → ∀ operations,
      Vector.Finite (p.run operations).block.candidate →
        (p.run operations).solve =
          ⟨.done ((p.run operations).withPrimal (p.run operations).block.candidate),
            [p.keptEvent]⟩) ∧
    ∀ fallback other operations, run ⟨b, .squaredHinge other⟩ operations =
      (run ⟨b, .squaredHinge fallback⟩ operations).withFallback other := by
  refine ⟨?_, fun fallback => ?_, ?_, fun fallback other operations => ?_⟩
  · exact linearHinge_eq_ok_iff.mpr ⟨LinearHinge.check_of_weightless constructed weightless, rfl⟩
  · rw [squaredHinge, SquaredHinge.check_of_weightless constructed weightless]
    split_ifs <;> rfl
  · rintro p rfl hinge operations finite
    have same := p.run_sameRule operations
    rw [← same.keptEvent_eq]
    exact solve_of_weightless (same.isHinge hinge) (same.weightless weightless) finite
  · exact run_withFallback (p := ⟨b, .squaredHinge fallback⟩) rfl weightless other operations

/-- A rule of weight zero that its consensus breaks, with a fallback that always gives up. -/
def mute : Potential Float :=
  ⟨⟨1, [1.0, 2.0, 2.0], 1.0, -0.0, 2.0, [0, 1, 2], [3.0, 1.0, 2.0], Vector.zeros 3,
    [3.0, 1.0, 2.0]⟩, .squaredHinge (.failing (.notConverged 3 none))⟩

theorem weightless_hinges_inert_mute :
    mute.block.Constructed ∧ mute.block.Weightless ∧
      (squaredHinge mute.block (.failing (.notConverged 3 none))).value = .ok mute ∧
      (mute.run [.setDual [2.0, -4.0, 0.0], .proximalStep [5.0]]).solve.value.failure = none ∧
      (mute.run [.setDual [2.0, -4.0, 0.0], .proximalStep [5.0]]).solve.value.state.block.x =
        [2.0, 3.0, 2.0] ∧
      (mute.run [.setDual [2.0, -4.0, 0.0], .proximalStep [5.0]]).solve.events =
        [.squaredHingeInactive 1] := by
  have constructed : mute.block.Constructed := constructed_block_of_checks (by decide)
  have weightless : mute.block.Weightless := by decide
  obtain ⟨_, accepted, inert, _⟩ := weightless_hinges_inert constructed weightless
  have hinge : mute.IsHinge := fun _ rule => nomatch rule
  have stored := inert mute rfl hinge [.setDual [2.0, -4.0, 0.0], .proximalStep [5.0]]
    (by decide)
  refine ⟨constructed, weightless, ?_, ?_, ?_, ?_⟩
  · rw [accepted, if_pos (by decide)]
    rfl
  · rw [stored, Update.failure_done]
  · rw [stored, Update.state_done]
    decide
  · rw [stored]
    rfl

/-- A rule of weight zero whose coefficient has an infinite square. -/
def towering : Block Float :=
  ⟨1, [1e200], 0.0, 0.0, 1.0, [0], [7.0], Vector.zeros 1, [7.0]⟩

/-- A block of weight zero that makes a linear hinge but no squared hinge. -/
theorem towering_refused :
    towering.Constructed ∧ towering.Weightless ∧
      (linearHinge towering).value = .ok ⟨towering, .linearHinge⟩ ∧
      ∀ fallback, (squaredHinge towering fallback).value = .error (.invalidWeight 0.0
        "Weight is too large: 2w·‖c‖² or 2w·|k|·|c| overflows.") := by
  have constructed : towering.Constructed := constructed_block_of_checks (by decide +kernel)
  have weightless : towering.Weightless := by decide
  refine ⟨constructed, weightless, ?_, fun fallback => ?_⟩
  · exact linearHinge_eq_ok_iff.mpr ⟨LinearHinge.check_of_weightless constructed weightless, rfl⟩
  · rw [squaredHinge, SquaredHinge.check_of_weightless constructed weightless,
      if_neg (by decide +kernel)]
    rfl

end Potential

end RuleConsensus
