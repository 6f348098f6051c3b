import Mathlib.Tactic.SplitIfs
import RuleConsensus.Term.Potential

set_option autoImplicit false
set_option relaxedAutoImplicit false

namespace RuleConsensus

section Except

variable {ε β γ : Type}

theorem bind_eq_ok {r : Except ε β} {f : β → Except ε γ} {c : γ} :
    (r >>= f) = .ok c ↔ ∃ b, r = .ok b ∧ f b = .ok c := by
  cases r with
  | error e => simp [bind, Except.bind]
  | ok b => simp [bind, Except.bind]

theorem bind_eq_error {r : Except ε β} {f : β → Except ε γ} {e : ε} :
    (r >>= f) = .error e ↔ r = .error e ∨ ∃ b, r = .ok b ∧ f b = .error e := by
  cases r with
  | error e' => simp [bind, Except.bind]
  | ok b => simp [bind, Except.bind]

theorem bind_unit_eq_ok {r : Except ε Unit} {f : Unit → Except ε γ} {c : γ} :
    (r >>= f) = .ok c ↔ r = .ok () ∧ f () = .ok c := by
  rw [bind_eq_ok]
  constructor
  · rintro ⟨⟨⟩, h⟩
    exact h
  · intro h
    exact ⟨(), h⟩

theorem pure_eq_ok {b c : β} : (pure b : Except ε β) = .ok c ↔ b = c := by
  simp [pure, Except.pure]

end Except

variable {α : Type}

open Failure (report)

theorem checkArity_eq_ok_iff {n : Nat} :
    (checkArity n : Except (TermError α) Unit) = .ok () ↔ n ≠ 0 := by
  unfold checkArity
  split_ifs <;> simp_all

theorem checkLength_eq_ok_iff {what : String} {m n : Nat} :
    (checkLength what m n : Except (TermError α) Unit) = .ok () ↔ m = n := by
  unfold checkLength
  split_ifs <;> simp_all

theorem checkIndices_eq_ok_iff {indices : List Nat} {n : Nat} :
    (checkIndices indices n : Except (TermError α) Unit) = .ok () ↔
      indices.length = n ∧ firstAlias? indices = none := by
  rw [checkIndices, bind_unit_eq_ok, checkLength_eq_ok_iff, eq_comm]
  cases firstAlias? indices <;> simp [pure_eq_ok, throw, throwThe, MonadExceptOf.throw]

variable [Scalar α]

def Vector.Finite (x : List α) : Prop := ∀ a ∈ x, Scalar.isFinite a = true

instance (x : List α) : Decidable (Vector.Finite x) := List.decidableBAll _ x

theorem Vector.finite_iff {x : List α} : Vector.Finite x ↔ Vector.firstNonFinite? x = none :=
  Vector.firstNonFinite?_eq_none_iff.symm

theorem checkStepSize_eq_ok_iff {rho : α} :
    checkStepSize rho = .ok () ↔ Scalar.isFinite rho = true ∧ ¬rho ≤ 0 := by
  unfold checkStepSize
  cases Scalar.isFinite rho <;> by_cases h : rho ≤ 0 <;> simp [h]

theorem checkWeight_eq_ok_iff {w : α} :
    checkWeight w = .ok () ↔ Scalar.isNaN w = false ∧ ¬w < 0 := by
  unfold checkWeight
  cases Scalar.isNaN w <;> by_cases h : w < 0 <;> simp [h]

theorem checkSoftWeight_eq_ok_iff {w : α} :
    checkSoftWeight w = .ok () ↔
      (Scalar.isNaN w = false ∧ ¬w < 0) ∧ Scalar.isFinite w = true := by
  rw [checkSoftWeight, bind_unit_eq_ok, checkWeight_eq_ok_iff]
  cases Scalar.isFinite w <;> simp [pure_eq_ok, throw, throwThe, MonadExceptOf.throw]

theorem checkCoefficients_eq_ok_iff {c : List α} :
    checkCoefficients c = .ok () ↔ Vector.Finite c := by
  rw [Vector.finite_iff, checkCoefficients]
  cases Vector.firstNonFinite? c <;> simp

theorem checkConstant_eq_ok_iff {k : α} :
    checkConstant k = .ok () ↔ Scalar.isFinite k = true := by
  unfold checkConstant
  cases Scalar.isFinite k <;> simp

theorem checkLocalVector_eq_ok_iff {what : String} {v : List α} {n : Nat} :
    checkLocalVector what v n = .ok () ↔ v.length = n ∧ Vector.Finite v := by
  rw [checkLocalVector, bind_unit_eq_ok, checkLength_eq_ok_iff, Vector.finite_iff, eq_comm]
  cases Vector.firstNonFinite? v <;> simp [pure_eq_ok, throw, throwThe, MonadExceptOf.throw]

theorem checkSolution_eq_ok_iff {termId : Nat} {x : List α} :
    checkSolution termId x = .ok () ↔ Vector.Finite x := by
  rw [Vector.finite_iff, checkSolution]
  cases Vector.firstNonFinite? x <;> simp

theorem Block.build_eq_ok_iff {termId : Nat} {c : List α} {k w rho : α} {indices : List Nat}
    {z : List α} {b : Block α} :
    Block.build termId c k w rho indices z = .ok b ↔
      (c.length ≠ 0 ∧ Vector.Finite c ∧ Scalar.isFinite k = true) ∧
      (Scalar.isNaN w = false ∧ ¬w < 0) ∧ (Scalar.isFinite rho = true ∧ ¬rho ≤ 0) ∧
      (indices.length = c.length ∧ firstAlias? indices = none) ∧
      (z.length = c.length ∧ Vector.Finite z) ∧
      ⟨termId, c, k, w, rho, indices, z, Vector.zeros c.length, z⟩ = b := by
  simp only [Block.build, bind_unit_eq_ok, pure_eq_ok, checkArity_eq_ok_iff,
    checkCoefficients_eq_ok_iff, checkConstant_eq_ok_iff, checkWeight_eq_ok_iff,
    checkStepSize_eq_ok_iff, checkIndices_eq_ok_iff, checkLocalVector_eq_ok_iff, and_assoc]

theorem Block.length_candidate {b : Block α} (hy : b.y.length = b.arity)
    (hz : b.z.length = b.arity) : b.candidate.length = b.arity := by
  rw [candidate, Vector.length_sub, Vector.length_divide, hy, hz, Nat.min_self]

theorem SquaredHinge.check_eq_ok_iff {b : Block α} :
    SquaredHinge.check b = .ok () ↔
      ((Scalar.isNaN b.weight = false ∧ ¬b.weight < 0) ∧ Scalar.isFinite b.weight = true) ∧
      Scalar.isFinite (Scalar.two * b.weight * Vector.dot b.coefficients b.coefficients) = true ∧
      Scalar.isFinite (Scalar.two * b.weight * Scalar.abs b.constant *
        Vector.maxAbs b.coefficients) = true := by
  rw [SquaredHinge.check, bind_unit_eq_ok, checkSoftWeight_eq_ok_iff, checkSquaredScale]
  simp

theorem LinearHinge.check_eq_ok_iff {b : Block α} :
    LinearHinge.check b = .ok () ↔
      ((Scalar.isNaN b.weight = false ∧ ¬b.weight < 0) ∧ Scalar.isFinite b.weight = true) ∧
      Scalar.isFinite (b.weight / b.stepSize * Vector.maxAbs b.coefficients) = true := by
  rw [LinearHinge.check, bind_unit_eq_ok, checkSoftWeight_eq_ok_iff, checkLinearScale]
  simp

theorem HardRule.check_eq_ok_iff {b : Block α} {comparator : Comparator} :
    HardRule.check b comparator = .ok () ↔
      (b.coefficients.all (· == 0) = true →
        HardRule.satisfied comparator (-b.constant) = true) := by
  unfold HardRule.check
  cases b.coefficients.all (· == 0) <;> cases HardRule.satisfied comparator (-b.constant) <;> simp

namespace Potential

theorem squaredHinge_eq_ok_iff {b : Block α} {fallback : Fallback α} {p : Potential α} :
    (squaredHinge b fallback).value = .ok p ↔
      SquaredHinge.check b = .ok () ∧ ⟨b, .squaredHinge fallback⟩ = p := by
  unfold squaredHinge
  cases SquaredHinge.check b <;> simp [Logged.quiet]

theorem linearHinge_eq_ok_iff {b : Block α} {p : Potential α} :
    (linearHinge b).value = .ok p ↔ LinearHinge.check b = .ok () ∧ ⟨b, .linearHinge⟩ = p := by
  unfold linearHinge
  cases LinearHinge.check b <;> simp [Logged.quiet]

theorem hardRule_eq_ok_iff {b : Block α} {comparator : Comparator} {p : Potential α} :
    (hardRule b comparator).value = .ok p ↔
      HardRule.check b comparator = .ok () ∧ ⟨b, .hardRule comparator⟩ = p := by
  unfold hardRule
  cases HardRule.check b comparator <;> simp [Logged.quiet]

end Potential

theorem asObjectiveFailure_eq_ok_iff {β : Type} {r : Except (TermError α) β} {v : β} :
    asObjectiveFailure r = .ok v ↔ r = .ok v := by
  cases r <;> simp [asObjectiveFailure]

theorem Landscape.length_of_gradient {l : Landscape α} {b : Block α} {x g : List α}
    (reported : (l.objective b).gradient x = .ok g) : x.length = b.arity := by
  have augmented : l.augmentedGradient b x = .ok g := asObjectiveFailure_eq_ok_iff.mp reported
  obtain ⟨_, _, rest⟩ := bind_eq_ok.mp augmented
  obtain ⟨_, penalty, _⟩ := bind_eq_ok.mp rest
  obtain ⟨checked, _⟩ := bind_unit_eq_ok.mp penalty
  exact (checkLength_eq_ok_iff.mp checked).symm

private theorem checked_eq_ok_iff {found : Except (Failure (TermError α)) (List α)} {termId : Nat}
    {x : List α} :
    (do let y ← found; report (checkSolution termId y); pure y) = .ok x ↔
      found = .ok x ∧ Vector.Finite x := by
  simp only [bind_eq_ok, pure_eq_ok, Failure.report_eq_ok_iff]
  constructor
  · rintro ⟨y, hy, ⟨⟩, hf, rfl⟩
    exact ⟨hy, checkSolution_eq_ok_iff.mp hf⟩
  · rintro ⟨hx, hf⟩
    exact ⟨x, hx, (), checkSolution_eq_ok_iff.mpr hf, rfl⟩

theorem SquaredHinge.solveByFallback_eq_ok_iff {b : Block α} {fallback : Fallback α}
    {v x : List α} :
    (solveByFallback b fallback v).value = .ok x ↔
      (fallback.minimize ((landscape b).objective b) v).value = .ok x := by
  simp only [solveByFallback, Logged.value_bind]
  cases (fallback.minimize ((landscape b).objective b) v).value with
  | ok y => simp
  | error e => cases e <;> simp

theorem SquaredHinge.value_solve (b : Block α) (fallback : Fallback α) :
    (SquaredHinge.solve b fallback).value = (do
      let y ← (if SquaredHinge.inactive b b.candidate then .ok b.candidate
        else (SquaredHinge.solveActive b fallback b.candidate).value)
      report (checkSolution b.termId y)
      pure y) := by
  unfold SquaredHinge.solve
  by_cases h : SquaredHinge.inactive b b.candidate = true
  · simp only [if_pos h]
    rfl
  · simp only [if_neg h]
    rfl

/-- A squared hinge ends with a finite primal: the candidate where the hinge has no say, and
otherwise what the active hinge finds. -/
theorem SquaredHinge.solve_eq_ok_iff {b : Block α} {fallback : Fallback α} {x : List α} :
    (SquaredHinge.solve b fallback).value = .ok x ↔
      (if SquaredHinge.inactive b b.candidate then x = b.candidate
        else (SquaredHinge.solveActive b fallback b.candidate).value = .ok x) ∧
      Vector.Finite x := by
  rw [value_solve, checked_eq_ok_iff]
  split_ifs
  · rw [Except.ok.injEq, eq_comm]
  · rfl

theorem SquaredHinge.solveActive_of_wide {b : Block α} (wide : 3 ≤ b.arity)
    (fallback : Fallback α) (v : List α) :
    (solveActive b fallback v).value = (solveByFallback b fallback v).value := by
  unfold solveActive
  split
  case h_1 c0 v0 one =>
    rw [Block.arity, one] at wide
    exact absurd wide (by simp)
  case h_2 c0 c1 v0 v1 two =>
    rw [Block.arity, two] at wide
    exact absurd wide (by simp)
  case h_3 => rfl

theorem SquaredHinge.solve_of_refused {b : Block α} {fallback : Fallback α}
    {e : Failure (MinimizeError α)} (wide : 3 ≤ b.arity)
    (active : inactive b b.candidate = false)
    (refused : (fallback.minimize ((landscape b).objective b) b.candidate).value = .error e) :
    (solve b fallback).value = .error (e.map .fallback) := by
  have failed : (solveActive b fallback b.candidate).value = .error (e.map .fallback) := by
    rw [solveActive_of_wide wide, solveByFallback, Logged.value_bind, refused]
    cases e <;> rfl
  rw [value_solve, active, if_neg Bool.false_ne_true, failed]
  rfl

theorem LinearHinge.solve_eq_ok_iff {b : Block α} {x : List α} :
    (LinearHinge.solve b).value = .ok x ↔
      LinearHinge.minimizer b b.candidate (LinearHinge.regime b b.candidate) = x ∧
        Vector.Finite x := by
  have hs : (LinearHinge.solve b).value =
      (do let y ← .ok (LinearHinge.minimizer b b.candidate (LinearHinge.regime b b.candidate))
          report (checkSolution b.termId y)
          pure y) := rfl
  rw [hs, checked_eq_ok_iff, Except.ok.injEq]

namespace HardRule

/-- Where the step of a hard rule ends: the candidate if nothing is to be projected, and
otherwise its projection. -/
def projected (b : Block α) (comparator : Comparator) : List α :=
  let v := b.candidate
  let norm := Vector.dot b.coefficients b.coefficients
  let margin := Vector.dot b.coefficients v - b.constant
  if inside comparator margin || norm == 0 then v
  else Vector.sub v (Vector.scale b.coefficients (margin / norm))

theorem solve_eq_ok (b : Block α) (comparator : Comparator) :
    (solve b comparator).value = .ok (projected b comparator) := by
  unfold solve projected
  dsimp only
  split_ifs <;> rfl

end HardRule

end RuleConsensus
