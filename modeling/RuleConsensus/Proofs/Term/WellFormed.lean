import RuleConsensus.Grounding.Term
import RuleConsensus.Proofs.Binary.Order
import RuleConsensus.Proofs.Term.Indices
import RuleConsensus.Proofs.Term.Run
import RuleConsensus.Term.Fallback

/-!
What holds of a term at any time. The constructors check the data that never change; the vectors
are as long as the coefficients and, where a write checks them, finite, and every write keeps them
so. Nothing is used about the arithmetic that the solves are made of.
-/

set_option autoImplicit false
set_option relaxedAutoImplicit false

namespace RuleConsensus

variable {α : Type}

/-- A fallback that answers with points as long as the one it starts from, if it answers. -/
def Fallback.KeepsLength (fallback : Fallback α) : Prop :=
  ∀ f seed x, (fallback.minimize f seed).value = .ok x → x.length = seed.length

namespace Potential

def KeepsLength (p : Potential α) : Prop :=
  ∀ fallback, p.kind = .squaredHinge fallback → fallback.KeepsLength

def IsHinge (p : Potential α) : Prop := ∀ comparator, p.kind ≠ .hardRule comparator

theorem SameRule.keepsLength {p q : Potential α} (same : SameRule p q) (keeps : p.KeepsLength) :
    q.KeepsLength := by
  obtain ⟨_, _, _, rfl⟩ := same
  exact keeps

end Potential

variable [Scalar α]

section Lengths

variable {b : Block α}

private theorem length_moved {v : List α} (hv : v.length = b.arity) (a : α) :
    (Vector.sub v (Vector.scale b.coefficients a)).length = b.arity := by
  rw [Vector.length_sub, Vector.length_scale, hv]
  exact Nat.min_self _

/-- Where the hinge has a say, the primal fits, or it is the answer of the fallback of a term that is
not narrow. -/
private theorem length_or_answer {fallback : Fallback α} {v x : List α} (hv : v.length = b.arity)
    (found : (SquaredHinge.solveActive b fallback v).value = .ok x) :
    x.length = b.arity ∨ (b.arity ≠ 0 → 3 ≤ b.arity) ∧
      (fallback.minimize ((SquaredHinge.landscape b).objective b) v).value = .ok x := by
  unfold SquaredHinge.solveActive at found
  split at found
  case h_1 c0 v0 hc =>
    obtain rfl : SquaredHinge.solveOne b c0 v0 = x := Except.ok.inj found
    exact .inl hv
  case h_2 c0 c1 v0 v1 hc =>
    obtain rfl : SquaredHinge.solveTwo b c0 c1 v0 v1 = x := Except.ok.inj found
    exact .inl hv
  case h_3 notOne notTwo =>
    refine .inr ⟨fun some => ?_, SquaredHinge.solveByFallback_eq_ok_iff.mp found⟩
    by_contra narrow
    obtain one | two : b.arity = 1 ∨ b.arity = 2 := by omega
    · obtain ⟨c0, hc⟩ := List.length_eq_one_iff.mp one
      obtain ⟨v0, rfl⟩ := List.length_eq_one_iff.mp (hv.trans one)
      exact notOne c0 v0 hc rfl
    · obtain ⟨c0, c1, hc⟩ := List.length_eq_two.mp two
      obtain ⟨v0, v1, rfl⟩ := List.length_eq_two.mp (hv.trans two)
      exact notTwo c0 c1 v0 v1 hc rfl

theorem Potential.length_or_answer_of_solution {p : Potential α}
    (hy : p.block.y.length = p.block.arity) (hz : p.block.z.length = p.block.arity) {x : List α}
    (found : p.solution.value = .ok x) :
    x.length = p.block.arity ∨ ∃ fallback, p.kind = .squaredHinge fallback ∧
      (p.block.arity ≠ 0 → 3 ≤ p.block.arity) ∧
      SquaredHinge.inactive p.block p.block.candidate = false ∧
      (fallback.minimize p.objective p.block.candidate).value = .ok x := by
  obtain ⟨b, kind⟩ := p
  have hv := Block.length_candidate hy hz
  cases kind with
  | squaredHinge fallback =>
    have solved := (SquaredHinge.solve_eq_ok_iff.mp found).1
    split at solved
    case isTrue =>
      rw [solved]
      exact .inl hv
    case isFalse active =>
      obtain fits | ⟨wide, answered⟩ := length_or_answer hv solved
      · exact .inl fits
      · exact .inr ⟨fallback, rfl, wide, Bool.eq_false_of_not_eq_true active, answered⟩
  | linearHinge =>
    obtain ⟨rfl, _⟩ := LinearHinge.solve_eq_ok_iff.mp found
    refine .inl ?_
    cases LinearHinge.regime b b.candidate with
    | inactive => exact hv
    | sloping => exact length_moved hv _
    | kink => exact length_moved hv _
  | hardRule comparator =>
    obtain rfl := Except.ok.inj ((HardRule.solve_eq_ok b comparator).symm.trans found)
    simp only [HardRule.projected]
    split_ifs
    · exact .inl hv
    · exact .inl (length_moved hv _)

theorem Potential.length_of_solution {p : Potential α} (keeps : p.KeepsLength)
    (hy : p.block.y.length = p.block.arity) (hz : p.block.z.length = p.block.arity) {x : List α}
    (found : p.solution.value = .ok x) : x.length = p.block.arity := by
  obtain fits | ⟨fallback, kind, _, _, answered⟩ := length_or_answer_of_solution hy hz found
  · exact fits
  · exact (keeps fallback kind _ _ _ answered).trans (Block.length_candidate hy hz)

end Lengths

namespace Potential

/-- The local vectors have one entry for each variable; a consensus is finite, and so is the primal
of a hinge. -/
structure Fitting (p : Potential α) : Prop where
  length_x : p.block.x.length = p.block.arity
  length_y : p.block.y.length = p.block.arity
  length_z : p.block.z.length = p.block.arity
  finite_z : Vector.Finite p.block.z
  finite_x : p.IsHinge → Vector.Finite p.block.x

theorem finite_of_solution {p : Potential α} (hinge : p.IsHinge) {x : List α}
    (found : p.solution.value = .ok x) : Vector.Finite x := by
  obtain ⟨b, kind⟩ := p
  cases kind with
  | squaredHinge fallback => exact (SquaredHinge.solve_eq_ok_iff.mp found).2
  | linearHinge => exact (LinearHinge.solve_eq_ok_iff.mp found).2
  | hardRule comparator => exact absurd rfl (hinge comparator)

theorem Fitting.write {p q : Potential α} (keeps : p.KeepsLength) (fitting : p.Fitting)
    (write : Write p q) : q.Fitting := by
  obtain ⟨hx, hy, hz, finite_z, finite_x⟩ := fitting
  cases write with
  | consensus accepted => exact ⟨hx, hy, accepted.1, accepted.2, finite_x⟩
  | dual accepted => exact ⟨hx, accepted.1, hz, finite_z, finite_x⟩
  | dualStep stepped =>
    rw [dualStep_of_length_eq (hx.trans hz.symm) (hy.trans hz.symm)] at stepped
    obtain rfl := congrArg Update.state stepped
    refine ⟨hx, ?_, hz, finite_z, finite_x⟩
    change (List.zipWith _ _ _).length = p.block.arity
    rw [List.length_zipWith, Vector.length_sub, hx, hy, hz, Nat.min_self, Nat.min_self]
  | primal found =>
    exact ⟨length_of_solution keeps hy hz found, hy, hz, finite_z,
      fun hinge => finite_of_solution hinge found⟩

theorem Fitting.of_writes {p q : Potential α} (keeps : p.KeepsLength) (fitting : p.Fitting)
    (writes : Relation.ReflTransGen Write p q) : q.Fitting := by
  induction writes with
  | refl => exact fitting
  | tail before write ih => exact ih.write ((sameRule_of_writes before).keepsLength keeps) write

/-- What holds of a term at any time, besides that its vectors fit. -/
structure WellFormed (p : Potential α) : Prop extends Fitting p where
  arity_pos : 1 ≤ p.block.arity
  length_indices : p.block.indices.length = p.block.arity
  nodup_indices : p.block.indices.Nodup
  finite_stepSize : Scalar.isFinite p.block.stepSize = true
  stepSize_pos : 0 < p.block.stepSize
  weight_defined : Scalar.isNaN p.block.weight = false
  weight_nonneg : 0 ≤ p.block.weight
  finite_weight : p.IsHinge → Scalar.isFinite p.block.weight = true

theorem WellFormed.of_writes {p q : Potential α} (keeps : p.KeepsLength) (formed : p.WellFormed)
    (writes : Relation.ReflTransGen Write p q) : q.WellFormed := by
  have fitting := formed.toFitting.of_writes keeps writes
  obtain ⟨_, _, _, rfl⟩ := sameRule_of_writes writes
  exact { formed with toFitting := fitting }

theorem Constructed.finite_weight {p : Potential α} (constructed : p.Constructed)
    (hinge : p.IsHinge) : Scalar.isFinite p.block.weight = true := by
  cases constructed with
  | squaredHinge _ hp =>
    obtain ⟨accepted, rfl⟩ := squaredHinge_eq_ok_iff.mp hp
    exact (SquaredHinge.check_eq_ok_iff.mp accepted).1.2
  | linearHinge _ hp =>
    obtain ⟨accepted, rfl⟩ := linearHinge_eq_ok_iff.mp hp
    exact (LinearHinge.check_eq_ok_iff.mp accepted).1.2
  | hardRule _ hp =>
    obtain ⟨_, rfl⟩ := hardRule_eq_ok_iff.mp hp
    exact absurd rfl (hinge _)

theorem Constructed.wellFormed {p : Potential Float} (constructed : p.Constructed) :
    p.WellFormed := by
  have finite_weight := constructed.finite_weight
  obtain ⟨_, c, k, w, rho, indices, z, accepted⟩ := constructed.block
  obtain ⟨⟨hc, _, _⟩, ⟨defined, hw⟩, ⟨finite, hrho⟩, ⟨hi, distinct⟩, ⟨hz, finite_z⟩, hb⟩ :=
    Block.build_eq_ok_iff.mp accepted
  obtain ⟨b, kind⟩ := p
  obtain rfl : _ = b := hb
  have zero_defined : (0 : Float).isNaN = false := rfl
  exact {
    length_x := hz
    length_y := Vector.length_zeros _
    length_z := hz
    finite_z := finite_z
    finite_x := fun _ => finite_z
    arity_pos := Nat.one_le_iff_ne_zero.mpr hc
    length_indices := hi
    nodup_indices := firstAlias?_eq_none_iff.mp distinct
    finite_stepSize := finite
    stepSize_pos := (Binary.not_le_iff (Binary.isNaN_of_isFinite finite) zero_defined).mp hrho
    weight_defined := defined
    weight_nonneg := (Binary.not_lt_iff defined zero_defined).mp hw
    finite_weight := finite_weight }

/-- A term that was built from a grounded one. -/
def Grounded (p : Potential Float) : Prop :=
  ∃ (t : GroundedTerm) (global : List Float) (settings : ProximalSettings)
    (fallback : Fallback Float), (t.build global settings fallback).value = .ok p

theorem Grounded.constructed {p : Potential Float} (grounded : p.Grounded) : p.Constructed := by
  obtain ⟨t, global, settings, fallback, built⟩ := grounded
  unfold GroundedTerm.build at built
  cases hb : t.block global settings with
  | error e =>
    rw [hb] at built
    cases built
  | ok b =>
    have accepted : b.Constructed := by
      obtain ⟨z, _, hz⟩ := bind_eq_ok.mp hb
      exact ⟨_, _, _, _, _, _, _, hz⟩
    simp only [hb] at built
    split at built
    · exact .hardRule accepted built
    · exact .squaredHinge accepted built
    · exact .linearHinge accepted built

/-- However a term was built and whatever operations it has seen since, failed or not: all but its
local vectors is as it was built, and it is well-formed. -/
theorem sameRule_and_wellFormed_of_run {p : Potential Float} (built : p.Constructed ∨ p.Grounded)
    (keeps : p.KeepsLength) (operations : List (Operation Float)) :
    SameRule p (p.run operations) ∧ (p.run operations).WellFormed := by
  have constructed : p.Constructed := built.elim id Grounded.constructed
  exact ⟨p.run_sameRule operations, constructed.wellFormed.of_writes keeps (p.run_writes operations)⟩

def easygoing : Potential Float :=
  ⟨⟨7, [1.0, -2.0, 0.5], 0.25, 3.0, 2.0, [4, 0, 2], [1.0, 0.0, 1.0], Vector.zeros 3,
    [1.0, 0.0, 1.0]⟩, .squaredHinge .staying⟩

theorem sameRule_and_wellFormed_of_run_easygoing :
    easygoing.Constructed ∧ easygoing.KeepsLength ∧
      SameRule easygoing (easygoing.run [.setDual [1e308, -1e308, 0.0], .proximalStep [1.0],
        .proximalStep [1e308, -1e308, 1.0], .dualStep, .solve, .dualStep]) ∧
      (easygoing.run [.setDual [1e308, -1e308, 0.0], .proximalStep [1.0],
        .proximalStep [1e308, -1e308, 1.0], .dualStep, .solve, .dualStep]).WellFormed := by
  have constructed : easygoing.Constructed :=
    constructed_of_checks (by decide +kernel) (by decide +kernel)
  have keeps : easygoing.KeepsLength := by
    rintro _ ⟨⟩ f seed x ⟨⟩
    rfl
  exact ⟨constructed, keeps, sameRule_and_wellFormed_of_run (.inl constructed) keeps _⟩

end Potential

end RuleConsensus
