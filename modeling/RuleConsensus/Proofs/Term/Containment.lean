import RuleConsensus.Proofs.Term.WellFormed

set_option autoImplicit false
set_option relaxedAutoImplicit false

namespace RuleConsensus

variable {α : Type} [Scalar α]

theorem checkSolution_of_firstNonFinite {termId i : ℕ} {a : α} {x : List α}
    (first : Vector.firstNonFinite? x = some (i, a)) :
    checkSolution termId x = .error (.nonFiniteSolution termId i a) := by
  rw [checkSolution, first]

namespace SquaredHinge

variable {b : Block α} {fallback : Fallback α} {x : List α}

theorem solve_eq_ok_iff_of_wide (wide : 3 ≤ b.arity) :
    (solve b fallback).value = .ok x ↔
      (if inactive b b.candidate then x = b.candidate
        else (fallback.minimize ((landscape b).objective b) b.candidate).value = .ok x) ∧
      Vector.Finite x := by
  rw [solve_eq_ok_iff, solveActive_of_wide wide, solveByFallback_eq_ok_iff]

theorem solve_of_broken_answer (wide : 3 ≤ b.arity) (active : inactive b b.candidate = false)
    (answered : (fallback.minimize ((landscape b).objective b) b.candidate).value = .ok x)
    {i : ℕ} {a : α} (first : Vector.firstNonFinite? x = some (i, a)) :
    (solve b fallback).value = .error (.reported (.nonFiniteSolution b.termId i a)) := by
  rw [value_solve, active, if_neg Bool.false_ne_true, solveActive_of_wide wide]
  refine bind_eq_error.mpr
    (.inr ⟨x, solveByFallback_eq_ok_iff.mpr answered, bind_eq_error.mpr (.inl ?_)⟩)
  rw [checkSolution_of_firstNonFinite first]
  rfl

end SquaredHinge

namespace Potential

variable {p : Potential α} {fallback : Fallback α} {x : List α}

section Wide

variable (kind : p.kind = .squaredHinge fallback) (wide : 3 ≤ p.block.arity)

include kind wide

theorem solution_eq_ok_iff_of_wide :
    p.solution.value = .ok x ↔
      (if SquaredHinge.inactive p.block p.block.candidate then x = p.block.candidate
        else (fallback.minimize p.objective p.block.candidate).value = .ok x) ∧
      Vector.Finite x := by
  obtain ⟨b, _⟩ := p
  obtain rfl := kind
  exact SquaredHinge.solve_eq_ok_iff_of_wide wide

variable (active : SquaredHinge.inactive p.block p.block.candidate = false)

include active

theorem solve_of_refused_answer {e : Failure (MinimizeError α)}
    (refused : (fallback.minimize p.objective p.block.candidate).value = .error e) :
    p.solve.value = .failed p (e.map .fallback) := by
  obtain ⟨b, _⟩ := p
  obtain rfl := kind
  exact solve_of_not_found (SquaredHinge.solve_of_refused wide active refused)

variable (answered : (fallback.minimize p.objective p.block.candidate).value = .ok x)

include answered

theorem solve_of_broken_answer {i : ℕ} {a : α}
    (first : Vector.firstNonFinite? x = some (i, a)) :
    p.solve.value = .failed p (.reported (.nonFiniteSolution p.block.termId i a)) := by
  obtain ⟨b, _⟩ := p
  obtain rfl := kind
  exact solve_of_not_found (SquaredHinge.solve_of_broken_answer wide active answered first)

theorem solve_of_finite_answer (finite : Vector.Finite x) :
    p.solve.value = .done (p.withPrimal x) := by
  refine solve_of_found ((solution_eq_ok_iff_of_wide kind wide).mpr ⟨?_, finite⟩)
  rw [active, if_neg Bool.false_ne_true]
  exact answered

end Wide

/-- A solve fails and keeps the term, or it stores a finite primal with one entry for each
variable. -/
def Contained (p : Potential α) : Prop :=
  (∃ e, p.solve.value = .failed p e) ∨
    ∃ x, p.solve.value = .done (p.withPrimal x) ∧ x.length = p.block.arity ∧ Vector.Finite x

/-- A solve that stores a primal is contained exactly if that has one entry for each variable and is
finite. -/
theorem contained_of_stored_iff (stored : p.solve.value = .done (p.withPrimal x)) :
    p.Contained ↔ x.length = p.block.arity ∧ Vector.Finite x := by
  constructor
  · rintro (⟨e, failed⟩ | ⟨x', stored', fits⟩)
    · have broken := congrArg Update.failure (stored.symm.trans failed)
      cases broken
    · have same := congrArg (fun u => u.state.block.x) (stored.symm.trans stored')
      obtain rfl : x = x' := same
      exact fits
  · intro fits
    exact .inr ⟨x, stored, fits⟩

/-- A solve of a wide squared hinge fails and keeps the term, or stores a finite primal. Where the
hinge has a say, its fallback decides which: a refusal and an answer that is not finite fail, and a
finite answer is stored. So the fallback is contained unless it gives a finite answer of another
length than the term has. -/
theorem solve_contained_iff (kind : p.kind = .squaredHinge fallback) (wide : 3 ≤ p.block.arity)
    (hy : p.block.y.length = p.block.arity) (hz : p.block.z.length = p.block.arity) :
    ((∃ e, p.solve.value = .failed p e) ∨
      ∃ x, p.solve.value = .done (p.withPrimal x) ∧ Vector.Finite x) ∧
    (SquaredHinge.inactive p.block p.block.candidate = false →
      (∀ e, (fallback.minimize p.objective p.block.candidate).value = .error e →
        p.solve.value = .failed p (e.map .fallback)) ∧
      ∀ x, (fallback.minimize p.objective p.block.candidate).value = .ok x →
        (∀ i a, Vector.firstNonFinite? x = some (i, a) →
          p.solve.value = .failed p (.reported (.nonFiniteSolution p.block.termId i a))) ∧
        (Vector.Finite x → p.solve.value = .done (p.withPrimal x))) ∧
    (p.Contained ↔ ¬∃ x, SquaredHinge.inactive p.block p.block.candidate = false ∧
      (fallback.minimize p.objective p.block.candidate).value = .ok x ∧
      Vector.Finite x ∧ x.length ≠ p.block.arity) := by
  have found_iff (x : List α) := solution_eq_ok_iff_of_wide (x := x) kind wide
  refine ⟨?_, fun active => ⟨fun e refused => ?_, fun x answered => ⟨fun i a first => ?_,
    fun finite => ?_⟩⟩, ?_, ?_⟩
  · obtain ⟨x, found, stored⟩ | ⟨e, _, failed⟩ := p.solve_cases
    · exact .inr ⟨x, stored, ((found_iff x).mp found).2⟩
    · exact .inl ⟨e, failed⟩
  · exact solve_of_refused_answer kind wide active refused
  · exact solve_of_broken_answer kind wide active answered first
  · exact solve_of_finite_answer kind wide active answered finite
  · rintro contained ⟨x, active, answered, finite, misfit⟩
    have stored := solve_of_finite_answer kind wide active answered finite
    exact misfit ((contained_of_stored_iff stored).mp contained).1
  · intro fits
    obtain ⟨x, found, stored⟩ | ⟨e, _, failed⟩ := p.solve_cases
    · obtain ⟨origin, finite⟩ := (found_iff x).mp found
      refine (contained_of_stored_iff stored).mpr ⟨?_, finite⟩
      -- A stored primal is the candidate, which fits, or it is what the fallback answered.
      cases active : SquaredHinge.inactive p.block p.block.candidate with
      | true =>
        rw [active, if_pos rfl] at origin
        rw [origin]
        exact Block.length_candidate hy hz
      | false =>
        rw [active, if_neg Bool.false_ne_true] at origin
        by_contra misfit
        exact fits ⟨x, active, origin, finite, misfit⟩
    · exact .inl ⟨e, failed⟩

/-- A squared hinge over three variables whose fallback gives the same answer to everything. -/
def answering (point : List Float) : Potential Float :=
  ⟨⟨1, [1.0, 1.0, 1.0], 0.0, 1.0, 1.0, [0, 1, 2], [1.0, 1.0, 1.0], Vector.zeros 3,
    [1.0, 1.0, 1.0]⟩, .squaredHinge (.returning point)⟩

theorem solve_contained_iff_answering :
    (answering [0.5, 0.0, -0.5]).Contained := by
  have kind : (answering [0.5, 0.0, -0.5]).kind =
      .squaredHinge (.returning [0.5, 0.0, -0.5]) := rfl
  refine (solve_contained_iff kind (by decide) rfl rfl).2.2.mpr fun h => ?_
  obtain ⟨x, _, answered, _, misfit⟩ := h
  obtain rfl : [0.5, 0.0, -0.5] = x := Except.ok.inj answered
  exact absurd misfit (by decide)

/-- A built hinge that takes a primal of two entries for its three variables. -/
theorem answering_not_contained :
    (answering [1.0, 2.0]).Constructed ∧
      (answering [1.0, 2.0]).solve.value.failure = none ∧
      (answering [1.0, 2.0]).solve.value.state.block.x = [1.0, 2.0] ∧
      ¬(answering [1.0, 2.0]).Contained := by
  have kind : (answering [1.0, 2.0]).kind = .squaredHinge (.returning [1.0, 2.0]) := rfl
  have stored : (answering [1.0, 2.0]).solve.value =
      .done ((answering [1.0, 2.0]).withPrimal [1.0, 2.0]) :=
    solve_of_finite_answer kind (by decide) (by decide) rfl (by decide)
  refine ⟨constructed_of_checks (by decide +kernel) (by decide +kernel), ?_, ?_, ?_⟩
  · rw [stored, Update.failure_done]
  · rw [stored, Update.state_done]
    rfl
  · intro contained
    have fits := ((contained_of_stored_iff stored).mp contained).1
    exact absurd fits (by decide)

end Potential

end RuleConsensus
