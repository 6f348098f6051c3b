import RuleConsensus.Proofs.Term.Run

set_option autoImplicit false
set_option relaxedAutoImplicit false

namespace RuleConsensus

variable {α : Type} [Scalar α]

theorem checkLocalVector_of_length_ne {what : String} {v : List α} {n : Nat} (h : v.length ≠ n) :
    checkLocalVector what v n = .error (.dimensionMismatch what n v.length) := by
  rw [checkLocalVector, checkLength, if_pos h.symm]
  rfl

theorem checkLocalVector_of_firstNonFinite {what : String} {v : List α} {n i : Nat} {a : α}
    (hl : v.length = n) (h : Vector.firstNonFinite? v = some (i, a)) :
    checkLocalVector what v n = .error (.nonFiniteInput what i a) := by
  rw [checkLocalVector, checkLength_eq_ok_iff.mpr hl.symm, h]
  rfl

namespace Potential

/-- How a vector is stored that is checked first: the update fails exactly if the length is wrong or
an entry is not finite; then it keeps the term, and names the length if that is wrong, and
otherwise the first entry that is not finite. -/
structure StoresChecked (what : String) (v : List α) (p stored : Potential α)
    (u : Update (Potential α) (TermError α)) : Prop where
  failure_iff : u.failure ≠ none ↔
    v.length ≠ p.block.arity ∨ ∃ a ∈ v, Scalar.isFinite a = false
  kept : u.failure ≠ none → u.state = p
  replaced : u.failure = none → u.state = stored
  length_first : v.length ≠ p.block.arity →
    u.failure = some (.reported (.dimensionMismatch what p.block.arity v.length))
  entry_least : v.length = p.block.arity → ∀ i a, v[i]? = some a → Scalar.isFinite a = false →
    (∀ j < i, ∀ b, v[j]? = some b → Scalar.isFinite b = true) →
      u.failure = some (.reported (.nonFiniteInput what i a))

theorem not_accepts_iff {p : Potential α} {v : List α} :
    ¬p.Accepts v ↔ v.length ≠ p.block.arity ∨ ∃ a ∈ v, Scalar.isFinite a = false := by
  rw [Accepts, Vector.Finite, Decidable.not_and_iff_not_or_not]
  simp

theorem checkedUpdate_storesChecked (what : String) (v : List α) (p stored : Potential α) :
    StoresChecked what v p stored (checkedUpdate what v p stored) where
  failure_iff := by
    rw [← not_accepts_iff]
    obtain ⟨accepted, hv⟩ | ⟨refused, e, he⟩ := checkedUpdate_cases what v p stored
    · simp [hv, accepted]
    · simp [he, refused]
  kept := by
    intro failed
    obtain ⟨_, hv⟩ | ⟨_, e, he⟩ := checkedUpdate_cases what v p stored
    · rw [hv] at failed
      exact absurd rfl failed
    · rw [he, Update.state_failed]
  replaced := by
    intro done
    obtain ⟨_, hv⟩ | ⟨_, e, he⟩ := checkedUpdate_cases what v p stored
    · rw [hv, Update.state_done]
    · rw [he] at done
      cases done
  length_first := by
    intro wrong
    rw [checkedUpdate, checkLocalVector_of_length_ne wrong]
    rfl
  entry_least := by
    intro fits i a entry broken before
    have first := Vector.firstNonFinite?_eq_some_iff.mpr ⟨entry, broken, before⟩
    rw [checkedUpdate, checkLocalVector_of_firstNonFinite fits first]
    rfl

theorem solution_withPrimal (p : Potential α) (x : List α) :
    (p.withPrimal x).solution = p.solution := rfl

/-- Consensus and dual are stored as they are given, or refused. A solve writes the primal or fails,
whatever primal was there before, and a dual step writes the dual, or breaks off on vectors that do
not fit. Nothing else changes. -/
theorem update_frames (p : Potential α) :
    (∀ v, StoresChecked "consensus" v p (p.withConsensus v) (p.setConsensus v)) ∧
    (∀ v, StoresChecked "dual" v p (p.withDual v) (p.setDual v)) ∧
    ((p.solve.value.failure ≠ none → p.solve.value.state = p) ∧
      (p.solve.value.failure = none → ∃ x, p.solve.value.state = p.withPrimal x)) ∧
    ((∃ y, p.dualStep.state = p.withDual y) ∧
      (p.dualStep.failure ≠ none → p.dualStep.state = p) ∧
      (p.block.x.length = p.block.arity → p.block.y.length = p.block.arity →
        p.block.z.length = p.block.arity → p.dualStep.failure = none)) ∧
    ∀ x, (p.withPrimal x).solve.value.failure = p.solve.value.failure ∧
      (p.solve.value.failure = none →
        (p.withPrimal x).solve.value.state = p.solve.value.state) := by
  refine ⟨fun v => ?_, fun v => ?_, ?_, ⟨?_, ?_, ?_⟩, fun x => ?_⟩
  · rw [setConsensus_eq]
    exact checkedUpdate_storesChecked "consensus" v p (p.withConsensus v)
  · rw [setDual_eq]
    exact checkedUpdate_storesChecked "dual" v p (p.withDual v)
  · obtain ⟨x, _, hx⟩ | ⟨e, _, he⟩ := p.solve_cases
    · rw [hx]
      exact ⟨fun failed => absurd rfl failed, fun _ => ⟨x, rfl⟩⟩
    · rw [he]
      exact ⟨fun _ => rfl, fun done => nomatch done⟩
  · obtain ⟨r, _, stepped⟩ | ⟨_, broken⟩ := p.dualStep_cases
    · exact ⟨_, by rw [stepped, Update.state_done]⟩
    · exact ⟨p.block.y, by rw [broken, Update.state_failed]; rfl⟩
  · intro failed
    obtain ⟨r, _, stepped⟩ | ⟨_, broken⟩ := p.dualStep_cases
    · rw [stepped] at failed
      exact absurd rfl failed
    · rw [broken, Update.state_failed]
  · intro hx hy hz
    rw [dualStep_of_length_eq (hx.trans hz.symm) (hy.trans hz.symm), Update.failure_done]
  · have same := p.solution_withPrimal x
    cases hs : p.solution.value with
    | ok y =>
      rw [solve_of_found hs, solve_of_found (same ▸ hs)]
      exact ⟨rfl, fun _ => rfl⟩
    | error e =>
      rw [solve_of_not_found hs, solve_of_not_found (same ▸ hs)]
      exact ⟨rfl, fun done => nomatch done⟩

end Potential

end RuleConsensus
