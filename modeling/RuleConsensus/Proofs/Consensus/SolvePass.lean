import RuleConsensus.Proofs.Consensus.Completed
import RuleConsensus.Proofs.Term.Frame

set_option autoImplicit false
set_option relaxedAutoImplicit false

namespace RuleConsensus

variable {α : Type}

namespace Potential

/-- Two states of one term that agree in the dual too. They may differ in what a step overwrites,
the primal and the consensus. -/
def SameDual (p q : Potential α) : Prop :=
  ∃ x z, q = (p.withPrimal x).withConsensus z

theorem SameDual.refl (p : Potential α) : SameDual p p :=
  ⟨p.block.x, p.block.z, rfl⟩

variable [Scalar α]

theorem stepFrom_of_failure {global : List α} {p : Potential α} {e : Failure (TermError α)}
    (failed : (p.stepFrom global).value.failure = some e) :
    ∃ z, (p.stepFrom global).value.state = p.withConsensus z := by
  unfold stepFrom at failed ⊢
  cases hg : gather global p.block.indices with
  | error e => exact ⟨p.block.z, rfl⟩
  | ok v =>
    rw [hg] at failed
    dsimp only at failed ⊢
    obtain ⟨_, hv⟩ | ⟨_, e', he'⟩ := p.proximalStep_value v
    · rw [hv] at failed ⊢
      obtain ⟨x, _, hx⟩ | ⟨e', _, he'⟩ := (p.withConsensus v).solve_cases
      · rw [hx] at failed
        cases failed
      · exact ⟨v, by rw [he', Update.state_failed]⟩
    · exact ⟨p.block.z, by rw [he', Update.state_failed]; rfl⟩

theorem stepFrom_of_done {global : List α} {p : Potential α}
    (done : (p.stepFrom global).value.failure = none) :
    Solved global p (p.stepFrom global).value.state :=
  stepFrom_eq_done_iff.mp (Update.eq_done_iff.mpr ⟨done, rfl⟩)

theorem stepFrom_sameDual (global : List α) (p : Potential α) :
    SameDual p (p.stepFrom global).value.state := by
  cases failure : (p.stepFrom global).value.failure with
  | none =>
    obtain ⟨_, _, x, _, hx⟩ := stepFrom_of_done failure
    exact ⟨x, p.slice global, hx.symm⟩
  | some e =>
    obtain ⟨z, hz⟩ := stepFrom_of_failure failure
    exact ⟨p.block.x, z, hz⟩

end Potential

variable [Scalar α]

namespace Session

/-- The solve phase comes to the term at a position: no term before it fails to step. -/
def Reaches (global : List α) (ps : List (Potential α)) (k : ℕ) : Prop :=
  ∀ q ∈ ps.take k, (q.stepFrom global).value.failure = none

theorem reaches_zero (global : List α) (ps : List (Potential α)) : Reaches global ps 0 := by
  intro q hq
  simp at hq

theorem reaches_succ_iff {global : List α} {p : Potential α} {ps : List (Potential α)} {k : ℕ} :
    Reaches global (p :: ps) (k + 1) ↔
      (p.stepFrom global).value.failure = none ∧ Reaches global ps k := by
  rw [Reaches, List.take_succ_cons, List.forall_mem_cons]
  rfl

theorem solveAll_cons_of_done {global : List α} {p : Potential α} {ps : List (Potential α)}
    (done : (p.stepFrom global).value.failure = none) :
    (solveAll global (p :: ps)).value =
      (solveAll global ps).value.map fun qs => (p.stepFrom global).value.state :: qs := by
  simp only [solveAll, Logged.value_bind, done, Logged.value_pure]

theorem solveAll_cons_of_failure {global : List α} {p : Potential α} {ps : List (Potential α)}
    {e : Failure (TermError α)} (failed : (p.stepFrom global).value.failure = some e) :
    (solveAll global (p :: ps)).value = .failed ((p.stepFrom global).value.state :: ps) e := by
  simp only [solveAll, Logged.value_bind, failed, Logged.value_pure, Update.map]
  rfl

/-- A term that the solve phase reaches steps as it would alone. -/
theorem solveAll_getElem?_of_reaches {global : List α} {ps : List (Potential α)} {k : ℕ}
    (reaches : Reaches global ps k) :
    (solveAll global ps).value.state[k]? =
      ps[k]?.map fun p => (p.stepFrom global).value.state := by
  induction ps generalizing k with
  | nil => rfl
  | cons p ps ih =>
    cases failure : (p.stepFrom global).value.failure with
    | none =>
      rw [solveAll_cons_of_done failure, Update.state_map]
      cases k with
      | zero => rfl
      | succ k =>
        rw [List.getElem?_cons_succ, List.getElem?_cons_succ, ih (reaches_succ_iff.mp reaches).2]
    | some e =>
      rw [solveAll_cons_of_failure failure, Update.state_failed]
      cases k with
      | zero => rfl
      | succ k =>
        rw [(reaches_succ_iff.mp reaches).1] at failure
        cases failure

theorem solveAll_getElem?_of_not_reaches {global : List α} {ps : List (Potential α)} {k : ℕ}
    (stops : ¬Reaches global ps k) : (solveAll global ps).value.state[k]? = ps[k]? := by
  induction ps generalizing k with
  | nil => rfl
  | cons p ps ih =>
    cases k with
    | zero => exact absurd (reaches_zero global (p :: ps)) stops
    | succ k =>
      cases failure : (p.stepFrom global).value.failure with
      | none =>
        have earlier : ¬Reaches global ps k := fun h => stops (reaches_succ_iff.mpr ⟨failure, h⟩)
        rw [solveAll_cons_of_done failure, Update.state_map, List.getElem?_cons_succ, ih earlier,
          List.getElem?_cons_succ]
      | some e =>
        rw [solveAll_cons_of_failure failure, Update.state_failed, List.getElem?_cons_succ,
          List.getElem?_cons_succ]

/-- A solve phase fails with the failure of one term that it reaches. -/
theorem exists_failure_of_solveAll {global : List α} {ps : List (Potential α)}
    {e : Failure (TermError α)} (failed : (solveAll global ps).value.failure = some e) :
    ∃ i p, ps[i]? = some p ∧ Reaches global ps i ∧
      (p.stepFrom global).value.failure = some e := by
  induction ps with
  | nil => cases failed
  | cons p ps ih =>
    cases failure : (p.stepFrom global).value.failure with
    | none =>
      rw [solveAll_cons_of_done failure, Update.failure_map] at failed
      obtain ⟨i, q, hq, reaches, hi⟩ := ih failed
      exact ⟨i + 1, q, hq, reaches_succ_iff.mpr ⟨failure, reaches⟩, hi⟩
    | some e' =>
      rw [solveAll_cons_of_failure failure, Update.failure_failed] at failed
      exact ⟨0, p, rfl, reaches_zero global (p :: ps), failure.trans failed⟩

theorem solveAll_sameDual (global : List α) (ps : List (Potential α)) :
    List.Forall₂ Potential.SameDual ps (solveAll global ps).value.state := by
  induction ps with
  | nil => exact .nil
  | cons p ps ih =>
    have first := p.stepFrom_sameDual global
    cases failure : (p.stepFrom global).value.failure with
    | none =>
      rw [solveAll_cons_of_done failure]
      exact .cons first ih
    | some e =>
      rw [solveAll_cons_of_failure failure]
      exact .cons first (List.forall₂_same.mpr fun q _ => .refl q)

theorem not_reaches_of_failure {global : List α} {ps : List (Potential α)} {i k : ℕ}
    {p : Potential α} {e : Failure (TermError α)} (here : ps[i]? = some p)
    (failed : (p.stepFrom global).value.failure = some e) (after : i < k) :
    ¬Reaches global ps k := by
  intro reaches
  obtain ⟨hi, rfl⟩ := List.getElem?_eq_some_iff.mp here
  have before : ps[i] ∈ ps.take k := List.mem_take_iff_getElem.mpr ⟨i, by omega, rfl⟩
  rw [reaches _ before] at failed
  cases failed

end Session

end RuleConsensus
