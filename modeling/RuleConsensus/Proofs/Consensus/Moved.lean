import RuleConsensus.Proofs.Consensus.Balance
import RuleConsensus.Proofs.Exact.Stationary

set_option autoImplicit false
set_option relaxedAutoImplicit false

namespace RuleConsensus

namespace Potential

/-- What a completed round in exact arithmetic does to a term: its primal is where the pull of the
penalty is a subgradient of the cost, and its dual has moved by what the primal misses the slice
of the new global vector by. -/
structure Moved (rho : ℝ) (old new : List ℝ) (p r : Potential ℝ) : Prop where
  sameRule : SameRule p r
  length_x : r.block.x.length = p.block.indices.length
  length_y : p.block.y.length = p.block.indices.length
  pulled : IsSubgradient p.cost r.block.x (Vector.scale (Vector.sub
    (Vector.sub (p.slice old) (Vector.divide p.block.y rho)) r.block.x) rho)
  dual_eq : r.block.y =
    Vector.add p.block.y (Vector.scale (Vector.sub r.block.x (p.slice new)) rho)
  consensus_eq : r.block.z = p.slice new

/-- The terms that exact statements about rounds are about: built, with the step size of the
rounds, and solved exactly. -/
structure Exact (rho : ℝ) (p : Potential ℝ) : Prop where
  built : p.Built
  stepSize_eq : p.block.stepSize = rho
  regular : p.Regular

theorem Exact.shares {rho : ℝ} {p : Potential ℝ} (exact : p.Exact rho) : p.Shares rho :=
  ⟨exact.built, exact.stepSize_eq⟩

theorem Exact.sameRule {rho : ℝ} {p r : Potential ℝ} (exact : p.Exact rho) (same : SameRule p r)
    (hy : r.block.y.length = r.block.arity) : r.Exact rho := by
  obtain ⟨built, stepSize_eq⟩ := exact.shares.sameRule same hy
  exact ⟨built, stepSize_eq, same.regular exact.regular⟩

private theorem Solved.primal {rho : ℝ} {old : List ℝ} {p q : Potential ℝ} (exact : p.Exact rho)
    (solved : Solved old p q) :
    q.block.x.length = p.block.indices.length ∧
      IsSubgradient p.cost q.block.x (Vector.scale (Vector.sub
        (Vector.sub (p.slice old) (Vector.divide p.block.y rho)) q.block.x) rho) := by
  obtain ⟨_, _, x, found, rfl⟩ := solved
  have same : SameRule p (p.withConsensus (p.slice old)) := ⟨_, _, _, rfl⟩
  have still := exact.sameRule same exact.built.sound.length_y
  have hz : (p.slice old).length = p.block.arity := by
    rw [length_slice, exact.built.sound.length_indices]
  obtain ⟨hx, pulled⟩ := isSubgradient_of_solution still.built.sound still.regular hz found
  rw [cost_sameRule same, still.stepSize_eq, Block.candidate, still.stepSize_eq] at pulled
  exact ⟨hx.trans exact.built.sound.length_indices.symm, pulled⟩

theorem Solved.moved {rho : ℝ} {old new : List ℝ} {p q r : Potential ℝ} (exact : p.Exact rho)
    (solved : Solved old p q) (committed : Committed new q r) : Moved rho old new p r := by
  obtain ⟨hx, pulled⟩ := Solved.primal exact solved
  have hy := exact.shares.length_y
  obtain ⟨_, _, x, _, rfl⟩ := solved
  obtain ⟨_, _, rfl⟩ := (committed_iff_of_length_eq hx hy).mp committed
  refine ⟨⟨_, _, _, rfl⟩, hx, hy, pulled, ?_, rfl⟩
  have step : p.block.stepSize = rho := exact.stepSize_eq
  change List.zipWith (fun y r => y + p.block.stepSize * r) p.block.y
    (Vector.sub x (p.slice new)) = _
  simp only [step, Vector.add, Vector.scale, List.zipWith_map_right, mul_comm rho]
  rfl

variable {rho : ℝ} {old new star y : List ℝ} {p r : Potential ℝ}

theorem Moved.indices_eq (moved : Moved rho old new p r) : r.block.indices = p.block.indices :=
  moved.sameRule.indices_eq

theorem Moved.slice_eq (moved : Moved rho old new p r) (global : List ℝ) :
    r.slice global = p.slice global := by
  rw [slice, slice, moved.indices_eq]

theorem Moved.length_slice (moved : Moved rho old new p r) (global : List ℝ) :
    (r.slice global).length = p.block.indices.length := by
  rw [moved.slice_eq, Potential.length_slice]

theorem Moved.length_dual (moved : Moved rho old new p r) :
    r.block.y.length = p.block.indices.length := by
  rw [moved.dual_eq, Vector.length_add, Vector.length_scale, Vector.length_sub, moved.length_x,
    moved.length_y, Potential.length_slice, min_self, min_self]

theorem Moved.primalResidual_eq (moved : Moved rho old new p r) :
    r.block.primalResidual = some (Real.sqrt (Vector.gap r.block.x r.block.z)) := by
  refine Block.primalResidual_of_length_eq ?_
  rw [moved.length_x, moved.consensus_eq, Potential.length_slice]

theorem Exact.accepts (exact : p.Exact rho) (global : List ℝ) : p.Accepts (p.slice global) := by
  refine ⟨?_, Vector.finite_real _⟩
  rw [Potential.length_slice, exact.built.sound.length_indices]

theorem exists_solved (exact : p.Exact rho) (within : p.Within old) : ∃ q, Solved old p q := by
  have same : SameRule p (p.withConsensus (p.slice old)) := ⟨_, _, _, rfl⟩
  have still := exact.sameRule same exact.built.sound.length_y
  obtain ⟨x, found⟩ := exists_solution still.built.sound still.regular (exact.accepts old).1
  exact ⟨_, within, exact.accepts old, x, found, rfl⟩

theorem exists_committed {q : Potential ℝ} (exact : p.Exact rho) (solved : Solved old p q)
    (within : ∀ j ∈ p.block.indices, j < new.length) : ∃ r, Committed new q r := by
  have hx := (Solved.primal exact solved).1
  have hy := exact.shares.length_y
  obtain ⟨_, _, x, _, rfl⟩ := solved
  exact ⟨_, (committed_iff_of_length_eq hx hy).mpr ⟨within, exact.accepts new, rfl⟩⟩

theorem covered_of_solved {q : Potential ℝ} (exact : p.Exact rho) (solved : Solved old p q) :
    q.Covered old := by
  have hx := (Solved.primal exact solved).1
  have hy := exact.shares.length_y
  have inside := solved.within
  obtain ⟨_, _, x, _, rfl⟩ := solved
  exact ⟨inside, hx.ge, hy.ge⟩

theorem Moved.exact (moved : Moved rho old new p r) (exact : p.Exact rho) : r.Exact rho := by
  refine exact.sameRule moved.sameRule ?_
  rw [moved.length_dual]
  obtain ⟨x, y, z, rfl⟩ := moved.sameRule
  exact exact.built.sound.length_indices

end Potential

private theorem exists_forall₂ {β γ : Type} {R : β → γ → Prop} {bs : List β}
    (step : ∀ b ∈ bs, ∃ c, R b c) : ∃ cs, List.Forall₂ R bs cs := by
  induction bs with
  | nil => exact ⟨[], .nil⟩
  | cons b bs ih =>
    rw [List.forall_mem_cons] at step
    obtain ⟨⟨c, hc⟩, rest⟩ := step
    obtain ⟨cs, hcs⟩ := ih rest
    exact ⟨c :: cs, .cons hc hcs⟩

section Lists

open Potential

variable {rho : ℝ} {old new : List ℝ} {ps qs rs : List (Potential ℝ)}

theorem moved_of_solved (exact : ∀ p ∈ ps, p.Exact rho)
    (solves : List.Forall₂ (Solved old) ps qs) (commits : List.Forall₂ (Committed new) qs rs) :
    List.Forall₂ (Moved rho old new) ps rs :=
  forall₂_through solves commits exact (fun _ _ => trivial)
    fun _ _ _ exact _ solved committed => solved.moved exact committed

theorem fits_of_moved (moved : List.Forall₂ (Moved rho old new) ps rs) :
    Fits ps (ps.map (·.block.y)) ∧ Fits rs (rs.map (·.block.y)) := by
  induction moved with
  | nil => exact ⟨.nil, .nil⟩
  | cons moved _ ih =>
    refine ⟨.cons moved.length_y ih.1, .cons ?_ ih.2⟩
    rw [moved.length_dual, moved.indices_eq]

end Lists

namespace Session

open Potential

variable {rho : ℝ} {s after : Session ℝ}

theorem stepSize_pos (exact : ∀ p ∈ s.terms, p.Exact rho) (some : s.terms ≠ []) : 0 < rho := by
  obtain ⟨p, ps, h⟩ := List.exists_cons_of_ne_nil some
  exact (exact p (by rw [h]; exact List.mem_cons_self)).shares.stepSize_pos

theorem length_means (proposed : List (ℕ × ℝ)) (global : List ℝ) :
    (means proposed global).length = global.length :=
  List.length_mapIdx

theorem length_global_of_round (completed : (s.round rho).value = .done after) :
    after.global.length = s.global.length := by
  obtain ⟨solved, _, averaged, _⟩ := round_eq_done_iff.mp completed
  rw [← (average_eq_some_iff.mp averaged).2, length_means]

theorem within_of_round (completed : (s.round rho).value = .done after) :
    ∀ p ∈ s.terms, p.Within s.global := by
  obtain ⟨solved, solves, _, _⟩ := round_eq_done_iff.mp completed
  exact forall_right solves.flip (fun _ _ => trivial) fun _ _ _ h => h.1

theorem moved_of_round (exact : ∀ p ∈ s.terms, p.Exact rho)
    (completed : (s.round rho).value = .done after) :
    List.Forall₂ (Moved rho s.global after.global) s.terms after.terms := by
  obtain ⟨solved, solves, _, commits⟩ := round_eq_done_iff.mp completed
  exact moved_of_solved exact solves commits

theorem exists_residual_of_round (exact : ∀ p ∈ s.terms, p.Exact rho)
    (completed : (s.round rho).value = .done after) : ∃ d, residual after.terms = some d := by
  refine ⟨_, residual_eq_some_iff.mpr ⟨?_, rfl⟩⟩
  refine forall_right (moved_of_round exact completed) (fun _ _ => trivial) fun p r _ moved => ?_
  rw [moved.primalResidual_eq, Option.isSome_some]

theorem exact_of_round (exact : ∀ p ∈ s.terms, p.Exact rho)
    (completed : (s.round rho).value = .done after) : ∀ p ∈ after.terms, p.Exact rho :=
  forall_right (moved_of_round exact completed) exact fun _ _ h moved => moved.exact h

theorem within_after_round (exact : ∀ p ∈ s.terms, p.Exact rho)
    (completed : (s.round rho).value = .done after) : ∀ p ∈ after.terms, p.Within after.global := by
  refine forall_right (moved_of_round exact completed) (within_of_round completed) ?_
  intro p r inside moved j hj
  rw [moved.indices_eq] at hj
  rw [length_global_of_round completed]
  exact inside j hj

theorem balanced_of_round (exact : ∀ p ∈ s.terms, p.Exact rho)
    (completed : (s.round rho).value = .done after) :
    Balanced after.terms (after.terms.map (·.block.y)) :=
  balanced_of_shared (fun p hp => (exact p hp).shares) completed

/-- In exact arithmetic a round goes through if every index names an entry. -/
theorem round_completes (exact : ∀ p ∈ s.terms, p.Exact rho)
    (within : ∀ p ∈ s.terms, p.Within s.global) : ∃ after, (s.round rho).value = .done after := by
  have solves : ∃ solved, List.Forall₂ (Solved s.global) s.terms solved :=
    exists_forall₂ fun p hp => exists_solved (exact p hp) (within p hp)
  obtain ⟨solved, solves⟩ := solves
  have covered : ∀ q ∈ solved, q.Covered s.global :=
    forall_right solves exact fun _ _ exact solved => covered_of_solved exact solved
  obtain ⟨new, averaged⟩ : ∃ new, average rho solved s.global = some new :=
    ⟨_, average_eq_some_iff.mpr ⟨covered, rfl⟩⟩
  have long : new.length = s.global.length := by
    rw [← (average_eq_some_iff.mp averaged).2, length_means]
  have commits : ∃ terms, List.Forall₂ (Committed new) solved terms := by
    refine exists_forall₂ (forall_right solves exact fun p q h solved => ?_)
    refine exists_committed h solved fun j hj => ?_
    rw [long]
    exact solved.1 j hj
  obtain ⟨terms, commits⟩ := commits
  exact ⟨⟨_, terms⟩, round_eq_done_iff.mpr ⟨solved, solves, averaged, commits⟩⟩

end Session

end RuleConsensus
