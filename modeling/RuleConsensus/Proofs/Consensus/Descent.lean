import RuleConsensus.Proofs.Consensus.Energy
import RuleConsensus.Proofs.Exact.Secant

set_option autoImplicit false
set_option relaxedAutoImplicit false

namespace RuleConsensus.Session

open Potential

variable {rho : ℝ} {s after : Session ℝ} {star : List ℝ} {duals : List (List ℝ)}

theorem energy_add_gaps_of_round (exact : ∀ p ∈ s.terms, p.Exact rho)
    (balanced : Balanced s.terms (s.terms.map (·.block.y))) (saddle : IsSaddle s.terms star duals)
    (completed : (s.round rho).value = .done after) :
    energy rho after.global star after.terms duals + rho * primalGaps after.global after.terms +
        rho * sliceGaps after.global s.global after.terms ≤
      energy rho s.global star s.terms duals := by
  have moved := moved_of_round exact completed
  -- Without terms nothing says that the step size is positive, and nothing moves.
  by_cases empty : s.terms = []
  · have none : after.terms = [] := by rwa [empty, List.forall₂_nil_left_iff] at moved
    simp [empty, none, energy, primalGaps, sliceGaps]
  · exact energy_add_gaps_le (stepSize_pos exact empty) moved saddle balanced
      (balanced_of_round exact completed)

/-- What a round keeps: exact terms, indices within the global vector, balanced duals, and the
saddle point. -/
structure Steady (rho : ℝ) (star : List ℝ) (duals : List (List ℝ)) (s : Session ℝ) : Prop where
  exact : ∀ p ∈ s.terms, p.Exact rho
  within : ∀ p ∈ s.terms, p.Within s.global
  balanced : Balanced s.terms (s.terms.map (·.block.y))
  saddle : IsSaddle s.terms star duals

theorem Steady.of_round (steady : s.Steady rho star duals)
    (completed : (s.round rho).value = .done after) : after.Steady rho star duals where
  exact := exact_of_round steady.exact completed
  within := within_after_round steady.exact completed
  balanced := balanced_of_round steady.exact completed
  saddle := steady.saddle.of_moved (moved_of_round steady.exact completed)

theorem Steady.gaps_nonneg (steady : s.Steady rho star duals) (new old : List ℝ) :
    0 ≤ rho * primalGaps new s.terms + rho * sliceGaps new old s.terms := by
  by_cases empty : s.terms = []
  · simp [empty, primalGaps, sliceGaps]
  · have total (f : Potential ℝ → ℝ) (h : ∀ p, 0 ≤ f p) : 0 ≤ (s.terms.map f).sum := by
      refine List.sum_nonneg fun a ha => ?_
      obtain ⟨p, _, rfl⟩ := List.mem_map.mp ha
      exact h p
    have positive := stepSize_pos steady.exact empty
    exact add_nonneg (mul_nonneg positive.le (total _ fun _ => Vector.gap_nonneg _ _))
      (mul_nonneg positive.le (total _ fun _ => Vector.gap_nonneg _ _))

private theorem Steady.energy_le (steady : s.Steady rho star duals)
    (completed : (s.round rho).value = .done after) :
    energy rho after.global star after.terms duals ≤ energy rho s.global star s.terms duals := by
  have total := energy_add_gaps_of_round steady.exact steady.balanced steady.saddle completed
  have gaps := (steady.of_round completed).gaps_nonneg after.global s.global
  linarith

private theorem Steady.roundsAfter (steady : s.Steady rho star duals) (n completed : ℕ)
    (last : ℝ) :
    (roundsAfter rho completed last n s).value.failure = none ∧
      (roundsAfter rho completed last n s).value.session.Steady rho star duals ∧
      energy rho (roundsAfter rho completed last n s).value.session.global star
          (roundsAfter rho completed last n s).value.session.terms duals ≤
        energy rho s.global star s.terms duals := by
  induction n generalizing s completed last with
  | zero => exact ⟨rfl, steady, le_rfl⟩
  | succ n ih =>
    obtain ⟨after, done⟩ := round_completes steady.exact steady.within
    obtain ⟨latest, found⟩ := exists_residual_of_round steady.exact done
    have first : (Session.roundsAfter rho completed last (n + 1) s).value =
        (Session.roundsAfter rho (completed + 1) latest n after).value := by
      simp only [Session.roundsAfter, Logged.value_bind, done, Update.failure_done,
        Update.state_done, found]
    obtain ⟨finished, still, lower⟩ := ih (steady.of_round done) (completed + 1) latest
    rw [first]
    exact ⟨finished, still, lower.trans (steady.energy_le done)⟩

/-- Rounds from a steady session never fail, keep it steady, and never raise the energy. -/
theorem Steady.rounds (steady : s.Steady rho star duals) (n : ℕ) :
    (s.rounds rho n).value.failure = none ∧
      (s.rounds rho n).value.session.Steady rho star duals ∧
      energy rho (s.rounds rho n).value.session.global star
          (s.rounds rho n).value.session.terms duals ≤
        energy rho s.global star s.terms duals :=
  steady.roundsAfter n 0 0

/-- However many rounds are run, all that primals and slices miss in them is paid for by the
energy at the start. -/
theorem Steady.sum_gaps_le {trace : ℕ → Session ℝ} (steady : (trace 0).Steady rho star duals)
    (completed : ∀ k, ((trace k).round rho).value = .done (trace (k + 1))) (n : ℕ) :
    energy rho (trace n).global star (trace n).terms duals +
        ∑ k ∈ Finset.range n, (rho * primalGaps (trace (k + 1)).global (trace (k + 1)).terms +
          rho * sliceGaps (trace (k + 1)).global (trace k).global (trace (k + 1)).terms) ≤
      energy rho (trace 0).global star (trace 0).terms duals := by
  have always (k : ℕ) : (trace k).Steady rho star duals := by
    induction k with
    | zero => exact steady
    | succ k ih => exact ih.of_round (completed k)
  induction n with
  | zero => simp
  | succ n ih =>
    have step := energy_add_gaps_of_round (always n).exact (always n).balanced (always n).saddle
      (completed n)
    rw [Finset.sum_range_succ]
    linarith

/-- A squared hinge over three entries, a linear hinge and a hard rule over the first of them. The
hinges pull the first entry down, the rule keeps it from falling below one, and the duals of the
last two pull against each other. -/
noncomputable def tug (global : List ℝ) (a : ℝ) : Session ℝ :=
  ⟨global,
    [⟨⟨1, [1, 1, 1], 0, 1, 1, [0, 1, 2], [0, 0, 0], [0, 0, 0], [0, 0, 0]⟩, .squaredHinge .secant⟩,
      ⟨⟨2, [1], 0, 1, 1, [0], [0], [-a], [0]⟩, .linearHinge⟩,
      ⟨⟨3, [-1], -1, 1, 1, [0], [0], [a], [0]⟩, .hardRule .inequality⟩]⟩

theorem tug_exact (global : List ℝ) (a : ℝ) : ∀ p ∈ (tug global a).terms, p.Exact 1 := by
  simp only [tug, List.forall_mem_cons, List.not_mem_nil, false_implies, implies_true, and_true]
  have block {termId : ℕ} {c z : List ℝ} {k : ℝ} {indices : List ℕ} (some : c.length ≠ 0)
      (hi : indices.length = c.length) (distinct : firstAlias? indices = none)
      (hz : z.length = c.length) :
      Block.Constructed ⟨termId, c, k, 1, 1, indices, z, Vector.zeros c.length, z⟩ :=
    Block.constructed_real some zero_le_one one_pos hi distinct hz
  refine ⟨⟨⟨_, constructed_squaredHinge (block (by simp) rfl (by decide) rfl) .secant,
      ⟨_, _, _, rfl⟩, rfl⟩, rfl, ?_⟩,
    ⟨⟨_, constructed_linearHinge (block (by simp) rfl (by decide) rfl), ⟨_, _, _, rfl⟩, rfl⟩, rfl,
      trivial⟩,
    ⟨⟨_, constructed_hardRule (block (by simp) rfl (by decide) rfl) ?_, ⟨_, _, _, rfl⟩, rfl⟩,
      rfl, ⟨-1, by simp, by norm_num⟩⟩⟩
  · intro _
    exact Fallback.secant_solvesExactly
      ⟨zero_le_one, zero_lt_one, Nat.zero_lt_succ 2, rfl, rfl⟩
  · intro flat
    simp at flat

theorem tug_balanced (global : List ℝ) (a b : ℝ) :
    Balanced (tug global a).terms [[0, 0, 0], [-b], [b]] := by
  intro j
  change totalAt j [(0, 0), (1, 0), (2, 0), (0, -b), (0, b)] = 0
  have none : totalAt j [] = 0 := rfl
  simp only [totalAt_cons, none]
  split_ifs <;> simp

/-- The optimum: the rule holds tightly against the linear hinge, and the squared hinge rests. -/
theorem tug_isSaddle (global : List ℝ) (a : ℝ) :
    IsSaddle (tug global a).terms [1, -1, 0] [[0, 0, 0], [-1], [1]] := by
  have supports (p : Potential ℝ) (x g : List ℝ) (a : ℝ) (hx : x.length = p.block.arity)
      (slope : IsSlope (p.kind.profile p.block.weight)
        (Vector.dot p.block.coefficients x - p.block.constant) a)
      (hg : Vector.scale p.block.coefficients a = g) : IsSubgradient p.cost x g :=
    hg ▸ isSubgradient_of_isSlope hx slope
  refine ⟨.cons (supports _ [1, -1, 0] _ 0 rfl ?_ ?_) (.cons (supports _ [1] _ 1 rfl ?_ ?_)
    (.cons (supports _ [1] _ 1 rfl ?_ ?_) .nil)), tug_balanced global a 1⟩
  · have resting : Vector.dot [1, 1, 1] [1, -1, 0] - 0 = (0 : ℝ) := by
      simp [Vector.dot_eq_sum]
    rw [resting]
    exact Kind.isSlope_zero zero_le_one (by simp [Kind.profile_squaredHinge])
  · simp [Vector.scale, Vector.neg]
  · have sloping : Vector.dot [1] [1] - 0 = (1 : ℝ) := by
      simp [Vector.dot_eq_sum]
    rw [sloping]
    exact Kind.isSlope_linearHinge zero_le_one le_rfl (fun h => by linarith) fun _ => rfl
  · simp [Vector.scale, Vector.neg]
  · have tight : Vector.dot [-1] [1] - -1 = (0 : ℝ) := by
      simp [Vector.dot_eq_sum]
    rw [tight]
    exact Kind.isSlope_hardRule fun _ => zero_le_one
  · simp [Vector.scale, Vector.neg]

theorem tug_completes (x x' x'' a : ℝ) :
    ∃ after, ((tug [x, x', x''] a).round 1).value = .done after := by
  refine round_completes (tug_exact _ a) ?_
  simp [tug, Potential.Within]

/-- A round with every index in range completes. It does to every term what an exact round does,
and lowers the energy by at least the step size times what the new primals miss the new slices by,
and by at least the step size times what the slices have moved. -/
theorem energy_after_round_le (exact : ∀ p ∈ s.terms, p.Exact rho)
    (balanced : Balanced s.terms (s.terms.map (·.block.y))) (saddle : IsSaddle s.terms star duals) :
    ((∀ p ∈ s.terms, p.Within s.global) → ∃ after, (s.round rho).value = .done after) ∧
      ∀ after, (s.round rho).value = .done after →
        List.Forall₂ (Moved rho s.global after.global) s.terms after.terms ∧
          energy rho after.global star after.terms duals ≤
            energy rho s.global star s.terms duals - rho * primalGaps after.global after.terms -
              rho * sliceGaps after.global s.global after.terms := by
  refine ⟨round_completes exact, fun after completed => ?_⟩
  have total := energy_add_gaps_of_round exact balanced saddle completed
  exact ⟨moved_of_round exact completed, by linarith⟩

theorem energy_after_round_le_tug :
    ∃ after, ((tug [3, 1, 4] 2).round 1).value = .done after ∧
      List.Forall₂ (Moved 1 [3, 1, 4] after.global) (tug [3, 1, 4] 2).terms after.terms ∧
      energy 1 after.global [1, -1, 0] after.terms [[0, 0, 0], [-1], [1]] ≤
        energy 1 (tug [3, 1, 4] 2).global [1, -1, 0] (tug [3, 1, 4] 2).terms
            [[0, 0, 0], [-1], [1]] - 1 * primalGaps after.global after.terms -
          1 * sliceGaps after.global (tug [3, 1, 4] 2).global after.terms := by
  obtain ⟨completes, lowers⟩ :=
    energy_after_round_le (tug_exact [3, 1, 4] 2) (tug_balanced _ 2 2) (tug_isSaddle _ 2)
  obtain ⟨after, completed⟩ := completes (by simp [tug, Potential.Within])
  exact ⟨after, completed, lowers after completed⟩

end RuleConsensus.Session
