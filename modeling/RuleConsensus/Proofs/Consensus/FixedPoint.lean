import RuleConsensus.Proofs.Consensus.Descent

set_option autoImplicit false
set_option relaxedAutoImplicit false

namespace RuleConsensus

noncomputable def objective (terms : List (Potential ℝ)) (global : List ℝ) : WithTop ℝ :=
  (terms.map fun p => p.cost (p.slice global)).sum

namespace Potential

variable {rho : ℝ} {old new : List ℝ} {p r : Potential ℝ}

theorem Moved.primal_eq (moved : Moved rho old new p r) (close : r.block.primalResidual = some 0) :
    r.block.x = p.slice new := by
  have near : Vector.gap r.block.x r.block.z ≤ 0 :=
    Real.sqrt_eq_zero'.mp (Option.some.inj (moved.primalResidual_eq.symm.trans close))
  rw [moved.consensus_eq] at near
  exact Vector.eq_of_gap_nonpos (moved.length_x.trans (Potential.length_slice new p).symm) near

theorem Moved.at_rest (hrho : 0 < rho) (moved : Moved rho old new p r)
    (rest : p.slice new = p.slice old) (close : r.block.primalResidual = some 0) :
    r.block.y = p.block.y ∧ IsSubgradient p.cost (p.slice old) (Vector.neg p.block.y) := by
  have primal := moved.primal_eq close
  have dual := moved.dual_eq
  have pulled := moved.pulled
  rw [primal, rest] at dual pulled
  obtain ⟨n, hn⟩ : ∃ n, p.block.indices.length = n := ⟨_, rfl⟩
  obtain ⟨y, hy⟩ := Vector.exists_coordinates (moved.length_y.trans hn)
  obtain ⟨z, hz⟩ := Vector.exists_coordinates ((Potential.length_slice old p).trans hn)
  have inward : rho • (z - rho⁻¹ • y - z) = -y := by
    rw [sub_sub_cancel_left, smul_neg, smul_inv_smul₀ hrho.ne']
  simp only [hy, hz, Vector.sub_ofFn, Vector.divide_ofFn, Vector.scale_ofFn, Vector.add_ofFn,
    sub_self, smul_zero, add_zero, inward] at dual pulled
  rw [dual, hy, hz, Vector.neg_ofFn]
  exact ⟨rfl, pulled⟩

end Potential

open Potential

section Lists

variable {rho : ℝ} {old new star : List ℝ} {ps rs : List (Potential ℝ)} {ys : List (List ℝ)}

theorem isSaddle_of_rest (hrho : 0 < rho) (moved : List.Forall₂ (Moved rho old new) ps rs)
    (rest : ∀ p ∈ ps, p.slice new = p.slice old) (close : ∀ r ∈ rs, r.block.primalResidual = some 0)
    (balanced : Balanced rs (rs.map (·.block.y))) : IsSaddle ps old (ps.map (·.block.y)) := by
  have settled : rs.map (·.block.y) = ps.map (·.block.y) ∧
      List.Forall₂ (fun p y => IsSubgradient p.cost (p.slice old) (Vector.neg y)) ps
        (ps.map (·.block.y)) := by
    clear balanced
    induction moved with
    | nil => exact ⟨rfl, .nil⟩
    | cons h _ ih =>
      rw [List.forall_mem_cons] at rest close
      obtain ⟨dual, optimal⟩ := h.at_rest hrho rest.1 close.1
      obtain ⟨duals, others⟩ := ih rest.2 close.2
      exact ⟨by rw [List.map_cons, List.map_cons, dual, duals], .cons optimal others⟩
  refine ⟨settled.2, fun j => ?_⟩
  have same := entries_of_moved moved (ps.map (·.block.y))
  rw [← same, ← settled.1]
  exact balanced j

theorem energy_nonneg (hrho : 0 < rho) (global star : List ℝ) (terms : List (Potential ℝ))
    (ys : List (List ℝ)) : 0 ≤ energy rho global star terms ys := by
  induction terms generalizing ys with
  | nil => simp [energy]
  | cons p terms ih =>
    cases ys with
    | nil => simp [energy]
    | cons y ys =>
      have share : 0 ≤ p.share rho global star y :=
        add_nonneg (mul_nonneg (by positivity) (Vector.gap_nonneg _ _))
          (mul_nonneg hrho.le (Vector.gap_nonneg _ _))
      have others := ih ys
      simp only [energy, List.zipWith_cons_cons, List.sum_cons] at others ⊢
      linarith

theorem energy_self (rho : ℝ) (global : List ℝ) (terms : List (Potential ℝ)) :
    energy rho global global terms (terms.map (·.block.y)) = 0 := by
  induction terms with
  | nil => simp [energy]
  | cons p terms ih =>
    have share : p.share rho global global p.block.y = 0 := by
      rw [Potential.share, Vector.gap_self, Vector.gap_self, mul_zero, mul_zero, add_zero]
    simp only [energy, List.map_cons, List.zipWith_cons_cons, List.sum_cons] at ih ⊢
    rw [share, ih, add_zero]

private theorem le_sum_of_mem {f : Potential ℝ → ℝ} (h : ∀ p, 0 ≤ f p) {r : Potential ℝ}
    (hr : r ∈ rs) : f r ≤ (rs.map f).sum := by
  refine List.single_le_sum ?_ _ (List.mem_map_of_mem hr)
  intro a ha
  obtain ⟨p, _, rfl⟩ := List.mem_map.mp ha
  exact h p

/-- From a saddle point no term moves: there is no energy to pay for it. -/
theorem rest_of_isSaddle (hrho : 0 < rho) (moved : List.Forall₂ (Moved rho old new) ps rs)
    (saddle : IsSaddle ps old (ps.map (·.block.y)))
    (balanced : Balanced rs (rs.map (·.block.y))) :
    ∀ r ∈ rs, r.slice new = r.slice old ∧ r.block.x = r.slice new := by
  -- Taken with respect to itself, the saddle point starts without energy.
  have paid := energy_add_gaps_le hrho moved saddle saddle.balanced balanced
  rw [energy_self] at paid
  have left := energy_nonneg hrho new old rs (ps.map (·.block.y))
  have lengths : ∀ r ∈ rs, r.block.x.length = r.block.indices.length := by
    refine forall_right moved (fun _ _ => trivial) fun p r _ h => ?_
    rw [h.length_x, h.indices_eq]
  intro r hr
  have primal := le_sum_of_mem (f := fun p => Vector.gap p.block.x (p.slice new))
    (fun _ => Vector.gap_nonneg _ _) hr
  have slice := le_sum_of_mem (f := fun p => Vector.gap (p.slice new) (p.slice old))
    (fun _ => Vector.gap_nonneg _ _) hr
  have primal' : 0 ≤ primalGaps new rs := (Vector.gap_nonneg _ _).trans primal
  have slice' : 0 ≤ sliceGaps new old rs := (Vector.gap_nonneg _ _).trans slice
  have nothing : primalGaps new rs + sliceGaps new old rs ≤ 0 := by
    by_contra some
    linarith [mul_pos hrho (not_le.mp some)]
  change Vector.gap r.block.x (r.slice new) ≤ primalGaps new rs at primal
  change Vector.gap (r.slice new) (r.slice old) ≤ sliceGaps new old rs at slice
  constructor
  · exact Vector.eq_of_gap_nonpos (by rw [length_slice, length_slice]) (by linarith)
  · exact Vector.eq_of_gap_nonpos (by rw [length_slice, lengths r hr]) (by linarith)

/-- No global vector has lower cost than a saddle point: what it may save at some slices is what
balanced duals take back at others. -/
theorem IsSaddle.objective_le (saddle : IsSaddle ps star ys) (u : List ℝ) :
    objective ps star ≤ objective ps u := by
  have total : objective ps star + ((pairing star ps ys - pairing u ps ys : ℝ) : WithTop ℝ) ≤
      objective ps u := by
    have optimal := saddle.optimal
    clear saddle
    induction optimal with
    | nil => simp [objective, pairing]
    | @cons p y ps ys h _ ih =>
      have below := h.2.2 (p.slice u) (by rw [length_slice, length_slice])
      have product : Vector.dot (Vector.neg y) (Vector.sub (p.slice u) (p.slice star)) =
          Vector.dot (p.slice star) y - Vector.dot (p.slice u) y := by
        have hy : y.length = p.block.indices.length :=
          h.length_neg.trans (length_slice star p)
        obtain ⟨n, hn⟩ : ∃ n, p.block.indices.length = n := ⟨_, rfl⟩
        obtain ⟨fy, rfl⟩ := Vector.exists_coordinates (hy.trans hn)
        obtain ⟨fs, hs⟩ := Vector.exists_coordinates ((length_slice star p).trans hn)
        obtain ⟨fu, hu⟩ := Vector.exists_coordinates ((length_slice u p).trans hn)
        simp only [hs, hu, Vector.neg_ofFn, Vector.sub_ofFn, Vector.dot_ofFn, neg_dotProduct,
          dotProduct_sub, dotProduct_comm fy]
        ring
      rw [product] at below
      simp only [objective, pairing, List.map_cons, List.zipWith_cons_cons, List.sum_cons] at ih ⊢
      have split : (Vector.dot (p.slice star) y +
          (List.zipWith (fun p y => Vector.dot (p.slice star) y) ps ys).sum -
          (Vector.dot (p.slice u) y +
            (List.zipWith (fun p y => Vector.dot (p.slice u) y) ps ys).sum)) =
          (Vector.dot (p.slice star) y - Vector.dot (p.slice u) y) +
            ((List.zipWith (fun p y => Vector.dot (p.slice star) y) ps ys).sum -
              (List.zipWith (fun p y => Vector.dot (p.slice u) y) ps ys).sum) := by
        ring
      rw [split, WithTop.coe_add, add_add_add_comm]
      exact add_le_add below ih
  rwa [pairing_eq_zero star saddle.fits saddle.balanced,
    pairing_eq_zero u saddle.fits saddle.balanced, sub_zero, WithTop.coe_zero, add_zero] at total

theorem IsSaddle.holds (sound : ∀ p ∈ ps, p.block.Sound) (saddle : IsSaddle ps star ys) :
    ∀ p ∈ ps, ∀ comparator, p.kind = .hardRule comparator →
      comparator.Holds (Vector.dot p.block.coefficients (p.slice star) - p.block.constant) := by
  have finite : ∀ p ∈ ps, p.cost (p.slice star) ≠ ⊤ :=
    forall_right saddle.optimal.flip (fun _ _ => trivial) fun _ _ _ h => h.2.1
  intro p hp comparator hk
  refine holds_of_cost_ne_top hk ?_ (finite p hp)
  rw [length_slice, (sound p hp).length_indices]

end Lists

namespace Session

variable {rho : ℝ} {s after : Session ℝ}

theorem slice_eq_iff {old new : List ℝ} {p : Potential ℝ} (within : p.Within old)
    (hl : new.length = old.length) :
    p.slice new = p.slice old ↔ ∀ j ∈ p.block.indices, new[j]? = old[j]? := by
  rw [slice, slice, List.map_inj_left]
  refine forall₂_congr fun j hj => ?_
  have inside : j < old.length := within j hj
  simp [List.getD_eq_getElem?_getD, inside, hl]

/-- A completed round leaves every entry that some term is about, and no primal misses its slice,
exactly if the global vector and the duals were a saddle point. In that case every hard rule
holds, and no global vector has lower cost. -/
theorem round_rests_iff_isSaddle (exact : ∀ p ∈ s.terms, p.Exact rho)
    (completed : (s.round rho).value = .done after) :
    (((∀ p ∈ s.terms, ∀ j ∈ p.block.indices, after.global[j]? = s.global[j]?) ∧
        ∀ r ∈ after.terms, r.block.primalResidual = some 0) ↔
      IsSaddle s.terms s.global (s.terms.map (·.block.y))) ∧
    (IsSaddle s.terms s.global (s.terms.map (·.block.y)) →
      (∀ p ∈ s.terms, ∀ comparator, p.kind = .hardRule comparator →
        comparator.Holds
          (Vector.dot p.block.coefficients (p.slice s.global) - p.block.constant)) ∧
      ∀ u, objective s.terms s.global ≤ objective s.terms u) := by
  have moved := moved_of_round exact completed
  have balanced := balanced_of_round exact completed
  have within := within_of_round completed
  have hl := length_global_of_round completed
  constructor
  · by_cases empty : s.terms = []
    · have none : after.terms = [] := by rwa [empty, List.forall₂_nil_left_iff] at moved
      rw [empty, none]
      exact iff_of_true (by simp) ⟨.nil, fun j => rfl⟩
    · have positive := stepSize_pos exact empty
      constructor
      · rintro ⟨rest, close⟩
        refine isSaddle_of_rest positive moved (fun p hp => ?_) close balanced
        exact (slice_eq_iff (within p hp) hl).mpr (rest p hp)
      · intro saddle
        have rests := rest_of_isSaddle positive moved saddle balanced
        have stays : ∀ p ∈ s.terms, p.slice after.global = p.slice s.global := by
          refine forall_right moved.flip rests fun r p h moved => ?_
          rw [← moved.slice_eq, ← moved.slice_eq]
          exact h.1
        have taken : ∀ r ∈ after.terms, r.block.z = r.slice after.global := by
          refine forall_right moved (fun _ _ => trivial) fun p r _ moved => ?_
          rw [moved.slice_eq, moved.consensus_eq]
        have measured : ∀ r ∈ after.terms, r.block.primalResidual =
            some (Real.sqrt (Vector.gap r.block.x r.block.z)) :=
          forall_right moved (fun _ _ => trivial) fun _ _ _ moved => moved.primalResidual_eq
        refine ⟨fun p hp => (slice_eq_iff (within p hp) hl).mp (stays p hp), fun r hr => ?_⟩
        have distance := measured r hr
        rwa [(rests r hr).2, taken r hr, Vector.gap_self, Real.sqrt_zero] at distance
  · intro saddle
    exact ⟨saddle.holds fun p hp => (exact p hp).built.sound, saddle.objective_le⟩

theorem round_rests_iff_isSaddle_tug :
    ∃ after, ((tug [1, -1, 0] 1).round 1).value = .done after ∧
      (∀ r ∈ after.terms, r.block.primalResidual = some 0) ∧
      ∀ u, objective (tug [1, -1, 0] 1).terms (tug [1, -1, 0] 1).global ≤
        objective (tug [1, -1, 0] 1).terms u := by
  obtain ⟨after, completed⟩ := tug_completes 1 (-1) 0 1
  obtain ⟨rests, optimal⟩ := round_rests_iff_isSaddle (tug_exact [1, -1, 0] 1) completed
  have saddle := tug_isSaddle [1, -1, 0] 1
  exact ⟨after, completed, (rests.mpr saddle).2, (optimal saddle).2⟩

end Session

end RuleConsensus
