import RuleConsensus.Proofs.Consensus.Moved

/-!
The energy of a session with respect to a saddle point: how far the duals are from the optimal
ones, and the slices from the optimal slices. A term that moves in a round gives up some of its
share of the energy, up to products that vanish in the sum because all duals balance.
-/

set_option autoImplicit false
set_option relaxedAutoImplicit false

namespace RuleConsensus

open Matrix

namespace Potential

variable {rho : ℝ} {old new star y : List ℝ} {p r : Potential ℝ}

noncomputable def share (rho : ℝ) (global star : List ℝ) (p : Potential ℝ) (y : List ℝ) : ℝ :=
  1 / rho * Vector.gap p.block.y y + rho * Vector.gap (p.slice global) (p.slice star)

private theorem share_identity {n : ℕ} (hrho : rho ≠ 0) (x y y' o s w : Fin n → ℝ) :
    1 / rho * ((y + rho • (x - w) - y') ⬝ᵥ (y + rho • (x - w) - y')) +
        rho * ((w - s) ⬝ᵥ (w - s)) + rho * ((x - w) ⬝ᵥ (x - w)) + rho * ((w - o) ⬝ᵥ (w - o)) +
        2 * ((w - s) ⬝ᵥ (y + rho • (x - w) - y') + (w - o) ⬝ᵥ (y + rho • (x - w) - y)) =
      1 / rho * ((y - y') ⬝ᵥ (y - y')) + rho * ((o - s) ⬝ᵥ (o - s)) -
        2 * ((rho • (o - rho⁻¹ • y - x) - -y') ⬝ᵥ (x - s)) := by
  simp only [dotProduct, Finset.mul_sum, ← Finset.sum_add_distrib, ← Finset.sum_sub_distrib,
    Pi.add_apply, Pi.sub_apply, Pi.smul_apply, Pi.neg_apply, smul_eq_mul]
  refine Finset.sum_congr rfl fun i _ => ?_
  field_simp
  ring

/-- A term that moves gives up of its share what its primal misses its new slice by, what the
slice has moved, and two products of which balanced duals leave nothing. -/
theorem Moved.share_le (hrho : 0 < rho) (moved : Moved rho old new p r)
    (optimal : IsSubgradient p.cost (p.slice star) (Vector.neg y)) :
    share rho new star r y + rho * Vector.gap r.block.x (r.slice new) +
        rho * Vector.gap (r.slice new) (r.slice old) +
        2 * (Vector.dot (Vector.sub (r.slice new) (r.slice star)) (Vector.sub r.block.y y) +
          Vector.dot (Vector.sub (r.slice new) (r.slice old))
            (Vector.sub r.block.y p.block.y)) ≤
      share rho old star p y := by
  have ahead := moved.pulled.monotone optimal
    (moved.length_x.trans (Potential.length_slice star p).symm)
  have hy : y.length = p.block.indices.length :=
    optimal.length_neg.trans (Potential.length_slice star p)
  simp only [share, moved.slice_eq, moved.dual_eq]
  obtain ⟨n, hn⟩ : ∃ n, p.block.indices.length = n := ⟨_, rfl⟩
  obtain ⟨fx, hfx⟩ := Vector.exists_coordinates (moved.length_x.trans hn)
  obtain ⟨fy, hfy⟩ := Vector.exists_coordinates (moved.length_y.trans hn)
  obtain ⟨fy', hfy'⟩ := Vector.exists_coordinates (hy.trans hn)
  obtain ⟨fo, hfo⟩ := Vector.exists_coordinates ((Potential.length_slice old p).trans hn)
  obtain ⟨fs, hfs⟩ := Vector.exists_coordinates ((Potential.length_slice star p).trans hn)
  obtain ⟨fw, hfw⟩ := Vector.exists_coordinates ((Potential.length_slice new p).trans hn)
  simp only [hfx, hfy, hfy', hfo, hfs, hfw, Vector.gap_ofFn, Vector.sub_ofFn, Vector.add_ofFn,
    Vector.scale_ofFn, Vector.divide_ofFn, Vector.neg_ofFn, Vector.dot_ofFn] at ahead ⊢
  rw [share_identity hrho.ne']
  linarith

end Potential

open Potential

noncomputable def energy (rho : ℝ) (global star : List ℝ) (terms : List (Potential ℝ))
    (duals : List (List ℝ)) : ℝ :=
  (List.zipWith (fun p y => p.share rho global star y) terms duals).sum

/-- What the primals miss their slices of a global vector by, all squared distances together. -/
noncomputable def primalGaps (global : List ℝ) (terms : List (Potential ℝ)) : ℝ :=
  (terms.map fun p => Vector.gap p.block.x (p.slice global)).sum

/-- What the slices of two global vectors differ by, all squared distances together. -/
noncomputable def sliceGaps (new old : List ℝ) (terms : List (Potential ℝ)) : ℝ :=
  (terms.map fun p => Vector.gap (p.slice new) (p.slice old)).sum

/-- An optimal global vector with duals that prove it: with the other sign they are subgradients of
the costs at the slices, and they balance. -/
structure IsSaddle (terms : List (Potential ℝ)) (star : List ℝ) (duals : List (List ℝ)) : Prop where
  optimal : List.Forall₂ (fun p y => IsSubgradient p.cost (p.slice star) (Vector.neg y)) terms duals
  balanced : Balanced terms duals

section Totals

variable {rho : ℝ} {old new star : List ℝ} {ps rs : List (Potential ℝ)} {ys : List (List ℝ)}

private theorem energy_add_pairings_le (hrho : 0 < rho)
    (moved : List.Forall₂ (Moved rho old new) ps rs)
    (optimal : List.Forall₂
      (fun p y => IsSubgradient p.cost (p.slice star) (Vector.neg y)) ps ys) :
    energy rho new star rs ys + rho * primalGaps new rs + rho * sliceGaps new old rs +
        2 * (2 * pairing new rs (rs.map (·.block.y)) - pairing star rs (rs.map (·.block.y)) -
          pairing old rs (rs.map (·.block.y)) - pairing new ps ys + pairing star ps ys -
          pairing new ps (ps.map (·.block.y)) + pairing old ps (ps.map (·.block.y))) ≤
      energy rho old star ps ys := by
  -- The products do not vanish term by term, so the induction carries them along.
  induction moved generalizing ys with
  | nil =>
    cases optimal
    simp [energy, primalGaps, sliceGaps, pairing]
  | @cons p r ps rs moved _ ih =>
    cases optimal with
    | @cons _ y _ ys optimal rest =>
      have share := moved.share_le hrho optimal
      have hy : y.length = p.block.indices.length :=
        optimal.length_neg.trans (Potential.length_slice star p)
      rw [Vector.dot_sub_sub (moved.length_slice new) (moved.length_slice star)
          moved.length_dual hy,
        Vector.dot_sub_sub (moved.length_slice new) (moved.length_slice old)
          moved.length_dual moved.length_y] at share
      have later := ih rest
      simp only [energy, primalGaps, sliceGaps, pairing, List.map_cons, List.zipWith_cons_cons,
        List.sum_cons, moved.slice_eq] at share later ⊢
      linarith

theorem IsSaddle.fits (saddle : IsSaddle ps star ys) : Fits ps ys := by
  exact saddle.optimal.imp fun p y h => h.length_neg.trans (Potential.length_slice star p)

theorem entries_of_moved (moved : List.Forall₂ (Moved rho old new) ps rs) (ys : List (List ℝ)) :
    entries rs ys = entries ps ys :=
  entries_congr (moved.imp fun _ _ h => h.sameRule) ys

theorem IsSaddle.of_moved (saddle : IsSaddle ps star ys)
    (moved : List.Forall₂ (Moved rho old new) ps rs) : IsSaddle rs star ys := by
  obtain ⟨optimal, balanced⟩ := saddle
  refine ⟨?_, fun j => by rw [entries_of_moved moved]; exact balanced j⟩
  clear balanced
  induction moved generalizing ys with
  | nil => exact optimal
  | cons moved _ ih =>
    cases optimal with
    | cons h rest =>
      refine .cons ?_ (ih rest)
      rw [cost_sameRule moved.sameRule, moved.slice_eq]
      exact h

/-- If all duals balance, the energy falls at least by what primals and slices miss. -/
theorem energy_add_gaps_le (hrho : 0 < rho) (moved : List.Forall₂ (Moved rho old new) ps rs)
    (saddle : IsSaddle ps star ys) (before : Balanced ps (ps.map (·.block.y)))
    (after : Balanced rs (rs.map (·.block.y))) :
    energy rho new star rs ys + rho * primalGaps new rs + rho * sliceGaps new old rs ≤
      energy rho old star ps ys := by
  have total := energy_add_pairings_le hrho moved saddle.optimal
  obtain ⟨fits, fits'⟩ := fits_of_moved moved
  rw [pairing_eq_zero new fits' after, pairing_eq_zero star fits' after,
    pairing_eq_zero old fits' after, pairing_eq_zero new saddle.fits saddle.balanced,
    pairing_eq_zero star saddle.fits saddle.balanced, pairing_eq_zero new fits before,
    pairing_eq_zero old fits before] at total
  linarith

end Totals

end RuleConsensus
