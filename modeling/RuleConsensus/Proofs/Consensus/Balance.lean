import Mathlib.Algebra.BigOperators.Group.Finset.Piecewise
import Mathlib.Tactic.FieldSimp
import RuleConsensus.Proofs.Consensus.Completed
import RuleConsensus.Proofs.Exact.Cost

set_option autoImplicit false
set_option relaxedAutoImplicit false

namespace RuleConsensus

/-- The entries of local vectors, one vector for each term, with the global indices they are for. -/
def entries (terms : List (Potential ℝ)) (ys : List (List ℝ)) : List (ℕ × ℝ) :=
  (List.zipWith (fun p y => List.zip p.block.indices y) terms ys).flatten

def totalAt (j : ℕ) (l : List (ℕ × ℝ)) : ℝ := ((l.filter (·.1 == j)).map (·.2)).sum

/-- Local vectors whose entries for any global index sum to zero. -/
def Balanced (terms : List (Potential ℝ)) (ys : List (List ℝ)) : Prop :=
  ∀ j, totalAt j (entries terms ys) = 0

def Fits (terms : List (Potential ℝ)) (ys : List (List ℝ)) : Prop :=
  List.Forall₂ (fun p y => y.length = p.block.indices.length) terms ys

/-- The sum over the terms of the products of slice and local vector. -/
noncomputable def pairing (global : List ℝ) (terms : List (Potential ℝ)) (ys : List (List ℝ)) : ℝ :=
  (List.zipWith (fun p y => Vector.dot (p.slice global) y) terms ys).sum

theorem entries_cons (p : Potential ℝ) (terms : List (Potential ℝ)) (y : List ℝ)
    (ys : List (List ℝ)) :
    entries (p :: terms) (y :: ys) = List.zip p.block.indices y ++ entries terms ys := rfl

theorem totalAt_cons (j : ℕ) (e : ℕ × ℝ) (l : List (ℕ × ℝ)) :
    totalAt j (e :: l) = (if e.1 = j then e.2 else 0) + totalAt j l := by
  unfold totalAt
  by_cases h : e.1 = j <;> simp [h]

theorem entries_congr {ps rs : List (Potential ℝ)} (same : List.Forall₂ Potential.SameRule ps rs)
    (ys : List (List ℝ)) : entries rs ys = entries ps ys := by
  induction same generalizing ys with
  | nil => rfl
  | cons same _ ih =>
    cases ys with
    | nil => rfl
    | cons y ys => rw [entries_cons, entries_cons, same.indices_eq, ih ys]

private theorem sum_eq_sum_totalAt (f : ℕ → ℝ) {s : Finset ℕ} {l : List (ℕ × ℝ)}
    (h : ∀ e ∈ l, e.1 ∈ s) :
    (l.map fun e => f e.1 * e.2).sum = ∑ j ∈ s, f j * totalAt j l := by
  induction l with
  | nil => simp [totalAt]
  | cons e l ih =>
    have he : e.1 ∈ s := h e List.mem_cons_self
    have hl : ∀ e ∈ l, e.1 ∈ s := fun e he => h e (List.mem_cons_of_mem _ he)
    have first : ∑ j ∈ s, f j * (if e.1 = j then e.2 else 0) = f e.1 * e.2 := by
      simp [he]
    simp only [totalAt_cons, mul_add, Finset.sum_add_distrib, List.map_cons, List.sum_cons, first,
      ih hl]

private theorem dot_slice (global : List ℝ) {p : Potential ℝ} {y : List ℝ}
    (h : y.length = p.block.indices.length) :
    Vector.dot (p.slice global) y =
      ((List.zip p.block.indices y).map fun e => global.getD e.1 0 * e.2).sum := by
  have hl : (p.slice global).length = y.length := by rw [Potential.slice, List.length_map, h]
  rw [Vector.dot_eq_sum hl, Potential.slice, List.zipWith_map_left, List.map_zip_eq_zipWith]
  rfl

theorem pairing_eq_sum (global : List ℝ) {terms : List (Potential ℝ)} {ys : List (List ℝ)}
    (fits : Fits terms ys) :
    pairing global terms ys =
      ((entries terms ys).map fun e => global.getD e.1 0 * e.2).sum := by
  induction fits with
  | nil => simp [pairing, entries]
  | cons h _ ih =>
    rw [entries_cons, List.map_append, List.sum_append, ← ih, ← dot_slice global h]
    rfl

theorem pairing_eq_zero (global : List ℝ) {terms : List (Potential ℝ)} {ys : List (List ℝ)}
    (fits : Fits terms ys) (balanced : Balanced terms ys) : pairing global terms ys = 0 := by
  have named : ∀ e ∈ entries terms ys, e.1 ∈ ((entries terms ys).map (·.1)).toFinset := by
    intro e he
    exact List.mem_toFinset.mpr (List.mem_map_of_mem he)
  rw [pairing_eq_sum global fits, sum_eq_sum_totalAt (fun j => global.getD j 0) named]
  refine Finset.sum_eq_zero fun j _ => ?_
  rw [balanced j, mul_zero]

namespace Session

open Potential

theorem mean_eq (vs : List ℝ) : mean vs = vs.sum / vs.length := by
  have count : (vs.map fun _ => (1 : ℝ)).sum = vs.length := by simp
  rw [mean, ← count, List.sum_eq_foldl, List.sum_eq_foldl]

private theorem touched {l : List (ℕ × ℝ)} {global : List ℝ} {j : ℕ} {a : ℝ}
    (inside : ∀ e ∈ l, e.1 < global.length) (h : a ∈ proposalsFor l j) : j < global.length := by
  simp only [proposalsFor, List.mem_map, List.mem_filter, beq_iff_eq] at h
  obtain ⟨e, ⟨he, rfl⟩, rfl⟩ := h
  exact inside e he

theorem means_getElem? {l : List (ℕ × ℝ)} {global : List ℝ} {j : ℕ}
    (inside : ∀ e ∈ l, e.1 < global.length) (h : proposalsFor l j ≠ []) :
    (means l global)[j]? = some ((proposalsFor l j).sum / (proposalsFor l j).length) := by
  obtain ⟨v, vs, hv⟩ := List.exists_cons_of_ne_nil h
  have here : j < global.length := touched inside (by rw [hv]; exact List.mem_cons_self)
  rw [← mean_eq, hv]
  simp [means, here, hv]

theorem means_getElem?_of_nil {l : List (ℕ × ℝ)} {j : ℕ} (h : proposalsFor l j = [])
    (global : List ℝ) : (means l global)[j]? = global[j]? := by
  simp [means, h]

theorem sum_map_sub_const (l : List ℝ) (m : ℝ) :
    (l.map fun a => a - m).sum = l.sum - l.length * m := by
  simp only [sub_eq_add_neg, List.sum_map_add]
  simp

theorem sum_missed_eq_zero {l : List (ℕ × ℝ)} {global : List ℝ} (j : ℕ)
    (inside : ∀ e ∈ l, e.1 < global.length) :
    ((proposalsFor l j).map fun a => a - (means l global).getD j 0).sum = 0 := by
  by_cases h : proposalsFor l j = []
  · simp [h]
  · have positive : ((proposalsFor l j).length : ℝ) ≠ 0 := by
      exact_mod_cast List.length_pos_iff.mpr h |>.ne'
    rw [sum_map_sub_const, List.getD_eq_getElem?_getD, means_getElem? inside h,
      Option.getD_some, mul_div_cancel₀ _ positive, sub_self]

theorem inside_of_covered {rho : ℝ} {terms : List (Potential ℝ)} {global : List ℝ}
    (covered : ∀ p ∈ terms, p.Covered global) :
    ∀ e ∈ terms.flatMap (proposed rho), e.1 < global.length := by
  intro e he
  obtain ⟨p, hp, he⟩ := List.mem_flatMap.mp he
  exact (covered p hp).within e.1 (List.of_mem_zip he).1

end Session

namespace Potential

/-- The terms that averaging is about: built, with the step size of the rounds. -/
structure Shares (rho : ℝ) (p : Potential ℝ) : Prop where
  built : p.Built
  stepSize_eq : p.block.stepSize = rho

theorem Shares.stepSize_pos {rho : ℝ} {p : Potential ℝ} (shares : p.Shares rho) : 0 < rho :=
  shares.stepSize_eq ▸ shares.built.sound.stepSize_pos

theorem Shares.sameRule {rho : ℝ} {p r : Potential ℝ} (shares : p.Shares rho)
    (same : SameRule p r) (hy : r.block.y.length = r.block.arity) : r.Shares rho := by
  obtain ⟨⟨origin, constructed, kept, _⟩, hs⟩ := shares
  refine ⟨⟨origin, constructed, kept.trans same, hy⟩, ?_⟩
  obtain ⟨x, y, z, rfl⟩ := same
  exact hs

theorem Shares.length_y {rho : ℝ} {p : Potential ℝ} (shares : p.Shares rho) :
    p.block.y.length = p.block.indices.length := by
  rw [shares.built.sound.length_y, shares.built.sound.length_indices]

theorem Shares.indices_pos {rho : ℝ} {p : Potential ℝ} (shares : p.Shares rho) :
    0 < p.block.indices.length := by
  rw [shares.built.sound.length_indices]
  exact shares.built.sound.arity_pos

theorem Solved.shares {rho : ℝ} {global : List ℝ} {p q : Potential ℝ} (shares : p.Shares rho)
    (solved : Solved global p q) : q.Shares rho := by
  obtain ⟨_, _, x, _, rfl⟩ := solved
  exact shares.sameRule ⟨_, _, _, rfl⟩ shares.built.sound.length_y

/-- A term that takes its slice moves every dual entry by the step size times what its proposal
misses the new entry by. -/
theorem Committed.zip_dual {rho : ℝ} {global : List ℝ} {q r : Potential ℝ} (shares : q.Shares rho)
    (long : q.block.indices.length ≤ q.block.x.length) (committed : Committed global q r) :
    List.zip r.block.indices r.block.y =
      (Session.proposed rho q).map fun e => (e.1, rho * (e.2 - global.getD e.1 0)) := by
  have hy := shares.length_y
  have hx := committed.length_x hy shares.indices_pos long
  have nonzero := shares.stepSize_pos.ne'
  obtain ⟨_, _, rfl⟩ := (committed_iff_of_length_eq hx hy).mp committed
  apply List.ext_getElem
  · simp [Session.proposed, withConsensus, withDual, slice, hx, hy]
  · intro i hi hj
    have move (x y z : ℝ) : y + rho * (x - z) = rho * (x + y / rho - z) := by
      field_simp
      ring
    simp [Session.proposed, withConsensus, withDual, slice, Vector.sub, Vector.add,
      Vector.divide, shares.stepSize_eq, move]

end Potential

theorem balanced_of_committed {rho : ℝ} {solved after : List (Potential ℝ)} {old : List ℝ}
    (shared : ∀ q ∈ solved, q.Shares rho) (covered : ∀ q ∈ solved, q.Covered old)
    (committed : List.Forall₂ (Potential.Committed
      (Session.means (solved.flatMap (Session.proposed rho)) old)) solved after) :
    Balanced after (after.map (·.block.y)) := by
  intro j
  -- The entries are those of the proposals, moved; so for one index they sum to what these miss.
  generalize hl : solved.flatMap (Session.proposed rho) = l at committed
  generalize hn : Session.means l old = new at committed
  have inside : ∀ e ∈ l, e.1 < old.length := by
    rw [← hl]
    exact Session.inside_of_covered covered
  have moved : entries after (after.map (·.block.y)) =
      l.map fun e => (e.1, rho * (e.2 - new.getD e.1 0)) := by
    rw [← hl]
    clear hl hn inside
    induction committed with
    | nil => rfl
    | cons h _ ih =>
      rw [List.forall_mem_cons] at shared covered
      rw [List.map_cons, entries_cons, List.flatMap_cons, List.map_append,
        h.zip_dual shared.1 covered.1.primal, ih shared.2 covered.2]
  have total : totalAt j (entries after (after.map (·.block.y))) =
      ((Session.proposalsFor l j).map fun a => rho * (a - new.getD j 0)).sum := by
    rw [moved, totalAt, Session.proposalsFor, List.filter_map, List.map_map, List.map_map]
    congr 1
    apply List.map_congr_left
    intro e he
    have index : e.1 = j := by simpa using (List.mem_filter.mp he).2
    simp [index]
  rw [total, List.sum_map_mul_left, ← hn, Session.sum_missed_eq_zero j inside, mul_zero]

/-- Whatever the duals were and whatever the terms solved to, the duals balance after a round. -/
theorem Session.balanced_of_shared {rho : ℝ} {s after : Session ℝ}
    (shared : ∀ p ∈ s.terms, p.Shares rho) (completed : (s.round rho).value = .done after) :
    Balanced after.terms (after.terms.map (·.block.y)) := by
  obtain ⟨solved, solves, averaged, commits⟩ := round_eq_done_iff.mp completed
  obtain ⟨covered, means_eq⟩ := average_eq_some_iff.mp averaged
  rw [← means_eq] at commits
  exact balanced_of_committed (forall_right solves shared fun _ _ shares solved =>
    solved.shares shares) covered commits

end RuleConsensus
