import RuleConsensus.Proofs.Consensus.Descent

set_option autoImplicit false
set_option relaxedAutoImplicit false

namespace RuleConsensus

def entriesAt (j : ℕ) (l : List (ℕ × ℝ)) : List ℝ := (l.filter (·.1 == j)).map (·.2)

/-- If the entries of a list miss a number by nothing in total, then their squared distances from
any other number exceed those from it, for each entry by the squared distance of the two. -/
theorem sum_sq_sub_eq {m : ℝ} {l : List ℝ} (missed : (l.map fun a => a - m).sum = 0) (t : ℝ) :
    (l.map fun a => (a - t) ^ 2).sum =
      (l.map fun a => (a - m) ^ 2).sum + l.length * (m - t) ^ 2 := by
  have expand : (l.map fun a => (a - t) ^ 2) =
      l.map fun a => (a - m) ^ 2 + (2 * (m - t) * (a - m) + (m - t) ^ 2) := by
    refine List.map_congr_left fun a _ => ?_
    ring
  rw [expand, List.sum_map_add, List.sum_map_add, List.sum_map_mul_left, missed, mul_zero, zero_add,
    List.map_const', List.sum_replicate, nsmul_eq_mul]

section Entries

variable {terms : List (Potential ℝ)} {xs ys : List (List ℝ)}

theorem length_entriesAt (fits : Fits terms ys) (j : ℕ) :
    (entriesAt j (entries terms ys)).length =
      (terms.map fun p => p.block.indices.count j).sum := by
  induction fits with
  | nil => rfl
  | @cons p y terms ys h _ ih =>
    have first : ((List.zip p.block.indices y).filter (·.1 == j)).length =
        p.block.indices.count j := by
      have indices : (List.zip p.block.indices y).map Prod.fst = p.block.indices :=
        List.map_fst_zip h.ge
      rw [← List.countP_eq_length_filter, List.count]
      nth_rewrite 2 [← indices]
      rw [List.countP_map]
      rfl
    rw [entriesAt, List.length_map] at ih ⊢
    rw [entries_cons, List.filter_append, List.length_append, first, ih, List.map_cons,
      List.sum_cons]

theorem totalAt_append (j : ℕ) (l l' : List (ℕ × ℝ)) :
    totalAt j (l ++ l') = totalAt j l + totalAt j l' := by
  rw [totalAt, List.filter_append, List.map_append, List.sum_append]
  rfl

private theorem totalAt_zip_propose (rho : ℝ) (j : ℕ) {indices : List ℕ} {x y : List ℝ}
    (hx : x.length = indices.length) (hy : y.length = indices.length) :
    totalAt j (List.zip indices (Vector.add x (Vector.divide y rho))) =
      totalAt j (List.zip indices x) + totalAt j (List.zip indices y) / rho := by
  induction indices generalizing x y with
  | nil => simp [totalAt]
  | cons i indices ih =>
    obtain ⟨a, x, rfl⟩ := List.exists_cons_of_length_eq_add_one hx
    obtain ⟨b, y, rfl⟩ := List.exists_cons_of_length_eq_add_one hy
    have rest := ih (by simpa using hx) (by simpa using hy)
    simp only [Vector.add, Vector.divide, List.map_cons, List.zipWith_cons_cons,
      List.zip_cons_cons, totalAt_cons] at rest ⊢
    rw [rest]
    by_cases here : i = j
    · simp only [if_pos here]
      ring
    · simp only [if_neg here]
      ring

theorem totalAt_propose (rho : ℝ) (j : ℕ) (fits : Fits terms xs) (fits' : Fits terms ys) :
    totalAt j (entries terms
        (List.zipWith (fun x y => Vector.add x (Vector.divide y rho)) xs ys)) =
      totalAt j (entries terms xs) + totalAt j (entries terms ys) / rho := by
  induction fits generalizing ys with
  | nil => simp [entries, totalAt]
  | cons hx _ ih =>
    cases fits' with
    | cons hy rest =>
      simp only [List.zipWith_cons_cons, entries_cons, totalAt_append, ih rest,
        totalAt_zip_propose rho j hx hy]
      ring

theorem fits_propose (rho : ℝ) (fits : Fits terms xs) (fits' : Fits terms ys) :
    Fits terms (List.zipWith (fun x y => Vector.add x (Vector.divide y rho)) xs ys) := by
  induction fits generalizing ys with
  | nil => exact .nil
  | cons hx _ ih =>
    cases fits' with
    | cons hy rest =>
      refine .cons ?_ (ih rest)
      rw [Vector.length_add, Vector.length_divide, hx, hy, min_self]

end Entries

namespace Potential

/-- What a completed round keeps of a term: its rule, and an entry of each vector at each
position. -/
structure Kept (p r : Potential ℝ) : Prop where
  sameRule : SameRule p r
  length_x : r.block.x.length = r.block.indices.length
  length_y : r.block.y.length = r.block.indices.length

theorem Kept.shares {rho : ℝ} {p r : Potential ℝ} (kept : Kept p r) (shares : p.Shares rho) :
    r.Shares rho := by
  refine shares.sameRule kept.sameRule ?_
  rw [kept.length_y]
  obtain ⟨x, y, z, rfl⟩ := kept.sameRule
  exact shares.built.sound.length_indices

theorem kept_of_committed {rho : ℝ} {old new : List ℝ} {p q r : Potential ℝ}
    (shares : p.Shares rho) (solved : Solved old p q) (covered : q.Covered old)
    (committed : Committed new q r) : Kept p r := by
  have same := solved.sameRule.trans committed.sameRule
  have hy := (solved.shares shares).length_y
  have hx := committed.length_x hy (solved.shares shares).indices_pos covered.primal
  obtain ⟨_, _, rfl⟩ := (committed_iff_of_length_eq hx hy).mp committed
  refine ⟨same, hx, ?_⟩
  change (List.zipWith _ q.block.y (Vector.sub q.block.x (q.slice new))).length =
    q.block.indices.length
  rw [List.length_zipWith, Vector.length_sub, length_slice, hx, hy, min_self, min_self]

end Potential

namespace Session

open Potential

def Touches (s : Session ℝ) (j : ℕ) : Prop := ∃ p ∈ s.terms, j ∈ p.block.indices

def primalsAt (s : Session ℝ) (j : ℕ) : List ℝ :=
  entriesAt j (entries s.terms (s.terms.map (·.block.x)))

/-- What the terms propose for a global index in a round: the primal entries they solved to, plus
their dual entries from before the round over the step size. -/
noncomputable def targets (rho : ℝ) (s after : Session ℝ) (j : ℕ) : List ℝ :=
  entriesAt j (entries s.terms (List.zipWith (fun x y => Vector.add x (Vector.divide y rho))
    (after.terms.map (·.block.x)) (s.terms.map (·.block.y))))

noncomputable def misfit (rho : ℝ) (s after : Session ℝ) (j : ℕ) (t : ℝ) : ℝ :=
  ((targets rho s after j).map fun a => (a - t) ^ 2).sum

/-- What averaging leaves behind: balanced duals; an entry of primal and dual at every position;
where some term is about a global entry, the one number nearest to what was proposed for it, in the
sum of squared distances; every other entry as it was; and every term with its slice. -/
structure Conserves (rho : ℝ) (s after : Session ℝ) : Prop where
  balanced : Balanced after.terms (after.terms.map (·.block.y))
  length_x : ∀ r ∈ after.terms, r.block.x.length = r.block.indices.length
  length_y : ∀ r ∈ after.terms, r.block.y.length = r.block.indices.length
  nearest : ∀ j, s.Touches j → ∃ a, after.global[j]? = some a ∧
    ∀ t, t ≠ a → misfit rho s after j a < misfit rho s after j t
  untouched : ∀ j, ¬s.Touches j → after.global[j]? = s.global[j]?
  sliced : ∀ r ∈ after.terms, gather after.global r.block.indices = .ok r.block.z

variable {rho : ℝ} {s after : Session ℝ}

/-- What a round averages can be read off the sessions around it: solves keep the duals, and
commits keep the primals. -/
theorem targets_eq {solved : List (Potential ℝ)} {old new : List ℝ}
    (solves : List.Forall₂ (Solved old) s.terms solved)
    (commits : List.Forall₂ (Committed new) solved after.terms) (j : ℕ) :
    targets rho s after j = proposalsFor (solved.flatMap (proposed rho)) j := by
  have proposed : entries s.terms (List.zipWith (fun x y => Vector.add x (Vector.divide y rho))
      (after.terms.map (·.block.x)) (s.terms.map (·.block.y))) =
        solved.flatMap (proposed rho) := by
    generalize s.terms = ps, after.terms = rs at solves commits
    induction solves generalizing rs with
    | nil => rfl
    | @cons p q ps qs solved _ ih =>
      cases commits with
      | @cons _ r _ rs committed rest =>
        have first : proposed rho q =
            List.zip p.block.indices (Vector.add r.block.x (Vector.divide p.block.y rho)) := by
          obtain ⟨_, _, x, _, rfl⟩ := solved
          obtain ⟨_, _, stepped⟩ := committed
          obtain ⟨y, rfl⟩ := exists_dual_of_dualStep stepped
          rfl
        rw [List.map_cons, List.map_cons, List.zipWith_cons_cons, entries_cons, ih _ rest,
          List.flatMap_cons, first]
  rw [targets, proposed]
  rfl

theorem kept_of_round (shared : ∀ p ∈ s.terms, p.Shares rho)
    (completed : (s.round rho).value = .done after) : List.Forall₂ Kept s.terms after.terms := by
  obtain ⟨solved, solves, averaged, commits⟩ := round_eq_done_iff.mp completed
  have covered := (average_eq_some_iff.mp averaged).1
  exact forall₂_through solves ((List.forall₂_and_left _ _).mpr ⟨covered, commits⟩) shared
    (fun _ _ => trivial)
    fun _ _ _ shares _ solved committed => kept_of_committed shares solved committed.1 committed.2

theorem shared_of_round (shared : ∀ p ∈ s.terms, p.Shares rho)
    (completed : (s.round rho).value = .done after) : ∀ r ∈ after.terms, r.Shares rho :=
  forall_right (kept_of_round shared completed) shared fun _ _ shares kept => kept.shares shares

section Targets

variable (shared : ∀ p ∈ s.terms, p.Shares rho)
  (completed : (s.round rho).value = .done after) (j : ℕ)

include shared completed

private theorem fits_primals_duals : Fits s.terms (after.terms.map (·.block.x)) ∧
    Fits s.terms (s.terms.map (·.block.y)) := by
  refine ⟨?_, ?_⟩
  · rw [Fits, List.forall₂_map_right_iff]
    refine (kept_of_round shared completed).imp fun p r kept => ?_
    rw [kept.length_x, kept.sameRule.indices_eq]
  · rw [Fits, List.forall₂_map_right_iff, List.forall₂_same]
    intro p hp
    exact (shared p hp).length_y

theorem primalsAt_eq :
    after.primalsAt j = entriesAt j (entries s.terms (after.terms.map (·.block.x))) := by
  rw [primalsAt, entries_congr ((kept_of_round shared completed).imp fun _ _ kept => kept.sameRule)]

theorem length_targets : (targets rho s after j).length =
    (s.terms.map fun p => p.block.indices.count j).sum := by
  obtain ⟨fits, fits'⟩ := fits_primals_duals shared completed
  exact length_entriesAt (fits_propose rho fits fits') j

theorem sum_targets : (targets rho s after j).sum = (after.primalsAt j).sum +
    totalAt j (entries s.terms (s.terms.map (·.block.y))) / rho := by
  obtain ⟨fits, fits'⟩ := fits_primals_duals shared completed
  rw [primalsAt_eq shared completed]
  exact totalAt_propose rho j fits fits'

theorem length_primalsAt : (after.primalsAt j).length = (targets rho s after j).length := by
  obtain ⟨fits, _⟩ := fits_primals_duals shared completed
  rw [primalsAt_eq shared completed, length_targets shared completed, length_entriesAt fits]

theorem length_targets_pos (touches : s.Touches j) : 0 < (targets rho s after j).length := by
  obtain ⟨p, hp, hj⟩ := touches
  have here : 0 < p.block.indices.count j := List.count_pos_iff.mpr hj
  have among : p.block.indices.count j ≤ (s.terms.map fun p => p.block.indices.count j).sum :=
    List.le_sum_of_mem (List.mem_map_of_mem hp)
  rw [length_targets shared completed]
  omega

theorem getElem?_of_touches (touches : s.Touches j) : after.global[j]? =
    some ((targets rho s after j).sum / (targets rho s after j).length) := by
  have proposed := length_targets_pos shared completed j touches
  obtain ⟨solved, solves, averaged, commits⟩ := round_eq_done_iff.mp completed
  obtain ⟨covered, means_eq⟩ := average_eq_some_iff.mp averaged
  rw [targets_eq solves commits] at proposed ⊢
  rw [← means_eq]
  exact means_getElem? (inside_of_covered covered) (List.ne_nil_of_length_pos proposed)

/-- Nothing else is as near to what the round proposes for an entry as the entry. -/
theorem nearest_of_touches (touches : s.Touches j) : ∃ a, after.global[j]? = some a ∧
    ∀ t, t ≠ a → misfit rho s after j a < misfit rho s after j t := by
  have positive : (0 : ℝ) < (targets rho s after j).length := by
    exact_mod_cast length_targets_pos shared completed j touches
  refine ⟨_, getElem?_of_touches shared completed j touches, ?_⟩
  intro t ht
  generalize hm : (targets rho s after j).sum / (targets rho s after j).length = m at ht ⊢
  have missed : ((targets rho s after j).map fun a => a - m).sum = 0 := by
    rw [sum_map_sub_const, ← hm, mul_div_cancel₀ _ positive.ne', sub_self]
  have apart : 0 < (m - t) ^ 2 := sq_pos_of_ne_zero (sub_ne_zero.mpr ht.symm)
  rw [misfit, misfit, sum_sq_sub_eq missed t]
  have more := mul_pos positive apart
  linarith

theorem mean_of_balanced (balanced : Balanced s.terms (s.terms.map (·.block.y)))
    (touches : s.Touches j) : after.global[j]? = some (mean (after.primalsAt j)) := by
  rw [getElem?_of_touches shared completed j touches, sum_targets shared completed, balanced j,
    zero_div, add_zero, mean_eq, length_primalsAt shared completed]

end Targets

theorem getElem?_of_not_touches (completed : (s.round rho).value = .done after) {j : ℕ}
    (untouched : ¬s.Touches j) : after.global[j]? = s.global[j]? := by
  obtain ⟨solved, solves, averaged, _⟩ := round_eq_done_iff.mp completed
  have elsewhere : ∀ p ∈ s.terms, j ∉ p.block.indices := fun p hp hj => untouched ⟨p, hp, hj⟩
  have nowhere : ∀ q ∈ solved, j ∉ q.block.indices := by
    refine forall_right solves elsewhere fun p q apart solved => ?_
    rw [solved.sameRule.indices_eq]
    exact apart
  have none : proposalsFor (solved.flatMap (proposed rho)) j = [] := by
    simp only [proposalsFor, List.map_eq_nil_iff, List.filter_eq_nil_iff, List.mem_flatMap,
      beq_iff_eq]
    rintro ⟨i, a⟩ ⟨q, hq, he⟩ rfl
    exact nowhere q hq (List.of_mem_zip he).1
  rw [← (average_eq_some_iff.mp averaged).2, means_getElem?_of_nil none]

theorem conserves_of_round (shared : ∀ p ∈ s.terms, p.Shares rho)
    (completed : (s.round rho).value = .done after) : Conserves rho s after where
  balanced := balanced_of_shared shared completed
  length_x := forall_right (kept_of_round shared completed) shared fun _ _ _ kept => kept.length_x
  length_y := forall_right (kept_of_round shared completed) shared fun _ _ _ kept => kept.length_y
  nearest j touches := nearest_of_touches shared completed j touches
  untouched _ untouched := getElem?_of_not_touches completed untouched
  sliced := by
    obtain ⟨solved, solves, _, commits⟩ := round_eq_done_iff.mp completed
    refine forall_right commits (fun _ _ => trivial) fun q r _ committed => ?_
    obtain ⟨inside, _, stepped⟩ := committed
    obtain ⟨y, rfl⟩ := exists_dual_of_dualStep stepped
    exact gather_eq_ok_iff.mpr ⟨inside, rfl⟩

theorem shared_throughout {trace : ℕ → Session ℝ} {n : ℕ}
    (shared : ∀ p ∈ (trace 0).terms, p.Shares rho)
    (completed : ∀ k < n, ((trace k).round rho).value = .done (trace (k + 1))) :
    ∀ k ≤ n, ∀ p ∈ (trace k).terms, p.Shares rho := by
  intro k
  induction k with
  | zero =>
    intro _
    exact shared
  | succ k ih =>
    intro hk
    exact shared_of_round (ih (by omega)) (completed k (by omega))

noncomputable def hinges (global : List ℝ) (a : ℝ) : Session ℝ :=
  ⟨global, (tug global a).terms.take 2⟩

theorem hinges_exact (global : List ℝ) (a : ℝ) : ∀ p ∈ (hinges global a).terms, p.Exact 1 := by
  intro p hp
  exact tug_exact global a p (List.mem_of_mem_take hp)

theorem hinges_completes {global : List ℝ} (long : 2 < global.length) (a : ℝ) :
    ∃ after last, ((hinges global a).round 1).value = .done after ∧
      (after.round 1).value = .done last := by
  have exact := hinges_exact global a
  have within : ∀ p ∈ (hinges global a).terms, p.Within global := by
    simp only [hinges, tug, List.take_succ_cons, List.take_zero, List.forall_mem_cons,
      Potential.Within, List.not_mem_nil, false_implies, implies_true, and_true]
    omega
  obtain ⟨after, first⟩ := round_completes exact within
  obtain ⟨last, second⟩ := round_completes (exact_of_round exact first)
    (within_after_round exact first)
  exact ⟨after, last, first, second⟩

/-- In a run of completed rounds, from whatever duals it starts, every round conserves what
averaging conserves. Every round but the first sets the entries that terms are about to the means
of the primal entries for them. -/
theorem conserves_throughout {trace : ℕ → Session ℝ} {n : ℕ}
    (shared : ∀ p ∈ (trace 0).terms, p.Shares rho)
    (completed : ∀ k < n, ((trace k).round rho).value = .done (trace (k + 1))) :
    ∀ k < n, Conserves rho (trace k) (trace (k + 1)) ∧
      (0 < k → ∀ j, (trace k).Touches j →
        (trace (k + 1)).global[j]? = some (mean ((trace (k + 1)).primalsAt j))) := by
  intro k hk
  have always := shared_throughout shared completed
  refine ⟨conserves_of_round (always k hk.le) (completed k hk), ?_⟩
  intro later j touches
  obtain ⟨i, rfl⟩ : ∃ i, k = i + 1 := ⟨k - 1, by omega⟩
  -- The round before has left the duals balanced.
  have before := conserves_of_round (always i (by omega)) (completed i (by omega))
  exact mean_of_balanced (always (i + 1) hk.le) (completed (i + 1) hk) j before.balanced touches

/-- Duals that do not balance, and a last entry that no term is about. -/
theorem conserves_throughout_hinges :
    ¬Balanced (hinges [3, 1, 4, 7] 2).terms ((hinges [3, 1, 4, 7] 2).terms.map (·.block.y)) ∧
      ∃ after last, ((hinges [3, 1, 4, 7] 2).round 1).value = .done after ∧
        (after.round 1).value = .done last ∧
        Conserves 1 (hinges [3, 1, 4, 7] 2) after ∧ Conserves 1 after last ∧
          ∀ j, after.Touches j → last.global[j]? = some (mean (last.primalsAt j)) := by
  refine ⟨fun balanced => ?_, ?_⟩
  · have total : totalAt 0 [(0, 0), (1, 0), (2, 0), (0, -2)] = 0 := balanced 0
    simp [totalAt] at total
  · have long : 2 < [(3 : ℝ), 1, 4, 7].length := by decide
    obtain ⟨after, last, first, second⟩ := hinges_completes long 2
    let trace : ℕ → Session ℝ := fun k =>
      if k = 0 then hinges [3, 1, 4, 7] 2 else if k = 1 then after else last
    have completed : ∀ k < 2, ((trace k).round 1).value = .done (trace (k + 1)) := by
      intro k hk
      obtain rfl | rfl : k = 0 ∨ k = 1 := by omega
      · exact first
      · exact second
    have shared : ∀ p ∈ (trace 0).terms, p.Shares 1 := fun p hp => (hinges_exact _ _ p hp).shares
    have run := conserves_throughout shared completed
    obtain ⟨start, _⟩ := run 0 (by omega)
    obtain ⟨next, means⟩ := run 1 (by omega)
    exact ⟨after, last, first, second, start, next, means (by omega)⟩

end Session

end RuleConsensus
