import RuleConsensus.Proofs.Consensus.Descent
import RuleConsensus.Proofs.Consensus.SolvePass

/-!
A term solves from its own data and the global vector, which the solve phase does not change. So it
comes out the same at any place in the list, and in any interleaving with the others.
-/

set_option autoImplicit false
set_option relaxedAutoImplicit false

namespace RuleConsensus

section Lists

variable {β γ : Type} {R : β → γ → Prop}

def reorder (order : List ℕ) (l : List β) : List β := order.filterMap (l[·]?)

theorem forall₂_reorder {bs : List β} {cs : List γ} (related : List.Forall₂ R bs cs)
    (order : List ℕ) : List.Forall₂ R (reorder order bs) (reorder order cs) := by
  induction order with
  | nil => exact .nil
  | cons i order ih =>
    have entry : (∃ b c, bs[i]? = some b ∧ cs[i]? = some c ∧ R b c) ∨
        bs[i]? = none ∧ cs[i]? = none := by
      by_cases inside : i < bs.length
      · have inside' : i < cs.length := related.length_eq ▸ inside
        exact .inl ⟨bs[i], cs[i], List.getElem?_eq_getElem inside,
          List.getElem?_eq_getElem inside', related.get inside inside'⟩
      · refine .inr ⟨List.getElem?_eq_none (by omega), List.getElem?_eq_none ?_⟩
        rw [← related.length_eq]
        omega
    unfold reorder at ih ⊢
    obtain ⟨b, c, hb, hc, h⟩ | ⟨hb, hc⟩ := entry
    · rw [List.filterMap_cons_some hb, List.filterMap_cons_some hc]
      exact .cons h ih
    · rw [List.filterMap_cons_none hb, List.filterMap_cons_none hc]
      exact ih

theorem filterMap_getElem?_range (l : List β) :
    (List.range l.length).filterMap (l[·]?) = l := by
  induction l with
  | nil => rfl
  | cons b l ih =>
    have later : (fun i => (b :: l)[i]?) ∘ Nat.succ = (l[·]?) := by
      funext i
      exact List.getElem?_cons_succ
    rw [List.length_cons, List.range_succ_eq_map, List.filterMap_cons_some List.getElem?_cons_zero,
      List.filterMap_map, later, ih]

theorem reorder_perm {order : List ℕ} {l : List β} (perm : order.Perm (List.range l.length)) :
    (reorder order l).Perm l := by
  have h := perm.filterMap (l[·]?)
  rw [filterMap_getElem?_range] at h
  exact h

end Lists

section Turns

variable {α : Type} [Scalar α]

/-- How far a term has come in a solve phase in which the terms take turns. -/
inductive Stage (α : Type)
  | waiting
  | gathered (slice : List α)
  | seated
  | finished (failure : Option (Failure (TermError α)))

structure Worker (α : Type) where
  term : Potential α
  stage : Stage α

namespace Worker

def start (p : Potential α) : Worker α := ⟨p, .waiting⟩

def finish (u : Update (Potential α) (TermError α)) : Worker α := ⟨u.state, .finished u.failure⟩

/-- One turn of a term: gather its slice, take it as consensus, or solve. -/
def advance (global : List α) (w : Worker α) : Worker α :=
  match w.stage with
  | .waiting =>
    match gather global w.term.block.indices with
    | .ok v => ⟨w.term, .gathered v⟩
    | .error e => finish (.failed w.term (.reported e))
  | .gathered v =>
    let u := w.term.setConsensus v
    match u.failure with
    | some _ => finish u
    | none => ⟨u.state, .seated⟩
  | .seated => finish w.term.solve.value
  | .finished _ => w

theorem advance_finish (global : List α) (u : Update (Potential α) (TermError α)) (n : ℕ) :
    (advance global)^[n] (finish u) = finish u :=
  Function.iterate_fixed rfl n

/-- Three turns are enough for a term, and come to the step that it makes alone. -/
theorem advance_start (global : List α) (p : Potential α) (n : ℕ) :
    (advance global)^[n + 3] (start p) = finish (p.stepFrom global).value := by
  rw [Function.iterate_succ_apply, Function.iterate_succ_apply, Function.iterate_succ_apply]
  unfold Potential.stepFrom
  cases hg : gather global p.block.indices with
  | error e =>
    have first : advance global (start p) = finish (.failed p (.reported e)) := by
      simp only [advance, start, hg]
    rw [first]
    exact advance_finish global _ (n + 2)
  | ok v =>
    have first : advance global (start p) = ⟨p, .gathered v⟩ := by
      simp only [advance, start, hg]
    rw [first]
    dsimp only [Potential.proximalStep]
    cases hu : (p.setConsensus v).failure with
    | some e =>
      have second : advance global ⟨p, .gathered v⟩ = finish (p.setConsensus v) := by
        simp only [advance, hu]
      rw [second]
      exact advance_finish global _ (n + 1)
    | none =>
      have second : advance global ⟨p, .gathered v⟩ = ⟨(p.setConsensus v).state, .seated⟩ := by
        simp only [advance, hu]
      rw [second]
      exact advance_finish global _ n

end Worker

/-- The terms in turns. The schedule names the position whose turn it is. -/
def takeTurns (global : List α) : List ℕ → List (Worker α) → List (Worker α)
  | [], ws => ws
  | k :: schedule, ws => takeTurns global schedule (ws.modify k (Worker.advance global))

theorem takeTurns_getElem? (global : List α) (schedule : List ℕ) (ws : List (Worker α)) (k : ℕ) :
    (takeTurns global schedule ws)[k]? =
      ws[k]?.map (Worker.advance global)^[schedule.count k] := by
  induction schedule generalizing ws with
  | nil => simp [takeTurns]
  | cons i schedule ih =>
    rw [takeTurns, ih, List.getElem?_modify, List.count_cons]
    by_cases here : i = k
    · subst here
      simp
    · simp [here]

end Turns

namespace Session

open Potential

variable {rho : ℝ}

theorem proposalsFor_perm {l l' : List (ℕ × ℝ)} (perm : l.Perm l') (j : ℕ) :
    (proposalsFor l j).Perm (proposalsFor l' j) :=
  (perm.filter _).map _

theorem mean_perm {vs ws : List ℝ} (perm : vs.Perm ws) : mean vs = mean ws := by
  rw [mean_eq, mean_eq, perm.sum_eq, perm.length_eq]

theorem means_perm {l l' : List (ℕ × ℝ)} (perm : l.Perm l') (global : List ℝ) :
    means l global = means l' global := by
  unfold means
  congr 1
  funext j old
  have same : (proposalsFor l j).Perm (proposalsFor l' j) := proposalsFor_perm perm j
  cases hv : proposalsFor l j with
  | nil =>
    rw [hv] at same
    rw [same.nil_eq]
  | cons v vs =>
    rw [hv] at same
    obtain ⟨w, ws, hw⟩ : ∃ w ws, proposalsFor l' j = w :: ws :=
      List.exists_cons_of_ne_nil fun none => by simp [none] at same
    rw [hw] at same ⊢
    exact mean_perm same

theorem average_perm {ps qs : List (Potential ℝ)} (perm : ps.Perm qs) (global : List ℝ) :
    average rho ps global = average rho qs global := by
  ext new
  rw [average_eq_some_iff, average_eq_some_iff, means_perm (perm.flatMap_right _)]
  simp only [perm.mem_iff]

theorem residual_perm {ps qs : List (Potential ℝ)} (perm : ps.Perm qs) :
    residual ps = residual qs := by
  have largest : (ps.map fun p => p.block.primalResidual.getD 0).foldl Scalar.larger 0 =
      (qs.map fun p => p.block.primalResidual.getD 0).foldl Scalar.larger 0 := by
    refine (perm.map _).foldl_eq' (fun a _ b _ m => ?_) 0
    simp only [Scalar.larger_real]
    exact max_right_comm m _ _
  ext d
  rw [residual_eq_some_iff, residual_eq_some_iff, largest]
  simp only [perm.mem_iff]

def reordered (order : List ℕ) (s : Session ℝ) : Session ℝ := ⟨s.global, reorder order s.terms⟩

variable {order : List ℕ} {s after : Session ℝ}

theorem length_terms_of_round (completed : (s.round rho).value = .done after) :
    after.terms.length = s.terms.length := by
  obtain ⟨solved, solves, _, commits⟩ := round_eq_done_iff.mp completed
  rw [← commits.length_eq, ← solves.length_eq]

/-- A round goes through in any order, and leads to the same session but for the order. -/
theorem round_reordered (perm : order.Perm (List.range s.terms.length))
    (completed : (s.round rho).value = .done after) :
    ((s.reordered order).round rho).value = .done (after.reordered order) := by
  obtain ⟨solved, solves, averaged, commits⟩ := round_eq_done_iff.mp completed
  have perm' : (reorder order solved).Perm solved := reorder_perm (solves.length_eq ▸ perm)
  exact round_eq_done_iff.mpr ⟨reorder order solved, forall₂_reorder solves order,
    (average_perm perm' s.global).trans averaged, forall₂_reorder commits order⟩

theorem roundsAfter_reordered (n completed : ℕ) (last : ℝ)
    (perm : order.Perm (List.range s.terms.length))
    (finished : (roundsAfter rho completed last n s).value.failure = none) :
    (roundsAfter rho completed last n (s.reordered order)).value =
      ⟨(roundsAfter rho completed last n s).value.session.reordered order,
        (roundsAfter rho completed last n s).value.residual, none⟩ := by
  induction n generalizing s completed last with
  | zero => rfl
  | succ n ih =>
    cases failure : (s.round rho).value.failure with
    | some e => simp [roundsAfter, failure] at finished
    | none =>
      have done := Update.eq_done_iff.mpr ⟨failure, rfl⟩
      generalize (s.round rho).value.state = after at done
      have done' := round_reordered perm done
      have perm' : order.Perm (List.range after.terms.length) := by
        rw [length_terms_of_round done]
        exact perm
      have alike : residual (after.reordered order).terms = residual after.terms :=
        residual_perm (reorder_perm perm')
      simp only [roundsAfter, Logged.value_bind, done, done', Update.failure_done,
        Update.state_done, alike] at finished ⊢
      cases found : residual after.terms with
      | none =>
        rw [found] at finished
        cases finished
      | some latest =>
        rw [found] at finished
        exact ih (completed + 1) latest perm' finished

/-- The order of the terms does not show. Whatever its numbers are, a term that the solve phase
reaches comes out of it as it would alone, wherever it stands and however the terms take turns; and
in exact arithmetic any number of rounds lead to the same global vector and the same residual, and
leave the same terms, in their new order. -/
theorem order_irrelevant :
    (∀ (α : Type) [Scalar α] (global : List α) (terms : List (Potential α)),
      (∀ order : List ℕ, order.Perm (List.range terms.length) →
        (∀ solved, (solveAll global terms).value = .done solved →
          (solveAll global (reorder order terms)).value = .done (reorder order solved)) ∧
        ∀ k p, (reorder order terms)[k]? = some p → Reaches global (reorder order terms) k →
          (solveAll global (reorder order terms)).value.state[k]? =
            some (p.stepFrom global).value.state) ∧
      ∀ schedule k p, terms[k]? = some p → 3 ≤ schedule.count k →
        (takeTurns global schedule (terms.map Worker.start))[k]? =
          some (Worker.finish (p.stepFrom global).value)) ∧
    ∀ (rho : ℝ) (s : Session ℝ) (order : List ℕ) (n : ℕ),
      order.Perm (List.range s.terms.length) → (rounds rho n s).value.failure = none →
        (rounds rho n (s.reordered order)).value =
          ⟨(rounds rho n s).value.session.reordered order, (rounds rho n s).value.residual,
            none⟩ := by
  refine ⟨fun α _ global terms => ⟨fun order _ => ⟨?_, ?_⟩, ?_⟩, ?_⟩
  · intro solved done
    rw [solveAll_eq_done_iff] at done ⊢
    exact forall₂_reorder done order
  · intro k p here reaches
    rw [solveAll_getElem?_of_reaches reaches, here, Option.map_some]
  · intro schedule k p here turns
    obtain ⟨n, hn⟩ : ∃ n, schedule.count k = n + 3 := ⟨schedule.count k - 3, by omega⟩
    rw [takeTurns_getElem?, List.getElem?_map, here, Option.map_some, Option.map_some, hn,
      Worker.advance_start]
  · intro rho s order n perm finished
    exact roundsAfter_reordered n 0 0 perm finished

/-- The hard rule of a tug in front, and turns in which the terms overtake each other. -/
theorem order_irrelevant_tug :
    (∃ p, (tug [3, 1, 4] 2).terms[1]? = some p ∧
      (takeTurns [3, 1, 4] [2, 0, 1, 1, 2, 0, 0, 1, 2]
        ((tug [3, 1, 4] 2).terms.map Worker.start))[1]? =
          some (Worker.finish (p.stepFrom [3, 1, 4]).value)) ∧
    (rounds 1 3 (tug [3, 1, 4] 2)).value.failure = none ∧
      (rounds 1 3 ((tug [3, 1, 4] 2).reordered [2, 0, 1])).value =
        ⟨(rounds 1 3 (tug [3, 1, 4] 2)).value.session.reordered [2, 0, 1],
          (rounds 1 3 (tug [3, 1, 4] 2)).value.residual, none⟩ := by
  have steady : (tug [3, 1, 4] 2).Steady 1 [1, -1, 0] [[0, 0, 0], [-1], [1]] :=
    ⟨tug_exact _ 2, by simp [tug, Potential.Within], tug_balanced _ 2 2, tug_isSaddle _ 2⟩
  have finished := (steady.rounds 3).1
  obtain ⟨alone, runs⟩ := order_irrelevant
  exact ⟨⟨_, rfl, (alone ℝ [3, 1, 4] (tug [3, 1, 4] 2).terms).2 _ 1 _ rfl (by decide)⟩, finished,
    runs 1 _ [2, 0, 1] 3 (by decide) finished⟩

end Session

end RuleConsensus
