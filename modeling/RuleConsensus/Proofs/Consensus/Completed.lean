import Mathlib.Data.List.Forall2
import RuleConsensus.Consensus.Round
import RuleConsensus.Proofs.Term.Run

set_option autoImplicit false
set_option relaxedAutoImplicit false

namespace RuleConsensus

section Lists

variable {β γ δ : Type} {R : β → γ → Prop} {S : γ → δ → Prop} {T : β → δ → Prop}
  {P : β → Prop} {bs : List β} {cs : List γ} {ds : List δ}

theorem forall_right {Q : γ → Prop} (related : List.Forall₂ R bs cs) (left : ∀ b ∈ bs, P b)
    (step : ∀ b c, P b → R b c → Q c) : ∀ c ∈ cs, Q c := by
  induction related with
  | nil => simp
  | cons h _ ih =>
    rw [List.forall_mem_cons] at left ⊢
    exact ⟨step _ _ left.1 h, ih left.2⟩

theorem forall₂_through {Q : δ → Prop} (first : List.Forall₂ R bs cs) (second : List.Forall₂ S cs ds)
    (left : ∀ b ∈ bs, P b) (right : ∀ d ∈ ds, Q d)
    (step : ∀ b c d, P b → Q d → R b c → S c d → T b d) : List.Forall₂ T bs ds := by
  induction first generalizing ds with
  | nil =>
    cases second
    exact .nil
  | cons h _ ih =>
    cases second with
    | cons h' rest =>
      rw [List.forall_mem_cons] at left right
      exact .cons (step _ _ _ left.1 right.1 h h') (ih rest left.2 right.2)

theorem mapM_eq_some_iff {f : β → Option γ} {g : β → γ}
    (entry : ∀ b c, f b = some c ↔ P b ∧ g b = c) :
    bs.mapM f = some cs ↔ (∀ b ∈ bs, P b) ∧ bs.map g = cs := by
  induction bs generalizing cs with
  | nil => simp
  | cons b bs ih =>
    simp only [List.mapM_cons, Option.bind_eq_bind, Option.pure_def, Option.bind_eq_some_iff, ih,
      entry, Option.some.injEq, List.forall_mem_cons, List.map_cons]
    constructor
    · rintro ⟨_, ⟨first, rfl⟩, _, ⟨rest, rfl⟩, rfl⟩
      exact ⟨⟨first, rest⟩, rfl⟩
    · rintro ⟨⟨first, rest⟩, rfl⟩
      exact ⟨_, ⟨first, rfl⟩, _, ⟨rest, rfl⟩, rfl⟩

end Lists

variable {α : Type} [Scalar α]

namespace Potential

/-- The entries of a global vector that the term is about. Past its end the vector reads as zero. -/
def slice (global : List α) (p : Potential α) : List α :=
  p.block.indices.map fun j => global.getD j 0

def Within (global : List α) (p : Potential α) : Prop :=
  ∀ j ∈ p.block.indices, j < global.length

/-- A term with an entry of primal and dual for every index, and every index in the vector. -/
structure Covered (global : List α) (p : Potential α) : Prop where
  within : p.Within global
  primal : p.block.indices.length ≤ p.block.x.length
  dual : p.block.indices.length ≤ p.block.y.length

theorem gatherFrom_eq_ok_iff {global v : List α} {indices : List Nat} (position : Nat) :
    gatherFrom global position indices = .ok v ↔
      (∀ j ∈ indices, j < global.length) ∧ indices.map (fun j => global.getD j 0) = v := by
  induction indices generalizing position v with
  | nil => simp [gatherFrom]
  | cons index rest ih =>
    unfold gatherFrom
    by_cases inside : index < global.length
    · rw [List.getElem?_eq_getElem inside]
      simp only [bind_eq_ok, pure_eq_ok, ih]
      have entry : global.getD index 0 = global[index] := by
        simp [List.getD_eq_getElem?_getD, inside]
      constructor
      · rintro ⟨vs, ⟨range, rfl⟩, rfl⟩
        exact ⟨List.forall_mem_cons.mpr ⟨inside, range⟩, by rw [List.map_cons, entry]⟩
      · rintro ⟨range, rfl⟩
        exact ⟨_, ⟨(List.forall_mem_cons.mp range).2, rfl⟩, by rw [List.map_cons, entry]⟩
    · rw [List.getElem?_eq_none (by omega)]
      simp [inside]

theorem gather_eq_ok_iff {global v : List α} {p : Potential α} :
    gather global p.block.indices = .ok v ↔ p.Within global ∧ p.slice global = v :=
  gatherFrom_eq_ok_iff 0

def Solved (global : List α) (p q : Potential α) : Prop :=
  p.Within global ∧ p.Accepts (p.slice global) ∧
    ∃ x, (p.withConsensus (p.slice global)).solution.value = .ok x ∧
      (p.withConsensus (p.slice global)).withPrimal x = q

/-- A term that has taken its slice of a global vector and moved its dual. -/
def Committed (global : List α) (p q : Potential α) : Prop :=
  p.Within global ∧ p.Accepts (p.slice global) ∧
    (p.withConsensus (p.slice global)).dualStep = .done q

theorem Solved.sameRule {global : List α} {p q : Potential α} (solved : Solved global p q) :
    SameRule p q := by
  obtain ⟨_, _, x, _, rfl⟩ := solved
  exact ⟨_, _, _, rfl⟩

theorem Solved.within {global : List α} {p q : Potential α} (solved : Solved global p q) :
    q.Within global := by
  obtain ⟨inside, _, x, _, rfl⟩ := solved
  exact inside

theorem Committed.sameRule {global : List α} {p q : Potential α}
    (committed : Committed global p q) : SameRule p q := by
  obtain ⟨_, _, stepped⟩ := committed
  obtain ⟨y, rfl⟩ := exists_dual_of_dualStep stepped
  exact ⟨p.block.x, _, _, rfl⟩

end Potential

theorem Update.eq_done_iff {σ ε : Type} {u : Update σ ε} {s : σ} :
    u = .done s ↔ u.failure = none ∧ u.state = s := by
  obtain ⟨state, failure⟩ := u
  simp [Update.done, and_comm]

namespace Potential

section Lengths

variable {global : List α} {q r : Potential α}

theorem length_slice (global : List α) (p : Potential α) :
    (p.slice global).length = p.block.indices.length := by
  rw [slice, List.length_map]

theorem Committed.length_x (committed : Committed global q r)
    (hy : q.block.y.length = q.block.indices.length) (some : 0 < q.block.indices.length)
    (long : q.block.indices.length ≤ q.block.x.length) :
    q.block.x.length = q.block.indices.length := by
  have taken : (q.withConsensus (q.slice global)).block.z.length = q.block.indices.length :=
    length_slice global q
  rw [← taken] at hy some long ⊢
  exact length_primal_of_dualStep committed.2.2 hy some long

theorem committed_iff_of_length_eq (hx : q.block.x.length = q.block.indices.length)
    (hy : q.block.y.length = q.block.indices.length) :
    Committed global q r ↔ q.Within global ∧ q.Accepts (q.slice global) ∧
      (q.withConsensus (q.slice global)).withDual (List.zipWith
        (fun y r => y + q.block.stepSize * r) q.block.y
        (Vector.sub q.block.x (q.slice global))) = r := by
  have step := dualStep_of_length_eq (p := q.withConsensus (q.slice global))
    (hx.trans (length_slice global q).symm) (hy.trans (length_slice global q).symm)
  rw [Committed, step, Update.eq_done_iff]
  simp [withConsensus]

end Lengths

theorem solve_eq_done_iff {p q : Potential α} :
    p.solve.value = .done q ↔ ∃ x, p.solution.value = .ok x ∧ p.withPrimal x = q := by
  obtain ⟨x, hx, hs⟩ | ⟨e, he, hs⟩ := p.solve_cases
  · rw [hs, hx, Update.eq_done_iff]
    simp
  · rw [hs, he, Update.eq_done_iff]
    simp

theorem stepFrom_eq_done_iff {global : List α} {p q : Potential α} :
    (p.stepFrom global).value = .done q ↔ Solved global p q := by
  unfold stepFrom Solved
  cases hg : gather global p.block.indices with
  | error e =>
    have hn : ¬p.Within global := fun h => by
      rw [gather_eq_ok_iff.mpr ⟨h, rfl⟩] at hg
      cases hg
    simp [hn, Logged.quiet, Update.eq_done_iff]
  | ok v =>
    obtain ⟨inside, rfl⟩ := gather_eq_ok_iff.mp hg
    dsimp only
    obtain ⟨ha, hv⟩ | ⟨ha, e, he⟩ := p.proximalStep_value (p.slice global)
    · rw [hv, solve_eq_done_iff]
      exact ⟨fun h => ⟨inside, ha, h⟩, fun h => h.2.2⟩
    · rw [he, Update.eq_done_iff]
      simp [ha]

theorem commitFrom_eq_done_iff {global : List α} {p q : Potential α} :
    p.commitFrom global = .done q ↔ Committed global p q := by
  unfold commitFrom Committed
  cases hg : gather global p.block.indices with
  | error e =>
    have hn : ¬p.Within global := fun h => by
      rw [gather_eq_ok_iff.mpr ⟨h, rfl⟩] at hg
      cases hg
    simp [hn, Update.eq_done_iff]
  | ok v =>
    obtain ⟨inside, rfl⟩ := gather_eq_ok_iff.mp hg
    dsimp only
    by_cases ha : p.Accepts (p.slice global)
    · rw [setConsensus_of_accepts ha]
      simp [inside, ha]
    · obtain ⟨e, he⟩ := setConsensus_of_not_accepts ha
      rw [he]
      simp [ha, Update.eq_done_iff]

end Potential

namespace Session

open Potential

theorem solveAll_eq_done_iff {global : List α} {ps qs : List (Potential α)} :
    (solveAll global ps).value = .done qs ↔ List.Forall₂ (Solved global) ps qs := by
  induction ps generalizing qs with
  | nil => simp [solveAll, Update.eq_done_iff, eq_comm]
  | cons p ps ih =>
    rw [List.forall₂_cons_left_iff]
    simp only [← stepFrom_eq_done_iff, ← ih, solveAll, Logged.value_bind]
    cases hu : (p.stepFrom global).value.failure with
    | some e => simp [Update.eq_done_iff, hu]
    | none =>
      simp only [Update.eq_done_iff, hu, Logged.value_bind, Logged.value_pure, Update.failure_map,
        Update.state_map, true_and]
      constructor
      · rintro ⟨finished, rfl⟩
        exact ⟨_, _, rfl, ⟨finished, rfl⟩, rfl⟩
      · rintro ⟨q, rest, rfl, ⟨finished, rfl⟩, rfl⟩
        exact ⟨finished, rfl⟩

theorem commitAll_eq_done_iff {global : List α} {ps qs : List (Potential α)} :
    commitAll global ps = .done qs ↔ List.Forall₂ (Committed global) ps qs := by
  induction ps generalizing qs with
  | nil => simp [commitAll, Update.eq_done_iff, eq_comm]
  | cons p ps ih =>
    rw [List.forall₂_cons_left_iff]
    simp only [← commitFrom_eq_done_iff, ← ih, commitAll]
    cases hu : (p.commitFrom global).failure with
    | some e => simp [Update.eq_done_iff, hu]
    | none =>
      simp only [Update.eq_done_iff, hu, Update.failure_map, Update.state_map, true_and]
      constructor
      · rintro ⟨finished, rfl⟩
        exact ⟨_, _, rfl, ⟨finished, rfl⟩, rfl⟩
      · rintro ⟨q, rest, rfl, ⟨finished, rfl⟩, rfl⟩
        exact ⟨finished, rfl⟩

section Average

variable {rho : α}

/-- The proposals of a term that has an entry of the primal and of the dual for every index. -/
def proposed (rho : α) (p : Potential α) : List (Nat × α) :=
  List.zip p.block.indices (Vector.add p.block.x (Vector.divide p.block.y rho))

theorem propose?_eq_some_iff {indices : List Nat} {x y : List α} {l : List (Nat × α)} :
    propose? rho indices x y = some l ↔
      (indices.length ≤ x.length ∧ indices.length ≤ y.length) ∧
        List.zip indices (Vector.add x (Vector.divide y rho)) = l := by
  induction indices generalizing x y l with
  | nil => simp [propose?]
  | cons j indices ih =>
    cases x with
    | nil => simp [propose?]
    | cons a x =>
      cases y with
      | nil => simp [propose?]
      | cons b y =>
        have first : List.zip (j :: indices) (Vector.add (a :: x) (Vector.divide (b :: y) rho)) =
            (j, a + b / rho) :: List.zip indices (Vector.add x (Vector.divide y rho)) := rfl
        simp only [propose?, Option.map_eq_some_iff, ih, first, List.length_cons,
          Nat.add_le_add_iff_right]
        constructor
        · rintro ⟨_, ⟨long, rfl⟩, rfl⟩
          exact ⟨long, rfl⟩
        · rintro ⟨long, rfl⟩
          exact ⟨_, ⟨long, rfl⟩, rfl⟩

theorem indices_proposed (rho : α) {p : Potential α}
    (hx : p.block.indices.length ≤ p.block.x.length)
    (hy : p.block.indices.length ≤ p.block.y.length) :
    (proposed rho p).map (·.1) = p.block.indices := by
  apply List.map_fst_zip
  rw [Vector.length_add, Vector.length_divide]
  omega

theorem average_eq_some_iff {terms : List (Potential α)} {global new : List α} :
    average rho terms global = some new ↔
      (∀ p ∈ terms, p.Covered global) ∧ means (terms.flatMap (proposed rho)) global = new := by
  have named : (∀ p ∈ terms, p.block.indices.length ≤ p.block.x.length ∧
      p.block.indices.length ≤ p.block.y.length) →
        ((terms.flatMap (proposed rho)).all (·.1 < global.length) = true ↔
          ∀ p ∈ terms, p.Within global) := by
    intro long
    have at_term : ∀ p ∈ terms,
        (∀ e ∈ proposed rho p, e.1 < global.length) ↔ p.Within global := by
      intro p hp
      rw [Within, ← indices_proposed rho (long p hp).1 (long p hp).2, List.forall_mem_map]
    simp only [List.all_eq_true, List.mem_flatMap, decide_eq_true_eq, forall_exists_index, and_imp]
    exact ⟨fun inside p hp => (at_term p hp).mp fun e he => inside e p hp he,
      fun inside e p hp he => (at_term p hp).mpr (inside p hp) e he⟩
  have gathered : ∀ l, terms.mapM (proposals rho) = some l ↔
      (∀ p ∈ terms, p.block.indices.length ≤ p.block.x.length ∧
        p.block.indices.length ≤ p.block.y.length) ∧ terms.map (proposed rho) = l :=
    fun _ => mapM_eq_some_iff fun _ _ => propose?_eq_some_iff
  simp only [average, Option.bind_eq_bind, Option.pure_def, Option.bind_eq_some_iff, gathered]
  constructor
  · rintro ⟨_, ⟨long, rfl⟩, averaged⟩
    rw [← List.flatMap_def] at averaged
    split at averaged
    case isTrue inside =>
      refine ⟨fun p hp => ?_, Option.some.inj averaged⟩
      exact ⟨(named long).mp inside p hp, (long p hp).1, (long p hp).2⟩
    case isFalse => cases averaged
  · rintro ⟨covered, rfl⟩
    have long := fun p hp => And.intro (covered p hp).primal (covered p hp).dual
    refine ⟨_, ⟨long, rfl⟩, ?_⟩
    rw [← List.flatMap_def, if_pos ((named long).mpr fun p hp => (covered p hp).within)]

theorem residual_eq_some_iff {terms : List (Potential α)} {d : α} :
    residual terms = some d ↔ (∀ p ∈ terms, p.block.primalResidual.isSome = true) ∧
      (terms.map fun p => p.block.primalResidual.getD 0).foldl Scalar.larger 0 = d := by
  have distances : ∀ l, terms.mapM (·.block.primalResidual) = some l ↔
      (∀ p ∈ terms, p.block.primalResidual.isSome = true) ∧
        (terms.map fun p => p.block.primalResidual.getD 0) = l := by
    refine fun _ => mapM_eq_some_iff fun p d => ?_
    cases p.block.primalResidual <;> simp
  simp only [residual, Option.bind_eq_bind, Option.pure_def, Option.bind_eq_some_iff, distances,
    Option.some.injEq]
  constructor
  · rintro ⟨_, ⟨all, rfl⟩, rfl⟩
    exact ⟨all, rfl⟩
  · rintro ⟨all, rfl⟩
    exact ⟨_, ⟨all, rfl⟩, rfl⟩

end Average

/-- What a completed round is: every term solved from the old global vector, the new one is the
average, and every term took its slice of it. -/
theorem round_eq_done_iff {rho : α} {s after : Session α} :
    (s.round rho).value = .done after ↔
      ∃ solved, List.Forall₂ (Solved s.global) s.terms solved ∧
        average rho solved s.global = some after.global ∧
        List.Forall₂ (Committed after.global) solved after.terms := by
  obtain ⟨global, terms⟩ := after
  simp only [← solveAll_eq_done_iff, ← commitAll_eq_done_iff, round, Logged.value_bind]
  cases hs : (solveAll s.global s.terms).value.failure with
  | some e => simp [Update.eq_done_iff, hs]
  | none =>
    generalize hv : (solveAll s.global s.terms).value.state = solved
    cases ha : average rho solved s.global with
    | none =>
      simp only [Update.eq_done_iff, hs, hv, true_and, Logged.value_pure]
      constructor
      · simp
      · rintro ⟨_, rfl, averaged, _⟩
        cases ha.symm.trans averaged
    | some new =>
      cases hc : (commitAll new solved).failure with
      | some e =>
        simp only [Update.eq_done_iff, hs, hv, hc, true_and, Logged.value_pure]
        constructor
        · simp
        · rintro ⟨_, rfl, averaged, finished, _⟩
          obtain rfl := Option.some.inj (ha.symm.trans averaged)
          cases hc.symm.trans finished
      | none =>
        simp only [Update.eq_done_iff, hs, hv, hc, Logged.value_pure, Update.failure_done,
          Update.state_done, true_and, Session.mk.injEq]
        constructor
        · rintro ⟨rfl, rfl⟩
          exact ⟨_, rfl, ha, hc, rfl⟩
        · rintro ⟨_, rfl, averaged, _, rfl⟩
          obtain rfl := Option.some.inj (ha.symm.trans averaged)
          exact ⟨rfl, rfl⟩

end Session

end RuleConsensus
