import RuleConsensus.Proofs.Consensus.SolvePass
import RuleConsensus.Proofs.Minimizer.Points
import RuleConsensus.Proofs.Term.Containment

/-!
Rounds that fail in their solve phase. What such a round leaves behind differs from what was there
before in primals and consensus vectors only, and a round that goes through overwrites these before
it reads them. So after a change of fallbacks the round can be made again from what was left.
-/

set_option autoImplicit false
set_option relaxedAutoImplicit false

namespace RuleConsensus

section Lists

variable {β γ β' γ' : Type} {R : β → γ → Prop} {S : β' → γ' → Prop} {bs : List β} {cs : List γ}

theorem forall₂_mapIdx {f : ℕ → β → β'} {g : ℕ → γ → γ'} (related : List.Forall₂ R bs cs)
    (step : ∀ i b c, R b c → S (f i b) (g i c)) :
    List.Forall₂ S (bs.mapIdx f) (cs.mapIdx g) := by
  induction related generalizing f g with
  | nil => exact .nil
  | cons h _ ih =>
    rw [List.mapIdx_cons, List.mapIdx_cons]
    exact .cons (step 0 _ _ h) (ih fun i _ _ => step (i + 1) _ _)

theorem forall_mem_iff_of_forall₂ {K P : β → Prop} {Q : γ → Prop} (related : List.Forall₂ R bs cs)
    (known : ∀ b ∈ bs, K b) (step : ∀ b c, K b → R b c → (Q c ↔ P b)) :
    (∀ c ∈ cs, Q c) ↔ ∀ b ∈ bs, P b := by
  induction related with
  | nil => simp
  | cons h _ ih =>
    rw [List.forall_mem_cons] at known
    rw [List.forall_mem_cons, List.forall_mem_cons, step _ _ known.1 h, ih known.2]

end Lists

variable {α : Type}

def Potential.refit (change : Fallback α → Fallback α) (p : Potential α) : Potential α :=
  match p.kind with
  | .squaredHinge fallback => { p with kind := .squaredHinge (change fallback) }
  | _ => p

/-- The same session with other fallbacks. The change of a fallback may depend on the position of
its term. -/
def Session.refit (change : ℕ → Fallback α → Fallback α) (s : Session α) : Session α :=
  ⟨s.global, s.terms.mapIdx fun i p => p.refit (change i)⟩

theorem Potential.SameDual.refit {p q : Potential α} (same : SameDual p q)
    (change : Fallback α → Fallback α) : SameDual (p.refit change) (q.refit change) := by
  obtain ⟨x, z, rfl⟩ := same
  obtain ⟨b, kind⟩ := p
  cases kind <;> exact ⟨x, z, rfl⟩

variable [Scalar α]

namespace Potential

theorem SameDual.solved_iff {global : List α} {p p' q : Potential α} (same : SameDual p p') :
    Solved global p' q ↔ Solved global p q := by
  obtain ⟨x, z, rfl⟩ := same
  exact Iff.rfl

theorem forall₂_solved_iff {global : List α} {ps ps' qs : List (Potential α)}
    (same : List.Forall₂ SameDual ps ps') :
    List.Forall₂ (Solved global) ps' qs ↔ List.Forall₂ (Solved global) ps qs := by
  induction same generalizing qs with
  | nil => rfl
  | cons h _ ih => simp only [List.forall₂_cons_left_iff, h.solved_iff, ih]

theorem Constructed.built {p : Potential α} (constructed : p.Constructed) {x y z : List α}
    (length_y : y.length = p.block.arity) :
    Built (((p.withPrimal x).withDual y).withConsensus z) :=
  ⟨p, constructed, ⟨x, y, z, rfl⟩, length_y⟩

section Built

variable {p : Potential α} (built : p.Built)

include built

theorem Built.length_y : p.block.y.length = p.block.arity := by
  obtain ⟨_, _, _, length_y⟩ := built
  exact length_y

theorem Built.length_indices : p.block.indices.length = p.block.arity := by
  obtain ⟨origin, constructed, ⟨x, y, z, rfl⟩, _⟩ := built
  obtain ⟨_, c, k, w, rho, indices, consensus, accepted⟩ := constructed.block
  obtain ⟨_, _, _, ⟨lengths, _⟩, _, hb⟩ := Block.build_eq_ok_iff.mp accepted
  rw [← hb]
  exact lengths

theorem Built.arity_pos : 0 < p.block.arity := by
  obtain ⟨origin, constructed, ⟨x, y, z, rfl⟩, _⟩ := built
  obtain ⟨_, c, k, w, rho, indices, consensus, accepted⟩ := constructed.block
  obtain ⟨⟨some, _⟩, _, _, _, _, hb⟩ := Block.build_eq_ok_iff.mp accepted
  rw [← hb]
  exact Nat.pos_of_ne_zero some

end Built

/-- The fallback of a wide hinge with a say answers, but not for every variable. -/
def AnsweredShort (p : Potential α) : Prop :=
  ∃ fallback x, p.kind = .squaredHinge fallback ∧ 3 ≤ p.block.arity ∧
    SquaredHinge.inactive p.block p.block.candidate = false ∧
    (fallback.minimize p.objective p.block.candidate).value = .ok x ∧ x.length < p.block.arity

theorem length_lt_iff_answeredShort {p : Potential α} (some : 0 < p.block.arity)
    (hy : p.block.y.length = p.block.arity) (hz : p.block.z.length = p.block.arity) {x : List α}
    (found : p.solution.value = .ok x) : x.length < p.block.arity ↔ p.AnsweredShort := by
  constructor
  · intro short
    obtain fits | ⟨fallback, kind, wide, active, answered⟩ := length_or_answer_of_solution hy hz found
    · omega
    · exact ⟨fallback, x, kind, wide some.ne', active, answered, short⟩
  · rintro ⟨fallback, x', kind, wide, active, answered, short⟩
    have stored := ((solution_eq_ok_iff_of_wide kind wide).mp found).1
    rw [active, if_neg Bool.false_ne_true] at stored
    obtain rfl := Except.ok.inj (answered.symm.trans stored)
    exact short

theorem KeepsLength.not_answeredShort {p : Potential α} (keeps : p.KeepsLength)
    (hy : p.block.y.length = p.block.arity) (hz : p.block.z.length = p.block.arity) :
    ¬p.AnsweredShort := by
  rintro ⟨fallback, x, kind, _, _, answered, short⟩
  rw [keeps fallback kind _ _ _ answered, Block.length_candidate hy hz] at short
  exact lt_irrefl _ short

section Solved

variable {global : List α} {p q : Potential α} (built : p.Built)

include built

theorem Solved.length_dual (solved : Solved global p q) :
    q.block.y.length = q.block.indices.length := by
  have fits : p.block.y.length = p.block.indices.length :=
    built.length_y.trans built.length_indices.symm
  obtain ⟨_, _, x, _, rfl⟩ := solved
  exact fits

/-- A term that has solved has all that averaging asks for, or its fallback answered short. -/
theorem Solved.covered_iff (solved : Solved global p q) :
    q.Covered global ↔ ¬(p.withConsensus (p.slice global)).AnsweredShort := by
  have lengths := built.length_indices
  have hy := solved.length_dual built
  have some := built.arity_pos
  have length_y := built.length_y
  obtain ⟨inside, accepted, x, found, rfl⟩ := solved
  rw [← length_lt_iff_answeredShort (p := p.withConsensus (p.slice global)) some length_y
    accepted.1 found, not_lt]
  constructor
  · intro covered
    exact lengths.ge.trans covered.primal
  · intro long
    exact ⟨inside, lengths.le.trans long, hy.ge⟩

end Solved

end Potential

namespace Session

open Potential

variable {rho : α} {s s' : Session α}

theorem round_eq_done_iff_of_sameDual (global_eq : s'.global = s.global)
    (same : List.Forall₂ SameDual s.terms s'.terms) {after : Session α} :
    (s'.round rho).value = .done after ↔ (s.round rho).value = .done after := by
  rw [round_eq_done_iff, round_eq_done_iff, global_eq]
  simp only [forall₂_solved_iff same]

theorem rounds_succ_congr (h : (s'.round rho).value = (s.round rho).value) (n : ℕ) :
    (rounds rho (n + 1) s').value = (rounds rho (n + 1) s).value := by
  simp only [rounds, roundsAfter, Logged.value_bind, h]

theorem round_of_solveAll_failure {e : Failure (TermError α)}
    (failed : (solveAll s.global s.terms).value.failure = some e) :
    (s.round rho).value =
      .failed ⟨s.global, (solveAll s.global s.terms).value.state⟩ e := by
  simp only [round, Logged.value_bind, failed, Logged.value_pure]

/-- What a round leaves behind that has failed at a position of its solve phase. -/
structure StoppedAt (i : ℕ) (s left : Session α) : Prop where
  global_eq : left.global = s.global
  sameDual : List.Forall₂ SameDual s.terms left.terms
  later : ∀ k, i < k → left.terms[k]? = s.terms[k]?
  primal : left.terms[i]?.map (·.block.x) = s.terms[i]?.map (·.block.x)

theorem stoppedAt_of_failure {i : ℕ} {p : Potential α} {e : Failure (TermError α)}
    (here : s.terms[i]? = some p) (reaches : Reaches s.global s.terms i)
    (failed : (p.stepFrom s.global).value.failure = some e) :
    StoppedAt i s ⟨s.global, (solveAll s.global s.terms).value.state⟩ where
  global_eq := rfl
  sameDual := solveAll_sameDual s.global s.terms
  later k after := solveAll_getElem?_of_not_reaches (not_reaches_of_failure here failed after)
  primal := by
    obtain ⟨z, hz⟩ := stepFrom_of_failure failed
    rw [solveAll_getElem?_of_reaches reaches, here, Option.map_some, Option.map_some, hz]
    rfl

/-- Where there is no average, the round breaks off with what the terms solved to. -/
theorem round_of_average_eq_none {solved : List (Potential α)}
    (done : (solveAll s.global s.terms).value = .done solved)
    (none : average rho solved s.global = none) :
    (s.round rho).value = .failed ⟨s.global, solved⟩ .silent := by
  simp only [round, Logged.value_bind, done, Update.failure_done, Update.state_done, none,
    Logged.value_pure]

/-- A round that fails in its solve phase fails at one term, and does no harm: the global vector,
all rules and duals, the terms after that one and its primal are as before, and once fallbacks have
been changed, or not, a round goes through from what is left exactly if it does from what was there
before, and leads to the same session, as do all rounds after it. After a solve phase that does not
fail, averaging finds every global entry and every dual entry that it asks for; it finds every
primal entry too, unless a fallback has answered short, and then the round breaks off. -/
theorem failed_solve_phase_harmless (built : ∀ p ∈ s.terms, p.Built) (rho : α) :
    (∀ e, (solveAll s.global s.terms).value.failure = some e →
      ∃ i p left, (s.round rho).value = .failed left e ∧
        s.terms[i]? = some p ∧ (p.stepFrom s.global).value.failure = some e ∧
        StoppedAt i s left ∧
        ∀ change,
          (∀ after, ((left.refit change).round rho).value = .done after ↔
            ((s.refit change).round rho).value = .done after) ∧
          (((left.refit change).round rho).value.failure = none → ∀ n,
            (rounds rho (n + 1) (left.refit change)).value =
              (rounds rho (n + 1) (s.refit change)).value)) ∧
    ∀ solved, (solveAll s.global s.terms).value = .done solved →
      (∀ q ∈ solved, q.Within s.global ∧ q.block.y.length = q.block.indices.length) ∧
      ((∀ q ∈ solved, q.Covered s.global) ↔
        ∀ p ∈ s.terms, ¬(p.withConsensus (p.slice s.global)).AnsweredShort) ∧
      ((∀ p ∈ s.terms, p.KeepsLength) → ∀ q ∈ solved, q.Covered s.global) ∧
      ((∀ q ∈ solved, q.Covered s.global) → ∃ new, average rho solved s.global = some new) ∧
      (¬(∀ q ∈ solved, q.Covered s.global) →
        (s.round rho).value = .failed ⟨s.global, solved⟩ .silent) := by
  constructor
  · intro e failed
    obtain ⟨i, p, here, reaches, hp⟩ := exists_failure_of_solveAll failed
    refine ⟨i, p, _, round_of_solveAll_failure failed, here, hp,
      stoppedAt_of_failure here reaches hp, fun change => ?_⟩
    have same := forall₂_mapIdx (solveAll_sameDual s.global s.terms)
      fun i _ _ h => h.refit (change i)
    have again (after : Session α) :
        ((Session.refit change ⟨s.global, (solveAll s.global s.terms).value.state⟩).round
          rho).value = .done after ↔ ((s.refit change).round rho).value = .done after :=
      round_eq_done_iff_of_sameDual (by rfl) same
    refine ⟨again, fun completed => rounds_succ_congr ?_⟩
    have done := Update.eq_done_iff.mpr ⟨completed, rfl⟩
    exact done.trans ((again _).mp done).symm
  · intro solved done
    have solves := solveAll_eq_done_iff.mp done
    have covered_iff : (∀ q ∈ solved, q.Covered s.global) ↔
        ∀ p ∈ s.terms, ¬(p.withConsensus (p.slice s.global)).AnsweredShort :=
      forall_mem_iff_of_forall₂ solves built fun p q built solved => solved.covered_iff built
    refine ⟨?_, covered_iff, fun keeps => covered_iff.mpr fun p hp => ?_, fun covered => ?_,
      fun short => ?_⟩
    · exact forall_right solves built fun p q built solved =>
        ⟨solved.within, solved.length_dual built⟩
    · exact (keeps p hp).not_answeredShort (p := p.withConsensus (p.slice s.global))
        (built p hp).length_y ((length_slice _ _).trans (built p hp).length_indices)
    · exact ⟨_, average_eq_some_iff.mpr ⟨covered, rfl⟩⟩
    · refine round_of_average_eq_none done ?_
      cases averaged : average rho solved s.global with
      | none => rfl
      | some new => exact absurd (average_eq_some_iff.mp averaged).1 short

def stalling : Potential Float :=
  ⟨⟨2, [1.0, 1.0, 1.0], 0.0, 1.0, 1.0, [0, 1, 2], [0.5, 2.0, -1.0], Vector.zeros 3,
    [0.5, 2.0, -1.0]⟩, .squaredHinge (Fallback.failing (.notConverged 3 none))⟩

def level : Potential Float :=
  ⟨⟨3, [0.0, 2.0], 1.0, Scalar.infinity, 1.0, [1, 2], [2.0, -1.0], Vector.zeros 2, [2.0, -1.0]⟩,
    .hardRule .equality⟩

/-- Two hard rules with a squared hinge between them that no fallback solves, somewhere in a run. -/
def stalled : Session Float :=
  ⟨[0.5, 2.0, -1.0, 4.0],
    [((level.withPrimal [7.0, 0.5]).withDual [0.0, 0.25]).withConsensus [2.0, -1.0],
      ((stalling.withPrimal [9.0, 8.0, 7.0]).withDual [0.0, 0.5, 0.0]).withConsensus
        [6.0, 5.0, 4.0],
      ((level.withPrimal []).withDual [1.0, 1.0]).withConsensus []]⟩

theorem stalled_built : ∀ p ∈ stalled.terms, p.Built := by
  have stalling_constructed : stalling.Constructed :=
    constructed_of_checks (by decide +kernel) (by decide +kernel)
  have level_constructed : level.Constructed :=
    constructed_hardRule_of_checks (by decide) (by decide)
  refine List.forall_mem_cons.mpr ⟨level_constructed.built (by decide), ?_⟩
  refine List.forall_mem_cons.mpr ⟨stalling_constructed.built (by decide), ?_⟩
  exact List.forall_mem_singleton.mpr (level_constructed.built (by decide))

def resting : Potential Float :=
  ⟨⟨4, [1.0, 1.0, 1.0], 9.0, 1.0, 1.0, [0, 1, 3], [0.5, 2.0, 4.0], Vector.zeros 3,
    [0.5, 2.0, 4.0]⟩, .squaredHinge (.lbfgs false .default)⟩

/-- The part of the session before the term that fails, and one that rests. -/
def relieved : Session Float :=
  ⟨stalled.global, resting :: stalled.terms.take 1⟩

theorem relieved_built : ∀ p ∈ relieved.terms, p.Built := by
  have resting_constructed : resting.Constructed :=
    constructed_of_checks (by decide +kernel) (by decide +kernel)
  refine List.forall_mem_cons.mpr ⟨resting_constructed.built (by decide), fun p hp => ?_⟩
  exact stalled_built p (List.mem_of_mem_take hp)

theorem relieved_keepsLength : ∀ p ∈ relieved.terms, p.KeepsLength := by
  refine List.forall_mem_cons.mpr ⟨?_, List.forall_mem_singleton.mpr nofun⟩
  rintro _ ⟨⟩
  exact Fallback.keepsLength_lbfgs false .default

/-- The round of a single term whose fallback answers with two entries for three variables. -/
def curt : Session Float := ⟨[1.0, 1.0, 1.0], [answering [1.0, 2.0]]⟩

/-- The round fails at one of the terms. With a fallback that answers with the candidate it goes
through, and leads from what was left to where it would have led before. -/
theorem failed_solve_phase_harmless_stalled :
    (∃ i left e, (stalled.round 1.0).value = .failed left e ∧ StoppedAt i stalled left ∧
      (∃ after, ((left.refit fun _ _ => .staying).round 1.0).value = .done after) ∧
      (rounds 1.0 3 (left.refit fun _ _ => .staying)).value =
        (rounds 1.0 3 (stalled.refit fun _ _ => .staying)).value) ∧
    ∃ solved new, (solveAll relieved.global relieved.terms).value = .done solved ∧
      (∀ q ∈ solved, q.Covered relieved.global) ∧
      average 1.0 solved relieved.global = some new := by
  constructor
  · obtain ⟨stops, _⟩ := failed_solve_phase_harmless stalled_built 1.0
    have stuck : (solveAll stalled.global stalled.terms).value.failure.isSome = true := by
      decide +kernel
    have completes : ((stalled.refit fun _ _ => .staying).round 1.0).value.failure = none :=
      Option.isNone_iff_eq_none.mp (by decide +kernel)
    obtain ⟨e, he⟩ := Option.isSome_iff_exists.mp stuck
    obtain ⟨i, p, left, failed, _, _, stopped, again⟩ := stops e he
    obtain ⟨done_iff, same⟩ := again fun _ _ => .staying
    have done := (done_iff _).mpr (Update.eq_done_iff.mpr ⟨completes, rfl⟩)
    refine ⟨i, left, e, failed, stopped, ⟨_, done⟩, same ?_ 2⟩
    rw [done, Update.failure_done]
  · obtain ⟨_, solves⟩ := failed_solve_phase_harmless relieved_built 1.0
    have finished : (solveAll relieved.global relieved.terms).value.failure = none :=
      Option.isNone_iff_eq_none.mp (by decide +kernel)
    have done := Update.eq_done_iff.mpr ⟨finished, rfl⟩
    obtain ⟨_, _, kept, averages, _⟩ := solves _ done
    have covered := kept relieved_keepsLength
    obtain ⟨new, averaged⟩ := averages covered
    exact ⟨_, new, done, covered, averaged⟩

/-- A solve phase that goes through, after which the third entry of a primal is asked for that has
two. -/
theorem curt_breaks_off :
    (∀ p ∈ curt.terms, p.Built) ∧
      (solveAll curt.global curt.terms).value = .done [(answering [1.0, 2.0]).withPrimal [1.0, 2.0]] ∧
      (answering [1.0, 2.0]).block.indices = [0, 1, 2] ∧
      average 1.0 [(answering [1.0, 2.0]).withPrimal [1.0, 2.0]] curt.global = none ∧
      (curt.round 1.0).value =
        .failed ⟨curt.global, [(answering [1.0, 2.0]).withPrimal [1.0, 2.0]]⟩ .silent := by
  have kind : (answering [1.0, 2.0]).kind = .squaredHinge (.returning [1.0, 2.0]) := rfl
  have constructed : (answering [1.0, 2.0]).Constructed :=
    constructed_of_checks (by decide +kernel) (by decide +kernel)
  have found : (answering [1.0, 2.0]).solution.value = .ok [1.0, 2.0] := by
    refine (solution_eq_ok_iff_of_wide kind (by decide)).mpr ⟨?_, by decide⟩
    rw [if_neg (by decide)]
    rfl
  have solved : Solved curt.global (answering [1.0, 2.0])
      ((answering [1.0, 2.0]).withPrimal [1.0, 2.0]) :=
    ⟨by simp [Potential.Within, answering, curt], by decide, [1.0, 2.0], found, rfl⟩
  have done := solveAll_eq_done_iff.mpr (.cons solved .nil)
  have none : average 1.0 [(answering [1.0, 2.0]).withPrimal [1.0, 2.0]] curt.global = none := rfl
  refine ⟨List.forall_mem_singleton.mpr (constructed.built (by decide)), done, rfl, none, ?_⟩
  exact round_of_average_eq_none done none

end Session

end RuleConsensus
