import Mathlib.Data.List.Forall2
import RuleConsensus.Consensus.Round
import RuleConsensus.Proofs.Minimizer.Improvement
import RuleConsensus.Proofs.Term.Alike

/-!
A traced minimisation evaluates its starting point once more before it descends. The descent
evaluates that point first too, and ends with the same error if its cost fails.
-/

set_option autoImplicit false
set_option relaxedAutoImplicit false

namespace RuleConsensus

/-- Whether or not the start was seen, a minimisation gives the same outcome, call counts included,
or the same error. -/
theorem minimize_traced_eq (f : Objective Float) (x : List Float) (options : MinimizerOptions) :
    (minimize true f x options).value = (minimize false f x options).value := by
  cases start : f.check x with
  | error e =>
    unfold minimize
    rw [start]
  | ok _ =>
    cases taken : Lbfgs.Settings.ofOptions options with
    | error failure =>
      unfold minimize
      rw [start, taken]
    | ok settings =>
      rw [minimize_value true start taken, minimize_value false start taken]

theorem Fallback.alike_lbfgs (options : MinimizerOptions) :
    (lbfgs true options).Alike (lbfgs false options) := by
  intro f seed
  have same := minimize_traced_eq f seed options
  unfold lbfgs
  dsimp only
  rw [Logged.value_bind, Logged.value_bind, same]

section Rounds

variable {α : Type} [Scalar α]

namespace Potential.Alike

variable {p q : Potential α}

theorem stepFrom (alike : p.Alike q) (global : List α) :
    Update.Alike Alike (p.stepFrom global).value (q.stepFrom global).value := by
  unfold Potential.stepFrom
  rw [alike.block_eq]
  cases gather global q.block.indices with
  | ok v => exact alike.proximalStep v
  | error e => exact ⟨alike, rfl⟩

theorem commitFrom (alike : p.Alike q) (global : List α) :
    Update.Alike Alike (p.commitFrom global) (q.commitFrom global) := by
  unfold Potential.commitFrom
  rw [alike.block_eq]
  cases gather global q.block.indices with
  | error e => exact ⟨alike, rfl⟩
  | ok v =>
    have taken := alike.setConsensus v
    dsimp only
    rw [taken.failure]
    cases (q.setConsensus v).failure with
    | some e => exact taken
    | none => exact taken.state.dualStep

end Potential.Alike

namespace Session

/-- Two sessions with the same global vector and with terms that answer alike, one by one. -/
structure Alike (s s' : Session α) : Prop where
  global_eq : s.global = s'.global
  terms : List.Forall₂ Potential.Alike s.terms s'.terms

/-- Two runs that leave sessions behind which answer alike, with the same residual, and fail alike
in the same round. -/
structure Run.Alike (r r' : Run α) : Prop where
  session : r.session.Alike r'.session
  residual : r.residual = r'.residual
  failure : r.failure = r'.failure

variable {ps qs : List (Potential α)}

theorem solveAll_alike (alike : List.Forall₂ Potential.Alike ps qs) (global : List α) :
    Update.Alike (List.Forall₂ Potential.Alike) (solveAll global ps).value
      (solveAll global qs).value := by
  induction alike with
  | nil => exact ⟨.nil, rfl⟩
  | @cons p q ps qs first rest ih =>
    have stepped := first.stepFrom global
    simp only [solveAll, Logged.value_bind]
    rw [stepped.failure]
    cases (q.stepFrom global).value.failure with
    | some e => exact ⟨.cons stepped.state rest, stepped.failure⟩
    | none => exact ⟨.cons stepped.state ih.state, ih.failure⟩

theorem commitAll_alike (alike : List.Forall₂ Potential.Alike ps qs) (global : List α) :
    Update.Alike (List.Forall₂ Potential.Alike) (commitAll global ps) (commitAll global qs) := by
  induction alike with
  | nil => exact ⟨.nil, rfl⟩
  | @cons p q ps qs first rest ih =>
    have committed := first.commitFrom global
    simp only [commitAll]
    rw [committed.failure]
    cases (q.commitFrom global).failure with
    | some e => exact ⟨.cons committed.state rest, committed.failure⟩
    | none => exact ⟨.cons committed.state ih.state, ih.failure⟩

omit [Scalar α] in
theorem mapM_block_eq {β : Type} (f : Block α → Option β)
    (alike : List.Forall₂ Potential.Alike ps qs) :
    ps.mapM (fun p => f p.block) = qs.mapM fun q => f q.block := by
  induction alike with
  | nil => rfl
  | cons first _ ih => rw [List.mapM_cons, List.mapM_cons, first.block_eq, ih]

theorem average_alike (alike : List.Forall₂ Potential.Alike ps qs) (rho : α) (global : List α) :
    average rho ps global = average rho qs global := by
  have gathered : ps.mapM (proposals rho) = qs.mapM (proposals rho) :=
    mapM_block_eq (fun b => propose? rho b.indices b.x b.y) alike
  unfold average
  rw [gathered]

theorem residual_alike (alike : List.Forall₂ Potential.Alike ps qs) :
    residual ps = residual qs := by
  unfold residual
  rw [mapM_block_eq Block.primalResidual alike]

variable {s s' : Session α}

/-- A round leaves sessions that answer alike as such, wherever it fails. -/
theorem Alike.round (alike : s.Alike s') (rho : α) :
    Update.Alike Alike (s.round rho).value (s'.round rho).value := by
  have solved := solveAll_alike alike.terms s.global
  have averaged := average_alike solved.state rho s.global
  unfold Session.round
  simp only [Logged.value_bind]
  rw [alike.global_eq] at solved averaged
  rw [alike.global_eq, solved.failure]
  cases (solveAll s'.global s'.terms).value.failure with
  | some e => exact ⟨⟨rfl, solved.state⟩, rfl⟩
  | none =>
    dsimp only
    rw [averaged]
    cases average rho (solveAll s'.global s'.terms).value.state s'.global with
    | none => exact ⟨⟨rfl, solved.state⟩, rfl⟩
    | some new =>
      have committed := commitAll_alike solved.state new
      dsimp only
      rw [committed.failure]
      cases (commitAll new (solveAll s'.global s'.terms).value.state).failure with
      | some e => exact ⟨⟨rfl, committed.state⟩, rfl⟩
      | none => exact ⟨⟨rfl, committed.state⟩, rfl⟩

theorem Alike.roundsAfter (alike : s.Alike s') (rho : α) (n completed : ℕ) (last : α) :
    Run.Alike (roundsAfter rho completed last n s).value
      (roundsAfter rho completed last n s').value := by
  induction n generalizing completed last s s' with
  | zero => exact ⟨alike, rfl, rfl⟩
  | succ n ih =>
    have rounded := alike.round rho
    simp only [Session.roundsAfter, Logged.value_bind]
    rw [rounded.failure]
    cases (s'.round rho).value.failure with
    | some e => exact ⟨rounded.state, rfl, rfl⟩
    | none =>
      dsimp only
      rw [residual_alike rounded.state.terms]
      cases residual (s'.round rho).value.state.terms with
      | none => exact ⟨rounded.state, rfl, rfl⟩
      | some latest => exact ih rounded.state _ _

end Session

end Rounds

/-- Tracing does not show in any result. A minimisation comes to the same outcome or error, so a
descent with a trace and one without answer alike; terms in one state with fallbacks that answer
alike come to one state by every operation, and fail alike; and so do whole sessions, round by
round. -/
theorem tracing_irrelevant :
    (∀ f x options, (minimize true f x options).value = (minimize false f x options).value) ∧
    (∀ options, (Fallback.lbfgs true options).Alike (Fallback.lbfgs false options)) ∧
    ∀ (α : Type) [Scalar α],
      (∀ p q : Potential α, p.Alike q →
        (∀ operation, Update.Alike Potential.Alike (p.apply operation) (q.apply operation)) ∧
        ∀ operations, (p.run operations).Alike (q.run operations)) ∧
      ∀ (s s' : Session α) (rho : α), s.Alike s' →
        Update.Alike Session.Alike (s.round rho).value (s'.round rho).value ∧
        ∀ n, Session.Run.Alike (Session.rounds rho n s).value (Session.rounds rho n s').value := by
  refine ⟨minimize_traced_eq, Fallback.alike_lbfgs, fun α _ => ⟨?_, ?_⟩⟩
  · intro p q alike
    exact ⟨alike.apply, alike.run⟩
  · intro s s' rho alike
    exact ⟨alike.round rho, fun n => alike.roundsAfter rho n 0 0⟩

def watchedHinge (traced : Bool) : Potential Float :=
  ⟨threefold.block, .squaredHinge (Fallback.lbfgs traced .default)⟩

def watched (traced : Bool) : Session Float :=
  ⟨[1.0, 1.0, 1.0],
    [watchedHinge traced,
      ⟨⟨2, [2.0], 1.0, Scalar.infinity, 0.25, [1], [1.0], Vector.zeros 1, [1.0]⟩,
        .hardRule .inequality⟩]⟩

/-- The journals of a traced and an untraced descent differ. What is left behind does not. -/
theorem tracing_irrelevant_watched :
    (watched true).Alike (watched false) ∧
      (minimize false threefold.objective [1.0, 1.0, 1.0] .default).events.length <
        (minimize true threefold.objective [1.0, 1.0, 1.0] .default).events.length ∧
      Update.Alike Potential.Alike (watchedHinge true).solve.value
        (watchedHinge false).solve.value ∧
      Update.Alike Session.Alike ((watched true).round 0.25).value
        ((watched false).round 0.25).value ∧
      Session.Run.Alike (Session.rounds 0.25 3 (watched true)).value
        (Session.rounds 0.25 3 (watched false)).value := by
  obtain ⟨_, descents, all⟩ := tracing_irrelevant
  obtain ⟨terms, sessions⟩ := all Float
  have hinges : (watchedHinge true).Alike (watchedHinge false) := .refitted _ (descents .default)
  have alike : (watched true).Alike (watched false) := ⟨rfl, .cons hinges (.cons (.same _) .nil)⟩
  have longer : (minimize false threefold.objective [1.0, 1.0, 1.0] .default).events.length <
      (minimize true threefold.objective [1.0, 1.0, 1.0] .default).events.length := by
    decide +kernel
  obtain ⟨operated, _⟩ := terms _ _ hinges
  obtain ⟨once, often⟩ := sessions _ _ 0.25 alike
  exact ⟨alike, longer, operated .solve, once, often 3⟩

end RuleConsensus
