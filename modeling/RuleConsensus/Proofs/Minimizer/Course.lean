import RuleConsensus.Minimizer.Minimize
import RuleConsensus.Proofs.Minimizer.Guarded
import RuleConsensus.Proofs.Minimizer.Searches

set_option autoImplicit false
set_option relaxedAutoImplicit false

namespace RuleConsensus

open Failure (report)

namespace Lbfgs

variable {settings : Settings} {oracle : Oracle} {x : List Float}

/-- A descent searches from a state: iterations are left, and nothing else stops it. -/
structure State.GoesOn (settings : Settings) (s : State) : Prop where
  left : s.iterations < settings.iterations
  unconverged : s.converged settings = false
  untargeted : ¬s.bestCost ≤ -Scalar.infinity

/-- The states that a descent stands at, one after the other. -/
inductive Reached (settings : Settings) (oracle : Oracle) (x : List Float) : State → Prop
  | start {s : State} : State.initial oracle x = .ok s → Reached settings oracle x s
  | land {s after : State} {landing : Landing} : Reached settings oracle x s →
    s.GoesOn settings → search settings oracle s.ray = .ok landing →
    s.advance settings oracle landing = .ok after → Reached settings oracle x after

theorem State.initial_eq_ok_iff {s : State} :
    State.initial oracle x = .ok s ↔ ∃ cost gradient, oracle.cost x = .ok cost ∧
      oracle.gradient x = .ok gradient ∧
      ⟨x, cost, Scalar.infinity, gradient, x, cost, 0, [], 1, 1⟩ = s := by
  unfold State.initial
  simp only [bind_eq_ok, pure_eq_ok]
  constructor
  · rintro ⟨cost, hc, gradient, hg, same⟩
    exact ⟨cost, gradient, hc, hg, same⟩
  · rintro ⟨cost, gradient, hc, hg, same⟩
    exact ⟨cost, hc, gradient, hg, same⟩

theorem iterations_initial {s : State} (h : State.initial oracle x = .ok s) :
    s.iterations = 0 := by
  obtain ⟨_, _, _, _, rfl⟩ := State.initial_eq_ok_iff.mp h
  rfl

theorem iterations_advance {s after : State} {landing : Landing}
    (h : s.advance settings oracle landing = .ok after) :
    after.iterations = s.iterations + 1 := by
  rcases bind_eq_ok.mp h with ⟨_, _, h⟩
  obtain rfl := pure_eq_ok.mp h
  rfl

theorem State.GoesOn.run_eq {s : State} (on : s.GoesOn settings) :
    run settings oracle (settings.iterations - s.iterations) s =
      match search settings oracle s.ray with
      | .error .silent => .error .silent
      | .error (.reported failure) => .ok (s.exit failure)
      | .ok landing => report (s.advance settings oracle landing) >>=
          run settings oracle (settings.iterations - (s.iterations + 1)) := by
  have more : settings.iterations - s.iterations =
      settings.iterations - (s.iterations + 1) + 1 := by
    have := on.left
    omega
  rw [more, run, on.unconverged, if_neg Bool.false_ne_true, if_neg on.untargeted]
  rfl

/-- From every state that it reaches, the descent runs on with the iterations left. -/
theorem Reached.descend_eq {s : State} (reached : Reached settings oracle x s) :
    descend settings oracle x = run settings oracle (settings.iterations - s.iterations) s := by
  induction reached with
  | @start s start =>
    unfold descend
    rw [start, iterations_initial start]
    rfl
  | @land s after landing _ on found moved ih =>
    rw [ih, on.run_eq, found, iterations_advance moved]
    dsimp only
    rw [moved]
    rfl

/-- A state whose costs are those of its points. -/
structure State.Honest (oracle : Oracle) (s : State) : Prop where
  point : oracle.cost s.point = .ok s.cost
  best : oracle.cost s.best = .ok s.bestCost

theorem State.honest_initial {s : State} (h : State.initial oracle x = .ok s) :
    s.Honest oracle := by
  obtain ⟨_, _, found, _, rfl⟩ := State.initial_eq_ok_iff.mp h
  exact ⟨found, found⟩

theorem State.Honest.advance {s after : State} (honest : s.Honest oracle) {landing : Landing}
    (found : search settings oracle s.ray = .ok landing)
    (h : s.advance settings oracle landing = .ok after) : after.Honest oracle := by
  have landed := (searches_search.gives landing found).cost
  rcases bind_eq_ok.mp h with ⟨_, _, h⟩
  obtain rfl := pure_eq_ok.mp h
  refine ⟨landed, ?_⟩
  dsimp only
  split
  case isTrue => exact landed
  case isFalse => exact honest.best

theorem Reached.honest {s : State} (reached : Reached settings oracle x s) :
    s.Honest oracle := by
  induction reached with
  | start start => exact State.honest_initial start
  | land _ _ found moved ih => exact ih.advance found moved

/-- The iterations of a descent are used up, and it has not converged. -/
inductive Capped (settings : Settings) (oracle : Oracle) (x : List Float) : Prop
  | of {s : State} : Reached settings oracle x s → settings.iterations ≤ s.iterations →
    s.converged settings = false → Capped settings oracle x

/-- The ways in which a descent ends, or never does. -/
inductive Ends (settings : Settings) (oracle : Oracle) (x : List Float) :
    Except (Failure (SolverFailure Float)) Result → Prop
  | unstarted {failure : SolverFailure Float} : State.initial oracle x = .error failure →
    Ends settings oracle x (.error (.reported failure))
  | stopped {s : State} {reason : StopReason} : Reached settings oracle x s →
    (reason = .maxItersReached → Capped settings oracle x) →
    Ends settings oracle x (.ok (s.stop reason))
  | exited {s : State} {failure : SolverFailure Float} : Reached settings oracle x s →
    s.GoesOn settings → search settings oracle s.ray = .error (.reported failure) →
    Ends settings oracle x (.ok (s.exit failure))
  | silenced {s : State} : Reached settings oracle x s → s.GoesOn settings →
    search settings oracle s.ray = .error .silent → Ends settings oracle x (.error .silent)
  | lost {s : State} {landing : Landing} {failure : SolverFailure Float} :
    Reached settings oracle x s → s.GoesOn settings →
    search settings oracle s.ray = .ok landing →
    s.advance settings oracle landing = .error failure →
    Ends settings oracle x (.error (.reported failure))

theorem Reached.ends_run {fuel : ℕ} {s : State} (reached : Reached settings oracle x s)
    (left : s.iterations + fuel = settings.iterations) :
    Ends settings oracle x (run settings oracle fuel s) := by
  induction fuel generalizing s with
  | zero =>
    refine .stopped reached fun capped => .of reached (by omega) ?_
    split at capped
    case isTrue => cases capped
    case isFalse unconverged => exact Bool.not_eq_true _ ▸ unconverged
  | succ fuel ih =>
    by_cases converged : s.converged settings = true
    · rw [run, if_pos converged]
      exact .stopped reached nofun
    by_cases targeted : s.bestCost ≤ -Scalar.infinity
    · rw [run, if_neg converged, if_pos targeted]
      exact .stopped reached nofun
    have on : s.GoesOn settings := ⟨by omega, Bool.not_eq_true _ ▸ converged, targeted⟩
    rw [run, if_neg converged, if_neg targeted]
    cases found : search settings oracle s.ray with
    | error failure =>
      cases failure with
      | silent => exact .silenced reached on found
      | reported failure => exact .exited reached on found
    | ok landing =>
      cases moved : s.advance settings oracle landing with
      | error failure =>
        dsimp only
        rw [moved]
        exact .lost reached on found moved
      | ok after =>
        dsimp only
        rw [moved]
        have more := iterations_advance moved
        exact ih (.land reached on found moved) (by omega)

theorem ends_descend : Ends settings oracle x (descend settings oracle x) := by
  unfold descend
  cases start : State.initial oracle x with
  | error failure => exact .unstarted start
  | ok s =>
    have fresh := iterations_initial start
    exact Reached.ends_run (.start start) (by omega)

/-- The best of a descent is the best of a state that it stood at. -/
theorem exists_reached_of_descend {r : Result}
    (h : descend settings oracle x = .ok r) :
    ∃ s, Reached settings oracle x s ∧ r.best = s.best ∧ r.bestCost = s.bestCost := by
  have ended : Ends settings oracle x (descend settings oracle x) := ends_descend
  rw [h] at ended
  cases ended with
  | stopped reached _ => exact ⟨_, reached, rfl, rfl⟩
  | exited reached _ _ => exact ⟨_, reached, rfl, rfl⟩

theorem reason_eq_maxItersReached_iff {r : Result} (h : descend settings oracle x = .ok r) :
    r.reason = .maxItersReached ↔ Capped settings oracle x := by
  constructor
  · intro capped
    have ended : Ends settings oracle x (descend settings oracle x) := ends_descend
    rw [h] at ended
    cases ended with
    | stopped _ cap => exact cap capped
    | exited => cases capped
  · rintro ⟨reached, used, unconverged⟩
    rw [reached.descend_eq, Nat.sub_eq_zero_of_le used, run, unconverged] at h
    obtain rfl := pure_eq_ok.mp h
    rfl

/-- What a result comes to, if it can be reported. -/
def Result.outcome (r : Result) : Outcome where
  point := r.best
  value := r.bestCost
  converged := true
  capReached := Termination.stopped r.reason == .stopped .maxItersReached
  status := (Termination.stopped r.reason).text
  iterations := r.iterations
  calls := [("cost_count", r.costCalls), ("gradient_count", r.gradientCalls)]
  gradientNorm := r.gradient.map Vector.norm

theorem Result.report_eq_ok_iff {r : Result} {out : Outcome} :
    r.report = .ok out ↔
      Vector.Finite r.best ∧ r.bestCost.isFinite = true ∧ r.outcome = out := by
  have pointed {p : List Float} :
      checkMinimizer (some r.best) = .ok p ↔ Vector.Finite r.best ∧ r.best = p := by
    rw [Vector.finite_iff]
    unfold checkMinimizer
    cases found : Vector.firstNonFinite? r.best <;> simp [found]
  unfold Result.report Outcome.ofRun
  simp only [bind_eq_ok, pointed, checkCost_eq_ok_iff, pure_eq_ok]
  constructor
  · rintro ⟨p, ⟨finite, rfl⟩, _, valued, same⟩
    exact ⟨finite, valued, same⟩
  · rintro ⟨finite, valued, same⟩
    exact ⟨r.best, ⟨finite, rfl⟩, (), valued, same⟩

end Lbfgs

theorem minimize_value {settings : Lbfgs.Settings} {f : Objective Float} {x : List Float}
    {options : MinimizerOptions} (traced : Bool) (start : f.check x = .ok ())
    (taken : Lbfgs.Settings.ofOptions options = .ok settings) :
    (minimize traced f x options).value = descendAndReport settings f.oracle x := by
  unfold minimize
  rw [start, taken]
  cases traced with
  | false => rfl
  | true =>
    simp only [if_true, Logged.value_bind, seeStart]
    cases cost : f.oracle.cost x with
    | ok v => rfl
    | error failure =>
      rw [descendAndReport, Lbfgs.descend, Lbfgs.State.initial, cost]
      rfl

theorem minimize_of_descend {settings : Lbfgs.Settings} {f : Objective Float} {x : List Float}
    {options : MinimizerOptions} (traced : Bool) (start : f.check x = .ok ())
    (taken : Lbfgs.Settings.ofOptions options = .ok settings) {r : Lbfgs.Result}
    (found : Lbfgs.descend settings f.oracle x = .ok r) (finite : Vector.Finite r.best)
    (valued : r.bestCost.isFinite = true) :
    (minimize traced f x options).value = .ok r.outcome := by
  rw [minimize_value traced start taken, descendAndReport, found]
  exact Failure.report_eq_ok_iff.mpr (Lbfgs.Result.report_eq_ok_iff.mpr ⟨finite, valued, rfl⟩)

theorem exists_result_of_minimize {traced : Bool} {f : Objective Float} {x : List Float}
    {options : MinimizerOptions} {out : Outcome}
    (h : (minimize traced f x options).value = .ok out) :
    ∃ settings r, Lbfgs.Settings.ofOptions options = .ok settings ∧
      Lbfgs.descend settings f.oracle x = .ok r ∧ Vector.Finite r.best ∧ r.outcome = out := by
  cases start : f.check x with
  | error e =>
    unfold minimize at h
    rw [start] at h
    cases h
  | ok u =>
    cases taken : Lbfgs.Settings.ofOptions options with
    | error failure =>
      unfold minimize at h
      rw [start, taken] at h
      cases h
    | ok settings =>
      rw [minimize_value traced start taken, descendAndReport] at h
      split at h
      case h_1 r found =>
        obtain ⟨finite, _, same⟩ :=
          Lbfgs.Result.report_eq_ok_iff.mp (Failure.report_eq_ok_iff.mp h)
        exact ⟨settings, r, rfl, found, finite, same⟩
      case h_2 => cases h

def usualSettings : Lbfgs.Settings :=
  ⟨.moreThuente, Lbfgs.defaultMemory, 1e-8, positionTolerance, 500⟩

theorem ofOptions_default : Lbfgs.Settings.ofOptions .default = .ok usualSettings := by
  have gradient : ¬(1e-8 : Float) < 0.0 := by decide
  have cost : ¬positionTolerance < 0.0 := by decide
  simp only [Lbfgs.Settings.ofOptions, MinimizerOptions.default, Option.getD_some,
    Option.getD_none, gradient, cost, if_false]
  rfl

end RuleConsensus
