import RuleConsensus.Minimizer.Sample
import RuleConsensus.Proofs.Minimizer.Points
import RuleConsensus.Proofs.Term.Containment

/-!
A fault of the objective ends a run where it is met at the start of a descent, or for the gradient
where a search landed. A fault that ends a search only stops the descent.
-/

set_option autoImplicit false
set_option relaxedAutoImplicit false

namespace RuleConsensus

namespace Lbfgs

variable {settings : Settings} {f : Objective Float} {x : List Float}

/-- A call of an objective fails that a descent makes outside of its searches. -/
inductive FailsOutside (settings : Settings) (f : Objective Float) (x : List Float) :
    MinimizeError Float → Prop
  | startCost {e : MinimizeError Float} : f.CostFault x e → FailsOutside settings f x e
  | startGradient {v : Float} {e : MinimizeError Float} : f.oracle.cost x = .ok v →
    f.GradientFault x e → FailsOutside settings f x e
  | landing {s : State} {landing : Landing} {e : MinimizeError Float} :
    Reached settings f.oracle x s → s.GoesOn settings →
    search settings f.oracle s.ray = .ok landing → f.GradientFault landing.point e →
    FailsOutside settings f x e

/-- A call of an objective ends the search that a descent makes from some state. -/
structure FailsSearching (settings : Settings) (f : Objective Float) (x : List Float) (s : State)
    (e : MinimizeError Float) : Prop where
  reached : Reached settings f.oracle x s
  on : s.GoesOn settings
  failed : search settings f.oracle s.ray = .error (reportedFault e)

/-- A search that a descent makes from some state has no end. -/
inductive NeverLands (settings : Settings) (f : Objective Float) (x : List Float) : Prop
  | of {s : State} : Reached settings f.oracle x s → s.GoesOn settings →
    search settings f.oracle s.ray = .error .silent → NeverLands settings f x

theorem initial_eq_error_iff {failure : SolverFailure Float} :
    State.initial f.oracle x = .error failure ↔ ∃ e, failure = .objective e ∧
      (f.CostFault x e ∨ (∃ v, f.oracle.cost x = .ok v) ∧ f.GradientFault x e) := by
  unfold State.initial
  rw [bind_eq_error, f.guards.costFault]
  simp only [bind_eq_error, f.guards.gradientFault]
  constructor
  · rintro (⟨e, rfl, fault⟩ | ⟨v, cost, ⟨e, rfl, fault⟩ | ⟨_, _, fails⟩⟩)
    · exact ⟨e, rfl, .inl fault⟩
    · exact ⟨e, rfl, .inr ⟨⟨v, cost⟩, fault⟩⟩
    · cases fails
  · rintro ⟨e, rfl, fault | ⟨⟨v, cost⟩, fault⟩⟩
    · exact .inl ⟨e, rfl, fault⟩
    · exact .inr ⟨v, cost, .inl ⟨e, rfl, fault⟩⟩

theorem advance_eq_error_iff {s : State} {landing : Landing} {failure : SolverFailure Float} :
    s.advance settings f.oracle landing = .error failure ↔
      ∃ e, failure = .objective e ∧ f.GradientFault landing.point e := by
  unfold State.advance
  rw [bind_eq_error, f.guards.gradientFault]
  constructor
  · rintro (fault | ⟨_, _, fails⟩)
    · exact fault
    · cases fails
  · exact .inl

/-- A descent fails exactly by the faults of the objective outside of its searches. -/
theorem descend_eq_reported_iff {failure : SolverFailure Float} :
    descend settings f.oracle x = .error (.reported failure) ↔
      ∃ e, failure = .objective e ∧ FailsOutside settings f x e := by
  constructor
  · intro failed
    have ended : Ends settings f.oracle x (descend settings f.oracle x) := ends_descend
    rw [failed] at ended
    cases ended with
    | unstarted start =>
      obtain ⟨e, same, fault | ⟨⟨v, cost⟩, fault⟩⟩ := initial_eq_error_iff.mp start
      · exact ⟨e, same, .startCost fault⟩
      · exact ⟨e, same, .startGradient cost fault⟩
    | lost reached on found moved =>
      obtain ⟨e, same, fault⟩ := advance_eq_error_iff.mp moved
      exact ⟨e, same, .landing reached on found fault⟩
  · rintro ⟨e, rfl, outside⟩
    cases outside with
    | startCost fault =>
      have start := initial_eq_error_iff.mpr ⟨e, rfl, .inl fault⟩
      rw [descend, start]
      rfl
    | startGradient cost fault =>
      have start := initial_eq_error_iff.mpr ⟨e, rfl, .inr ⟨⟨_, cost⟩, fault⟩⟩
      rw [descend, start]
      rfl
    | landing reached on found fault =>
      rw [reached.descend_eq, on.run_eq, found]
      dsimp only
      rw [advance_eq_error_iff.mpr ⟨e, rfl, fault⟩]
      rfl

theorem descend_eq_silent_iff :
    descend settings f.oracle x = .error .silent ↔ NeverLands settings f x := by
  constructor
  · intro failed
    have ended : Ends settings f.oracle x (descend settings f.oracle x) := ends_descend
    rw [failed] at ended
    cases ended with
    | silenced reached on lost => exact .of reached on lost
  · rintro ⟨reached, on, lost⟩
    rw [reached.descend_eq, on.run_eq, lost]

namespace FailsSearching

variable {s : State} {e : MinimizeError Float}

theorem exists_fault (searching : FailsSearching settings f x s e) :
    ∃ a, f.CostFault (s.ray.point a) e ∨ f.GradientFault (s.ray.point a) e := by
  obtain ⟨a, failed⟩ := searches_search.blames e searching.failed
  refine ⟨a, ?_⟩
  rcases bind_eq_error.mp failed with fails | ⟨_, _, fails⟩
  · obtain ⟨_, ⟨⟩, fault⟩ := (f.guards.costFault _ _).mp fails
    exact .inl fault
  · rcases bind_eq_error.mp fails with fails | ⟨_, _, fails⟩
    · obtain ⟨_, ⟨⟩, fault⟩ := (f.guards.gradientFault _ _).mp fails
      exact .inr fault
    · cases fails

theorem descend_eq (searching : FailsSearching settings f x s e) :
    descend settings f.oracle x = .ok (s.exit (.objective e)) := by
  rw [searching.reached.descend_eq, searching.on.run_eq, searching.failed]

end FailsSearching

end Lbfgs

section Minimize

open Lbfgs (FailsOutside FailsSearching NeverLands)

variable {settings : Lbfgs.Settings} {f : Objective Float} {x : List Float}
  {options : MinimizerOptions} {e : MinimizeError Float}

theorem minimize_of_failsOutside (traced : Bool) (start : f.check x = .ok ())
    (taken : Lbfgs.Settings.ofOptions options = .ok settings)
    (outside : FailsOutside settings f x e) :
    (minimize traced f x options).value = .error (.reported e) := by
  have failed := Lbfgs.descend_eq_reported_iff.mpr ⟨e, rfl, outside⟩
  rw [minimize_value traced start taken, descendAndReport, failed]
  rfl

/-- The outcome is that of a search that failed, and the fault stands in its status only. -/
theorem minimize_of_failsSearching (traced : Bool) (start : f.check x = .ok ())
    (taken : Lbfgs.Settings.ofOptions options = .ok settings) {s : Lbfgs.State}
    (searching : FailsSearching settings f x s e) (finite : Vector.Finite s.best) :
    (minimize traced f x options).value = .ok (s.exit (.objective e)).outcome := by
  have valued := ((f.guards.cost _ _).mp searching.reached.honest.best).2
  exact minimize_of_descend traced start taken searching.descend_eq finite valued

theorem Fallback.lbfgs_of_failsOutside (traced : Bool) (start : f.check x = .ok ())
    (taken : Lbfgs.Settings.ofOptions options = .ok settings)
    (outside : FailsOutside settings f x e) :
    ((lbfgs traced options).minimize f x).value = .error (.reported e) := by
  unfold lbfgs
  dsimp only
  rw [Logged.value_bind, minimize_of_failsOutside traced start taken outside]
  rfl

theorem Fallback.lbfgs_of_failsSearching (traced : Bool) (start : f.check x = .ok ())
    (taken : Lbfgs.Settings.ofOptions options = .ok settings) {s : Lbfgs.State}
    (searching : FailsSearching settings f x s e) (finite : Vector.Finite s.best) :
    ((lbfgs traced options).minimize f x).value = .ok s.best :=
  lbfgs_eq_ok_iff.mpr ⟨_, minimize_of_failsSearching traced start taken searching finite, rfl, rfl⟩

/-- What is handed on of an objective, and where its faults go. A cost is finite and the value at
its point, and a gradient fits its point and is finite. A call that fails outside of a search is
the only failure that a descent reports, and its own fault comes out of the run, the fallback, and
the solve of a wide hinge, which keeps its primal. A descent is silent only where a search has no
end. A call that fails in a search is not reported: all three
go on with the best point so far. -/
theorem faults_reported_or_end_search (traced : Bool)
    (taken : Lbfgs.Settings.ofOptions options = .ok settings) :
    (∀ f : Objective Float, f.Guards f.oracle) ∧
    (∀ (f : Objective Float) x,
      (∀ failure, Lbfgs.descend settings f.oracle x = .error (.reported failure) ↔
        ∃ e, failure = .objective e ∧ FailsOutside settings f x e) ∧
      (Lbfgs.descend settings f.oracle x = .error .silent ↔ NeverLands settings f x)) ∧
    (∀ (f : Objective Float) x e, f.check x = .ok () → FailsOutside settings f x e →
      (minimize traced f x options).value = .error (.reported e) ∧
      ((Fallback.lbfgs traced options).minimize f x).value = .error (.reported e)) ∧
    (∀ (f : Objective Float) x s e, f.check x = .ok () → FailsSearching settings f x s e →
      (∃ a, f.CostFault (s.ray.point a) e ∨ f.GradientFault (s.ray.point a) e) ∧
      (Vector.Finite s.best →
        (minimize traced f x options).value = .ok (s.exit (.objective e)).outcome ∧
        ((Fallback.lbfgs traced options).minimize f x).value = .ok s.best)) ∧
    ∀ p : Potential Float, p.kind = .squaredHinge (Fallback.lbfgs traced options) →
      3 ≤ p.block.arity → SquaredHinge.inactive p.block p.block.candidate = false →
      Objective.checkSeed p.block.candidate = .ok () →
      (∀ e, FailsOutside settings p.objective p.block.candidate e →
        p.solve.value = .failed p (.reported (.fallback e))) ∧
      ∀ s e, FailsSearching settings p.objective p.block.candidate s e → Vector.Finite s.best →
        p.solve.value = .done (p.withPrimal s.best) := by
  refine ⟨fun f => f.guards, fun f x => ⟨fun failure => Lbfgs.descend_eq_reported_iff,
    Lbfgs.descend_eq_silent_iff⟩, ?_, ?_, ?_⟩
  · intro f x e start outside
    exact ⟨minimize_of_failsOutside traced start taken outside,
      Fallback.lbfgs_of_failsOutside traced start taken outside⟩
  · intro f x s e start searching
    refine ⟨searching.exists_fault, fun finite => ?_⟩
    exact ⟨minimize_of_failsSearching traced start taken searching finite,
      Fallback.lbfgs_of_failsSearching traced start taken searching finite⟩
  · intro p kind wide active start
    constructor
    · intro e outside
      have refused := Fallback.lbfgs_of_failsOutside traced start taken outside
      exact Potential.solve_of_refused_answer kind wide active refused
    · intro s e searching finite
      have answered := Fallback.lbfgs_of_failsSearching traced start taken searching finite
      exact Potential.solve_of_finite_answer kind wide active answered finite

end Minimize

/-- The square, which fails beyond a wall on either side. -/
def barredSquare : Objective Float :=
  Sample.walled (Sample.Shape.quadratic [1.0] [0.0]).objective
    (some ⟨-0.5, 2.0, .error "outside the wall"⟩)

/-- A hinge over three variables whose cost at the candidate is too great to be a number. -/
def overflowing : Potential Float :=
  ⟨⟨1, [1.0, 1.0, 1.0], 0.0, 1.0, 1.0, [0, 1, 2], [1e200, 1e200, 1e200], Vector.zeros 3,
    [1e200, 1e200, 1e200]⟩, .squaredHinge (Fallback.lbfgs false .default)⟩

set_option maxRecDepth 4000 in
theorem faults_reported_or_end_search_barredSquare :
    Lbfgs.Settings.ofOptions .default = .ok usualSettings ∧
      (minimize false barredSquare [3.0] .default).value =
        .error (.reported (.objectiveFailed "outside the wall")) ∧
      overflowing.solve.value =
        .failed overflowing (.reported (.fallback (.nonFiniteCost Scalar.infinity))) := by
  obtain ⟨_, _, reported, _, solved⟩ := faults_reported_or_end_search false ofOptions_default
  refine ⟨ofOptions_default, ?_, ?_⟩
  · have outside : barredSquare.CostFault [3.0] (.objectiveFailed "outside the wall") :=
      .own (by rfl)
    exact (reported _ _ _ (by rfl) (.startCost outside)).1
  · have outside : overflowing.objective.CostFault overflowing.block.candidate
        (.nonFiniteCost Scalar.infinity) := .nonFinite (by rfl) (by decide)
    exact (solved overflowing rfl (by decide) (by decide) (by rfl)).1 _
      (.startCost outside)

def barredStart : Lbfgs.State :=
  ⟨[1.0], 1.0, Scalar.infinity, [2.0], [1.0], 1.0, 0, [], 1, 1⟩

set_option maxRecDepth 4000 in
/-- The first trial of the walled square fails. The run is over, and the fault is not reported. -/
theorem search_fault_unreported :
    Lbfgs.FailsSearching usualSettings barredSquare [1.0] barredStart
        (.objectiveFailed "outside the wall") ∧
      ∃ out, (minimize false barredSquare [1.0] .default).value = .ok out ∧
        out.point = [1.0] := by
  have searching : Lbfgs.FailsSearching usualSettings barredSquare [1.0] barredStart
      (.objectiveFailed "outside the wall") :=
    { reached := .start (by rfl)
      on := ⟨by decide, by decide +kernel, by decide +kernel⟩
      failed := MoreThuente.search_of_first_fault (by decide) (by rfl) }
  have finite : Vector.Finite barredStart.best := by decide
  exact ⟨searching, _, minimize_of_failsSearching false (by rfl) ofOptions_default searching finite,
    rfl⟩

end RuleConsensus
