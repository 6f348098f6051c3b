import RuleConsensus.Proofs.Minimizer.Course
import RuleConsensus.Proofs.Term.WellFormed

set_option autoImplicit false
set_option relaxedAutoImplicit false

namespace RuleConsensus

def Oracle.Fits (oracle : Oracle) : Prop :=
  ∀ x g, oracle.gradient x = .ok g → g.length = x.length

theorem Objective.oracle_fits (f : Objective Float) : f.oracle.Fits :=
  fun x g h => (f.guards.gradient x g h).1

namespace Lbfgs

structure Move.Fits (n : Nat) (m : Move) : Prop where
  shift : m.shift.length = n
  change : m.change.length = n

/-- All that a descent in a space of some dimension keeps. -/
structure State.Fits (n : Nat) (s : State) : Prop where
  point : s.point.length = n
  gradient : s.gradient.length = n
  best : s.best.length = n
  moves : ∀ m ∈ s.moves, m.Fits n

theorem length_turn {n : Nat} {moves : List Move} (fits : ∀ m ∈ moves, m.Fits n) (scale : Float)
    {q : List Float} (hq : q.length = n) : (turn scale moves q).length = n := by
  induction moves generalizing q with
  | nil => rw [turn, Vector.length_scale, hq]
  | cons m older ih =>
    obtain ⟨first, others⟩ := List.forall_mem_cons.mp fits
    have back : (turn scale older (Vector.sub q (Vector.scale m.change
        (Vector.dot m.shift q * (1.0 / Vector.dot m.change m.shift))))).length = n := by
      refine ih others ?_
      rw [Vector.length_sub, Vector.length_scale, hq, first.change, Nat.min_self]
    rw [turn, Vector.length_add, Vector.length_scale, back, first.shift, Nat.min_self]

variable {settings : Settings} {oracle : Oracle} {n : Nat}

theorem State.fits_initial (fits : oracle.Fits) {x : List Float} {s : State}
    (h : State.initial oracle x = .ok s) : s.Fits x.length := by
  obtain ⟨_, g, _, hg, rfl⟩ := State.initial_eq_ok_iff.mp h
  exact ⟨rfl, fits x g hg, rfl, nofun⟩

theorem State.Fits.length_landing {s : State} (fits : s.Fits n) {landing : Landing}
    (h : search settings oracle s.ray = .ok landing) : landing.point.length = n := by
  obtain ⟨a, ha⟩ := (searches_search.gives landing h).onRay
  have turned : (direction s.moves s.gradient).length = n := by
    rw [direction, Vector.length_scale, length_turn fits.moves _ fits.gradient]
  rw [ha, Ray.point, Vector.length_add, Vector.length_scale]
  change min s.point.length (direction s.moves s.gradient).length = n
  rw [fits.point, turned, Nat.min_self]

theorem State.Fits.advance {s after : State} (fits : s.Fits n) (fits' : oracle.Fits)
    {landing : Landing} (landed : landing.point.length = n)
    (h : s.advance settings oracle landing = .ok after) : after.Fits n := by
  obtain ⟨g, hg, h⟩ := bind_eq_ok.mp h
  obtain rfl := pure_eq_ok.mp h
  have slope : g.length = n := (fits' landing.point g hg).trans landed
  refine ⟨landed, slope, ?_, List.forall_mem_cons.mpr ⟨⟨?_, ?_⟩, fun m hm => fits.moves m ?_⟩⟩
  · dsimp only
    split
    case isTrue => exact landed
    case isFalse => exact fits.best
  · rw [Vector.length_sub, landed, fits.point, Nat.min_self]
  · rw [Vector.length_sub, slope, fits.gradient, Nat.min_self]
  · split at hm
    case isTrue => exact (List.dropLast_sublist s.moves).subset hm
    case isFalse => exact hm

theorem Reached.fits (fits : oracle.Fits) {x : List Float} {s : State}
    (reached : Reached settings oracle x s) : s.Fits x.length := by
  induction reached with
  | start start => exact State.fits_initial fits start
  | land _ _ found moved ih => exact ih.advance fits (ih.length_landing found) moved

end Lbfgs

theorem length_point_of_minimize {traced : Bool} {f : Objective Float} {x : List Float}
    {options : MinimizerOptions} {out : Outcome}
    (h : (minimize traced f x options).value = .ok out) : out.point.length = x.length := by
  obtain ⟨settings, r, _, found, _, rfl⟩ := exists_result_of_minimize h
  obtain ⟨s, reached, point, _⟩ := Lbfgs.exists_reached_of_descend found
  exact (congrArg List.length point).trans (reached.fits f.oracle_fits).best

/-- The fallback answers with the point of an outcome, unless the iteration cap ended the run. -/
theorem Fallback.lbfgs_eq_ok_iff {traced : Bool} {options : MinimizerOptions}
    {f : Objective Float} {seed x : List Float} :
    ((lbfgs traced options).minimize f seed).value = .ok x ↔
      ∃ out, (RuleConsensus.minimize traced f seed options).value = .ok out ∧
        out.capReached = false ∧ out.point = x := by
  unfold lbfgs
  dsimp only
  rw [Logged.value_bind]
  cases (RuleConsensus.minimize traced f seed options).value with
  | error e => exact iff_of_false nofun fun ⟨_, found, _⟩ => nomatch found
  | ok out =>
    have accepted : Failure.report (accept out).value = .ok x ↔
        out.capReached = false ∧ out.point = x := by
      unfold accept
      cases out.capReached <;> simp
    refine accepted.trans ⟨fun h => ⟨out, rfl, h⟩, ?_⟩
    rintro ⟨_, ⟨⟩, h⟩
    exact h

theorem Fallback.keepsLength_lbfgs (traced : Bool) (options : MinimizerOptions) :
    (Fallback.lbfgs traced options).KeepsLength := by
  intro f seed x h
  obtain ⟨out, found, _, rfl⟩ := Fallback.lbfgs_eq_ok_iff.mp h
  exact length_point_of_minimize found

end RuleConsensus
