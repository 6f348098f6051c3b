import RuleConsensus.Minimizer.Oracle
import RuleConsensus.Proofs.Term.Demand

set_option autoImplicit false
set_option relaxedAutoImplicit false

namespace RuleConsensus

open FiniteDifference (centralPoints centralQuotients forwardPoints forwardQuotients)

section Checks

theorem asFailure_eq_ok_iff {β : Type} {r : Except (MinimizeError Float) β} {v : β} :
    asFailure r = .ok v ↔ r = .ok v := by
  cases r <;> simp [asFailure]

theorem asFailure_eq_error_iff {β : Type} {r : Except (MinimizeError Float) β}
    {failure : SolverFailure Float} :
    asFailure r = .error failure ↔ ∃ e, r = .error e ∧ failure = .objective e := by
  cases r with
  | ok v => simp [asFailure]
  | error e => simp [asFailure, eq_comm]

theorem checkCost_eq_ok_iff {v : Float} {u : Unit} :
    checkCost v = .ok u ↔ v.isFinite = true := by
  unfold checkCost
  split_ifs with finite <;> simp [finite]

theorem checkCost_eq_error_iff {v : Float} {e : MinimizeError Float} :
    checkCost v = .error e ↔ v.isFinite = false ∧ e = .nonFiniteCost v := by
  unfold checkCost
  cases v.isFinite <;> simp [eq_comm]

/-- The first entry of a gradient that is not finite. -/
abbrev FirstNonFinite (g : List Float) (i : ℕ) (v : Float) : Prop :=
  FirstBad (fun a => a.isFinite = false) g i v

theorem firstNonFinite?_eq_some_iff {g : List Float} {i : ℕ} {v : Float} :
    Vector.firstNonFinite? g = some (i, v) ↔ FirstNonFinite g i v := by
  rw [Vector.firstNonFinite?_eq_some_iff]
  constructor
  · rintro ⟨entry, bad, before⟩
    refine ⟨entry, bad, fun j hj c hc => ?_⟩
    rw [Bool.not_eq_false]
    exact before j hj c hc
  · rintro ⟨entry, bad, before⟩
    exact ⟨entry, bad, fun j hj c hc => Bool.not_eq_false _ ▸ before j hj c hc⟩

theorem checkGradient_eq_ok_iff {g : List Float} {n : ℕ} :
    checkGradient g n = .ok () ↔ g.length = n ∧ Vector.Finite g := by
  unfold checkGradient
  split_ifs with length
  · simp [length]
  · cases found : Vector.firstNonFinite? g with
    | none =>
      have finite := Vector.firstNonFinite?_eq_none_iff.mp found
      exact iff_of_true rfl ⟨not_not.mp length, finite⟩
    | some p =>
      obtain ⟨entry, bad, _⟩ := Vector.firstNonFinite?_eq_some_iff.mp found
      refine iff_of_false nofun fun valid => ?_
      have finite := valid.2 p.2 (List.mem_of_getElem? entry)
      exact absurd (bad.symm.trans finite) Bool.false_ne_true

/-- What is wrong with a gradient: its length, or else its first entry that is not finite. -/
inductive GradientDefect (g : List Float) (n : ℕ) : MinimizeError Float → Prop
  | dimension : g.length ≠ n → GradientDefect g n (.gradientDimension n g.length)
  | entry {i : ℕ} {v : Float} : g.length = n → FirstNonFinite g i v →
    GradientDefect g n (.invalidGradient i v "Gradient elements must be finite.")

theorem checkGradient_eq_error_iff {g : List Float} {n : ℕ} {e : MinimizeError Float} :
    checkGradient g n = .error e ↔ GradientDefect g n e := by
  unfold checkGradient
  split_ifs with length
  · constructor
    · rintro ⟨⟩
      exact .dimension length
    · rintro (_ | ⟨same, _⟩)
      · rfl
      · exact absurd same length
  · have same := not_not.mp length
    cases found : Vector.firstNonFinite? g with
    | none =>
      refine iff_of_false nofun fun defect => ?_
      cases defect with
      | dimension different => exact different same
      | entry _ first =>
        cases found.symm.trans (firstNonFinite?_eq_some_iff.mpr first)
    | some p =>
      rcases p with ⟨i, v⟩
      have first := firstNonFinite?_eq_some_iff.mp found
      constructor
      · rintro ⟨⟩
        exact .entry same first
      · intro defect
        cases defect with
        | dimension different => exact absurd same different
        | entry _ first' =>
          obtain ⟨rfl, rfl⟩ := first.unique first'
          rfl

end Checks

namespace FiniteDifference

variable {f : Evaluation} {x : List Float}

theorem remembered_eq_none_iff {points : List (List Float)} :
    remembered .first f points = none ↔ ∀ p ∈ points, ∃ v, f p = .ok v := by
  unfold remembered failures
  rw [List.head?_filterMap, List.findSome?_eq_none_iff]
  refine forall₂_congr fun p _ => ?_
  cases f p <;> simp

/-- The first evaluation of a pass that fails. -/
inductive FirstFailure (f : Evaluation) (points : List (List Float)) (p : List Float)
    (failure : SolverFailure Float) : Prop
  | of {before after : List (List Float)} : points = before ++ p :: after →
    (∀ q ∈ before, ∃ v, f q = .ok v) → f p = .error failure → FirstFailure f points p failure

theorem remembered_eq_some_iff {points : List (List Float)} {failure : SolverFailure Float} :
    remembered .first f points = some failure ↔ ∃ p, FirstFailure f points p failure := by
  unfold remembered failures
  rw [List.head?_filterMap, List.findSome?_eq_some_iff]
  constructor
  · rintro ⟨before, p, after, rfl, failing, earlier⟩
    refine ⟨p, .of rfl (fun q hq => ?_) ?_⟩
    · have evaluated := earlier q hq
      cases found : f q with
      | ok v => exact ⟨v, rfl⟩
      | error e => simp [found] at evaluated
    · cases found : f p with
      | ok v => simp [found] at failing
      | error e => simpa [found] using failing
  · rintro ⟨p, same, earlier, failing⟩
    refine ⟨_, p, _, same, by rw [failing], fun q hq => ?_⟩
    obtain ⟨v, evaluated⟩ := earlier q hq
    rw [evaluated]

/-- The central differences come out clean: no evaluation fails, and all quotients are finite. -/
def Clean (f : Evaluation) (x : List Float) : Prop :=
  (∀ p ∈ centralPoints x, ∃ v, f p = .ok v) ∧ Vector.Finite (centralQuotients f x)

theorem length_centralQuotients : (centralQuotients f x).length = x.length := by
  rw [centralQuotients, List.length_map, List.length_range]

theorem length_forwardQuotients : (forwardQuotients f x).length = x.length := by
  rw [forwardQuotients, List.length_map, List.length_range]

theorem gradient_of_clean (clean : Clean f x) :
    gradient .first f x = .ok (centralQuotients f x) := by
  have finite := checkGradient_eq_ok_iff.mpr ⟨length_centralQuotients, clean.2⟩
  unfold gradient
  rw [remembered_eq_none_iff.mpr clean.1, finite]

theorem gradient_of_not_clean (unclean : ¬Clean f x) :
    gradient .first f x = forward .first f x := by
  unfold gradient
  split
  case h_1 passed finite =>
    exact absurd ⟨remembered_eq_none_iff.mp passed, (checkGradient_eq_ok_iff.mp finite).2⟩ unclean
  case h_2 => rfl

theorem forward_eq_ok_iff {g : List Float} :
    forward .first f x = .ok g ↔ (∀ p ∈ forwardPoints x, ∃ v, f p = .ok v) ∧
      Vector.Finite (forwardQuotients f x) ∧ forwardQuotients f x = g := by
  unfold forward
  cases passed : remembered .first f (forwardPoints x) with
  | some failure =>
    refine iff_of_false nofun fun ⟨all, _⟩ => ?_
    cases passed.symm.trans (remembered_eq_none_iff.mpr all)
  | none =>
    have all := remembered_eq_none_iff.mp passed
    dsimp only
    rw [bind_unit_eq_ok, checkGradient_eq_ok_iff, pure_eq_ok]
    exact ⟨fun ⟨⟨_, finite⟩, same⟩ => ⟨all, finite, same⟩,
      fun ⟨_, finite, same⟩ => ⟨⟨length_forwardQuotients, finite⟩, same⟩⟩

theorem forward_eq_error_iff {e : MinimizeError Float} :
    forward .first f x = .error e ↔
      (∃ p failure, FirstFailure f (forwardPoints x) p failure ∧ e = failure.cause) ∨
        (∀ p ∈ forwardPoints x, ∃ v, f p = .ok v) ∧
          GradientDefect (forwardQuotients f x) x.length e := by
  unfold forward
  cases passed : remembered .first f (forwardPoints x) with
  | some failure =>
    obtain ⟨p, first⟩ := remembered_eq_some_iff.mp passed
    constructor
    · rintro ⟨⟩
      exact .inl ⟨p, failure, first, rfl⟩
    · rintro (⟨q, other, first', rfl⟩ | ⟨all, _⟩)
      · have same := remembered_eq_some_iff.mpr ⟨q, first'⟩
        rw [passed] at same
        rw [Option.some.inj same]
      · cases passed.symm.trans (remembered_eq_none_iff.mpr all)
  | none =>
    have all := remembered_eq_none_iff.mp passed
    dsimp only
    rw [bind_eq_error, checkGradient_eq_error_iff]
    constructor
    · rintro (defect | ⟨_, _, fails⟩)
      · exact .inr ⟨all, defect⟩
      · cases fails
    · rintro (⟨q, other, first, rfl⟩ | ⟨_, defect⟩)
      · cases passed.symm.trans (remembered_eq_some_iff.mpr ⟨q, first⟩)
      · exact .inl defect

end FiniteDifference

namespace Objective

variable {f : Objective Float} {x : List Float}

/-- Why the cost of a point does not get through. -/
inductive CostFault (f : Objective Float) (x : List Float) : MinimizeError Float → Prop
  | own {e : MinimizeError Float} : f.value x = .error e → CostFault f x e
  | nonFinite {v : Float} : f.value x = .ok v → v.isFinite = false →
    CostFault f x (.nonFiniteCost v)

theorem guardedCost_eq_ok_iff {v : Float} :
    f.guardedCost x = .ok v ↔ f.value x = .ok v ∧ v.isFinite = true := by
  unfold guardedCost
  simp only [bind_eq_ok, asFailure_eq_ok_iff, checkCost_eq_ok_iff, pure_eq_ok]
  constructor
  · rintro ⟨w, value, _, finite, rfl⟩
    exact ⟨value, finite⟩
  · rintro ⟨value, finite⟩
    exact ⟨v, value, (), finite, rfl⟩

theorem guardedCost_eq_error_iff {failure : SolverFailure Float} :
    f.guardedCost x = .error failure ↔ ∃ e, failure = .objective e ∧ f.CostFault x e := by
  unfold guardedCost
  simp only [bind_eq_error, asFailure_eq_error_iff, asFailure_eq_ok_iff, checkCost_eq_error_iff]
  constructor
  · rintro (⟨e, own, rfl⟩ | ⟨v, value, ⟨e, ⟨infinite, rfl⟩, rfl⟩ | ⟨_, _, fails⟩⟩)
    · exact ⟨e, rfl, .own own⟩
    · exact ⟨_, rfl, .nonFinite value infinite⟩
    · cases fails
  · rintro ⟨e, rfl, own | ⟨value, infinite⟩⟩
    · exact .inl ⟨e, own, rfl⟩
    · exact .inr ⟨_, value, .inl ⟨_, ⟨infinite, rfl⟩, rfl⟩⟩

open FiniteDifference (Clean FirstFailure)

/-- Why a gradient does not get through. An objective that does not know its gradient is
differenced, and only the forward pass has faults to report. -/
inductive GradientFault (f : Objective Float) (x : List Float) : MinimizeError Float → Prop
  | own {e : MinimizeError Float} : f.gradient x = .error e → e ≠ .gradientNotImplemented →
    GradientFault f x e
  | defect {g : List Float} {e : MinimizeError Float} : f.gradient x = .ok g →
    GradientDefect g x.length e → GradientFault f x e
  | evaluation {p : List Float} {e : MinimizeError Float} :
    f.gradient x = .error .gradientNotImplemented → ¬Clean f.guardedCost x →
    FirstFailure f.guardedCost (forwardPoints x) p (.objective e) → GradientFault f x e
  | quotient {e : MinimizeError Float} : f.gradient x = .error .gradientNotImplemented →
    ¬Clean f.guardedCost x → (∀ q ∈ forwardPoints x, ∃ v, f.guardedCost q = .ok v) →
    GradientDefect (forwardQuotients f.guardedCost x) x.length e → GradientFault f x e

theorem guardedGradient_of_known {g : List Float} (known : f.gradient x = .ok g) :
    f.guardedGradient x = (do
      asFailure (checkGradient g x.length)
      pure g) := by
  unfold guardedGradient
  rw [known]

theorem guardedGradient_of_unknown (unknown : f.gradient x = .error .gradientNotImplemented) :
    f.guardedGradient x = asFailure (FiniteDifference.gradient .first f.guardedCost x) := by
  unfold guardedGradient
  rw [unknown]

theorem guardedGradient_of_own {e : MinimizeError Float} (own : f.gradient x = .error e)
    (other : e ≠ .gradientNotImplemented) : f.guardedGradient x = .error (.objective e) := by
  unfold guardedGradient
  rw [own]
  split
  case h_1 same => cases same
  case h_2 same =>
    cases same
    exact absurd rfl other
  case h_3 same =>
    cases same
    rfl

/-- A gradient that gets through is the objective's own or the one of the differences, and has one
finite entry for each coordinate. -/
theorem of_guardedGradient {g : List Float} (h : f.guardedGradient x = .ok g) :
    g.length = x.length ∧ Vector.Finite g := by
  cases known : f.gradient x with
  | ok g' =>
    rw [guardedGradient_of_known known] at h
    obtain ⟨_, checked, h⟩ := bind_eq_ok.mp h
    obtain rfl := pure_eq_ok.mp h
    exact checkGradient_eq_ok_iff.mp (asFailure_eq_ok_iff.mp checked)
  | error e =>
    by_cases unknown : e = .gradientNotImplemented
    · subst unknown
      rw [guardedGradient_of_unknown known, asFailure_eq_ok_iff] at h
      by_cases clean : Clean f.guardedCost x
      · obtain rfl := Except.ok.inj ((FiniteDifference.gradient_of_clean clean).symm.trans h)
        exact ⟨FiniteDifference.length_centralQuotients, clean.2⟩
      · rw [FiniteDifference.gradient_of_not_clean clean,
          FiniteDifference.forward_eq_ok_iff] at h
        obtain ⟨_, finite, rfl⟩ := h
        exact ⟨FiniteDifference.length_forwardQuotients, finite⟩
    · cases (guardedGradient_of_own known unknown).symm.trans h

theorem guardedGradient_eq_error_iff_of_unknown
    (unknown : f.gradient x = .error .gradientNotImplemented) {failure : SolverFailure Float} :
    f.guardedGradient x = .error failure ↔ ∃ e, failure = .objective e ∧ f.GradientFault x e := by
  rw [guardedGradient_of_unknown unknown, asFailure_eq_error_iff]
  by_cases clean : Clean f.guardedCost x
  · rw [FiniteDifference.gradient_of_clean clean]
    refine iff_of_false nofun ?_
    rintro ⟨e, _, fault⟩
    cases fault with
    | own same other =>
      cases unknown.symm.trans same
      exact other rfl
    | defect same _ => cases unknown.symm.trans same
    | evaluation _ unclean _ => exact unclean clean
    | quotient _ unclean _ _ => exact unclean clean
  · rw [FiniteDifference.gradient_of_not_clean clean]
    simp only [FiniteDifference.forward_eq_error_iff]
    constructor
    · rintro ⟨e, ⟨p, failed, first, rfl⟩ | ⟨all, defect⟩, rfl⟩
      · rcases first with ⟨same, before, fails⟩
        obtain ⟨e, rfl, _⟩ := guardedCost_eq_error_iff.mp fails
        exact ⟨e, rfl, .evaluation unknown clean ⟨same, before, fails⟩⟩
      · exact ⟨e, rfl, .quotient unknown clean all defect⟩
    · rintro ⟨e, rfl, fault⟩
      cases fault with
      | own same other =>
        cases unknown.symm.trans same
        exact absurd rfl other
      | defect same _ => cases unknown.symm.trans same
      | evaluation _ _ first => exact ⟨e, .inl ⟨_, _, first, rfl⟩, rfl⟩
      | quotient _ _ all defect => exact ⟨e, .inr ⟨all, defect⟩, rfl⟩

theorem guardedGradient_eq_error_iff {failure : SolverFailure Float} :
    f.guardedGradient x = .error failure ↔ ∃ e, failure = .objective e ∧ f.GradientFault x e := by
  cases known : f.gradient x with
  | ok g =>
    rw [guardedGradient_of_known known, bind_eq_error, asFailure_eq_error_iff]
    constructor
    · rintro (⟨e, defect, rfl⟩ | ⟨_, _, fails⟩)
      · exact ⟨e, rfl, .defect known (checkGradient_eq_error_iff.mp defect)⟩
      · cases fails
    · rintro ⟨e, rfl, fault⟩
      cases fault with
      | defect same defect =>
        cases known.symm.trans same
        exact .inl ⟨e, checkGradient_eq_error_iff.mpr defect, rfl⟩
      | own same _ | evaluation same _ _ | quotient same _ _ _ => cases known.symm.trans same
  | error e =>
    by_cases unknown : e = .gradientNotImplemented
    · exact guardedGradient_eq_error_iff_of_unknown (unknown ▸ known)
    · rw [guardedGradient_of_own known unknown]
      constructor
      · rintro ⟨⟩
        exact ⟨e, rfl, .own known unknown⟩
      · rintro ⟨e', rfl, fault⟩
        cases fault with
        | own same _ =>
          cases known.symm.trans same
          rfl
        | defect same _ => cases known.symm.trans same
        | evaluation same _ _ | quotient same _ _ _ =>
          cases known.symm.trans same
          exact absurd rfl unknown

/-- What the solver gets of an objective. A cost is the finite value at its point, and a gradient
has one finite entry for each coordinate. A fault is handed on as it is. -/
structure Guards (f : Objective Float) (oracle : Oracle) : Prop where
  cost : ∀ x v, oracle.cost x = .ok v ↔ f.value x = .ok v ∧ v.isFinite = true
  costFault : ∀ x failure,
    oracle.cost x = .error failure ↔ ∃ e, failure = .objective e ∧ f.CostFault x e
  gradient : ∀ x g, oracle.gradient x = .ok g → g.length = x.length ∧ Vector.Finite g
  gradientFault : ∀ x failure,
    oracle.gradient x = .error failure ↔ ∃ e, failure = .objective e ∧ f.GradientFault x e

theorem guards (f : Objective Float) : f.Guards f.oracle where
  cost _ _ := guardedCost_eq_ok_iff
  costFault _ _ := guardedCost_eq_error_iff
  gradient _ _ := of_guardedGradient
  gradientFault _ _ := guardedGradient_eq_error_iff

end Objective

end RuleConsensus
