import RuleConsensus.Minimizer.Sample
import RuleConsensus.Proofs.Binary.Arithmetic
import RuleConsensus.Proofs.Minimizer.Guarded

set_option autoImplicit false
set_option relaxedAutoImplicit false

namespace RuleConsensus

open FiniteDifference

namespace FiniteDifference

variable {f : Evaluation} {x : List Float}

theorem valueAt_of_ok {p : List Float} {v : Float} (evaluated : f p = .ok v) :
    valueAt f p = v := by
  unfold valueAt
  rw [evaluated]

theorem exists_ok_of_finite {p : List Float} (finite : (valueAt f p).isFinite = true) :
    ∃ v, f p = .ok v := by
  unfold valueAt at finite
  cases evaluated : f p with
  | ok v => exact ⟨v, rfl⟩
  | error e =>
    rw [evaluated] at finite
    have undefined : (0.0 / 0.0 : Float).isFinite = false := by decide
    exact absurd (undefined.symm.trans finite) Bool.false_ne_true

theorem mem_centralPoints_iff {p : List Float} : p ∈ centralPoints x ↔
    ∃ i < x.length, p = moved x i spacing ∨ p = moved x i (-spacing) := by
  simp only [centralPoints, List.mem_flatMap, List.mem_range, List.mem_cons, List.not_mem_nil,
    or_false]

theorem mem_forwardPoints_iff {p : List Float} : p ∈ forwardPoints x ↔
    p = x ∨ ∃ i < x.length, p = moved x i spacing := by
  simp only [forwardPoints, List.mem_cons, List.mem_map, List.mem_range, eq_comm]

theorem map_range_eq_iff {n : ℕ} {entry : ℕ → Float} {g : List Float} :
    (List.range n).map entry = g ↔ g.length = n ∧ ∀ i < n, g[i]? = some (entry i) := by
  constructor
  · rintro rfl
    refine ⟨by rw [List.length_map, List.length_range], fun i hi => ?_⟩
    rw [List.getElem?_map, List.getElem?_range hi, Option.map_some]
  · rintro ⟨length, entries⟩
    refine List.ext_getElem? fun i => ?_
    by_cases hi : i < n
    · rw [entries i hi, List.getElem?_map, List.getElem?_range hi, Option.map_some]
    · rw [List.getElem?_eq_none (by simpa using hi), List.getElem?_eq_none (by omega)]

/-- No quotient is finite that a failing evaluation has a part in. -/
theorem clean_iff : Clean f x ↔ Vector.Finite (centralQuotients f x) := by
  refine ⟨fun clean => clean.2, fun finite => ⟨fun p member => ?_, finite⟩⟩
  obtain ⟨i, hi, side⟩ := mem_centralPoints_iff.mp member
  have quotient : Scalar.isFinite ((valueAt f (moved x i spacing) -
      valueAt f (moved x i (-spacing))) / (2.0 * spacing)) = true :=
    finite _ (List.mem_map_of_mem (List.mem_range.mpr hi))
  have divisor : (2.0 * spacing).isFinite = true := by decide
  obtain ⟨above, below⟩ := Binary.isFinite_of_sub (Binary.isFinite_of_div quotient divisor)
  rcases side with rfl | rfl
  · exact exists_ok_of_finite above
  · exact exists_ok_of_finite below

end FiniteDifference

namespace Objective

variable {f : Objective Float} {x g : List Float}

/-- An objective has a finite value at a point. -/
def Valued (f : Objective Float) (p : List Float) (v : Float) : Prop :=
  f.value p = .ok v ∧ v.isFinite = true

/-- The entries are the central quotients of an objective that has a finite value at all points of
them. -/
structure Central (f : Objective Float) (x g : List Float) : Prop where
  length : g.length = x.length
  entry : ∀ i < x.length, ∃ above below, f.Valued (moved x i spacing) above ∧
    f.Valued (moved x i (-spacing)) below ∧ g[i]? = some ((above - below) / (2.0 * spacing))

structure Forward (f : Objective Float) (x g : List Float) : Prop where
  length : g.length = x.length
  entry : ∃ here, f.Valued x here ∧ ∀ i < x.length, ∃ above, f.Valued (moved x i spacing) above ∧
    g[i]? = some ((above - here) / spacing)

/-- The first point of a pass where an objective has no finite value. -/
inductive FirstFault (f : Objective Float) (points : List (List Float)) (p : List Float)
    (e : MinimizeError Float) : Prop
  | of {before after : List (List Float)} : points = before ++ p :: after →
    (∀ q ∈ before, ∃ v, f.Valued q v) → f.CostFault p e → FirstFault f points p e

theorem central_iff : f.Central x g ↔
    (∀ p ∈ centralPoints x, ∃ v, f.guardedCost p = .ok v) ∧
      centralQuotients f.guardedCost x = g := by
  constructor
  · rintro ⟨length, entry⟩
    constructor
    · intro p member
      obtain ⟨i, hi, side⟩ := mem_centralPoints_iff.mp member
      obtain ⟨above, below, ahead, behind, _⟩ := entry i hi
      rcases side with rfl | rfl
      · exact ⟨above, guardedCost_eq_ok_iff.mpr ahead⟩
      · exact ⟨below, guardedCost_eq_ok_iff.mpr behind⟩
    · refine map_range_eq_iff.mpr ⟨length, fun i hi => ?_⟩
      obtain ⟨above, below, ahead, behind, quotient⟩ := entry i hi
      rw [quotient, valueAt_of_ok (guardedCost_eq_ok_iff.mpr ahead),
        valueAt_of_ok (guardedCost_eq_ok_iff.mpr behind)]
  · rintro ⟨all, quotients⟩
    obtain ⟨length, entries⟩ := map_range_eq_iff.mp quotients
    refine ⟨length, fun i hi => ?_⟩
    obtain ⟨above, ahead⟩ := all _ (mem_centralPoints_iff.mpr ⟨i, hi, .inl rfl⟩)
    obtain ⟨below, behind⟩ := all _ (mem_centralPoints_iff.mpr ⟨i, hi, .inr rfl⟩)
    refine ⟨above, below, guardedCost_eq_ok_iff.mp ahead, guardedCost_eq_ok_iff.mp behind, ?_⟩
    rw [entries i hi, valueAt_of_ok ahead, valueAt_of_ok behind]

theorem forward_iff : f.Forward x g ↔
    (∀ p ∈ forwardPoints x, ∃ v, f.guardedCost p = .ok v) ∧
      forwardQuotients f.guardedCost x = g := by
  constructor
  · rintro ⟨length, here, start, entry⟩
    constructor
    · intro p member
      rcases mem_forwardPoints_iff.mp member with rfl | ⟨i, hi, rfl⟩
      · exact ⟨here, guardedCost_eq_ok_iff.mpr start⟩
      · obtain ⟨above, ahead, _⟩ := entry i hi
        exact ⟨above, guardedCost_eq_ok_iff.mpr ahead⟩
    · refine map_range_eq_iff.mpr ⟨length, fun i hi => ?_⟩
      obtain ⟨above, ahead, quotient⟩ := entry i hi
      rw [quotient, valueAt_of_ok (guardedCost_eq_ok_iff.mpr ahead),
        valueAt_of_ok (guardedCost_eq_ok_iff.mpr start)]
  · rintro ⟨all, quotients⟩
    obtain ⟨length, entries⟩ := map_range_eq_iff.mp quotients
    obtain ⟨here, start⟩ := all _ (mem_forwardPoints_iff.mpr (.inl rfl))
    refine ⟨length, here, guardedCost_eq_ok_iff.mp start, fun i hi => ?_⟩
    obtain ⟨above, ahead⟩ := all _ (mem_forwardPoints_iff.mpr (.inr ⟨i, hi, rfl⟩))
    refine ⟨above, guardedCost_eq_ok_iff.mp ahead, ?_⟩
    rw [entries i hi, valueAt_of_ok ahead, valueAt_of_ok start]

theorem clean_iff_exists_central :
    Clean f.guardedCost x ↔ ∃ g, f.Central x g ∧ Vector.Finite g := by
  constructor
  · rintro ⟨all, finite⟩
    exact ⟨_, central_iff.mpr ⟨all, rfl⟩, finite⟩
  · rintro ⟨g, central, finite⟩
    obtain ⟨all, rfl⟩ := central_iff.mp central
    exact ⟨all, finite⟩

theorem firstFailure_iff {points : List (List Float)} {p : List Float}
    {failure : SolverFailure Float} :
    FirstFailure f.guardedCost points p failure ↔
      ∃ e, failure = .objective e ∧ f.FirstFault points p e := by
  constructor
  · rintro ⟨same, earlier, fails⟩
    obtain ⟨e, rfl, fault⟩ := guardedCost_eq_error_iff.mp fails
    refine ⟨e, rfl, .of same (fun q hq => ?_) fault⟩
    obtain ⟨v, evaluated⟩ := earlier q hq
    exact ⟨v, guardedCost_eq_ok_iff.mp evaluated⟩
  · rintro ⟨e, rfl, same, earlier, fault⟩
    refine .of same (fun q hq => ?_) (guardedCost_eq_error_iff.mpr ⟨e, rfl, fault⟩)
    obtain ⟨v, valued⟩ := earlier q hq
    exact ⟨v, guardedCost_eq_ok_iff.mpr valued⟩

theorem forward_eq_error_iff_fault {e : MinimizeError Float} :
    forward .first f.guardedCost x = .error e ↔
      (∃ p, f.FirstFault (forwardPoints x) p e) ∨
        ∃ g i v, f.Forward x g ∧ FirstNonFinite g i v ∧
          e = .invalidGradient i v "Gradient elements must be finite." := by
  rw [forward_eq_error_iff]
  refine or_congr ⟨?_, ?_⟩ ⟨?_, ?_⟩
  · rintro ⟨p, failure, first, rfl⟩
    obtain ⟨e, rfl, fault⟩ := firstFailure_iff.mp first
    exact ⟨p, fault⟩
  · rintro ⟨p, fault⟩
    exact ⟨p, _, firstFailure_iff.mpr ⟨e, rfl, fault⟩, rfl⟩
  · rintro ⟨all, defect⟩
    cases defect with
    | dimension different => exact absurd length_forwardQuotients different
    | entry _ first => exact ⟨_, _, _, forward_iff.mpr ⟨all, rfl⟩, first, rfl⟩
  · rintro ⟨g, i, v, entries, first, rfl⟩
    obtain ⟨all, rfl⟩ := forward_iff.mp entries
    exact ⟨all, .entry length_forwardQuotients first⟩

theorem not_central_of_error {p : List Float} {e : MinimizeError Float}
    (member : p ∈ centralPoints x) (failing : f.value p = .error e) : ¬f.Central x g := by
  intro central
  obtain ⟨v, evaluated⟩ := (central_iff.mp central).1 p member
  cases failing.symm.trans (guardedCost_eq_ok_iff.mp evaluated).1

/-- An objective that does not know its gradient gets the central quotients exactly if they come out
clean. Otherwise it gets the forward quotients exactly if these do, and fails as the forward pass
does: by the first point of it without a finite value, or by the first quotient that is not
finite. -/
theorem differenced_gradient (unknown : f.gradient x = .error .gradientNotImplemented) :
    (f.guardedGradient x = .ok (centralQuotients f.guardedCost x) ↔
      ∃ g, f.Central x g ∧ Vector.Finite g) ∧
    (∀ g, f.Central x g → Vector.Finite g → f.guardedGradient x = .ok g) ∧
    ((∀ g, f.Central x g → ¬Vector.Finite g) →
      (∀ g, f.guardedGradient x = .ok g ↔ f.Forward x g ∧ Vector.Finite g) ∧
      ∀ failure, f.guardedGradient x = .error failure ↔ ∃ e, failure = .objective e ∧
        ((∃ p, f.FirstFault (forwardPoints x) p e) ∨
          ∃ g i v, f.Forward x g ∧ FirstNonFinite g i v ∧
            e = .invalidGradient i v "Gradient elements must be finite.")) := by
  rw [guardedGradient_of_unknown unknown]
  refine ⟨⟨?_, ?_⟩, ?_, ?_⟩
  · intro returned
    have finite := (of_guardedGradient ((guardedGradient_of_unknown unknown).trans returned)).2
    exact clean_iff_exists_central.mp (clean_iff.mpr finite)
  · intro central
    rw [gradient_of_clean (clean_iff_exists_central.mpr central)]
    rfl
  · intro g central finite
    have clean := clean_iff_exists_central.mpr ⟨g, central, finite⟩
    obtain ⟨_, rfl⟩ := central_iff.mp central
    rw [gradient_of_clean clean]
    rfl
  · intro unclean
    have broken : ¬Clean f.guardedCost x := by
      rw [clean_iff_exists_central]
      rintro ⟨g, central, finite⟩
      exact unclean g central finite
    rw [gradient_of_not_clean broken]
    constructor
    · intro g
      rw [asFailure_eq_ok_iff, forward_eq_ok_iff, forward_iff]
      constructor
      · rintro ⟨all, finite, rfl⟩
        exact ⟨⟨all, rfl⟩, finite⟩
      · rintro ⟨⟨all, rfl⟩, finite⟩
        exact ⟨all, finite, rfl⟩
    · intro failure
      rw [asFailure_eq_error_iff]
      simp only [forward_eq_error_iff_fault, and_comm]

/-- The square between one and two, which fails outside and keeps its gradient to itself. -/
def edgedSquare : Objective Float :=
  Sample.withGradient (Sample.walled (Sample.Shape.quadratic [1.0] [0.0]).objective
    (some ⟨1.0, 2.0, .error "outside the wall"⟩)) .unknown

/-- At the lower edge only the central differences reach beyond the wall, and at the upper edge the
forward ones do as well. -/
theorem differenced_gradient_edgedSquare :
    edgedSquare.gradient [1.0] = .error .gradientNotImplemented ∧
      edgedSquare.gradient [2.0] = .error .gradientNotImplemented ∧
      edgedSquare.guardedGradient [1.0] = .ok [2.0 + spacing] ∧
      edgedSquare.guardedGradient [2.0] =
        .error (.objective (.objectiveFailed "outside the wall")) := by
  have below : edgedSquare.value (moved [1.0] 0 (-spacing)) =
      .error (.objectiveFailed "outside the wall") := by rfl
  have above : edgedSquare.value (moved [2.0] 0 spacing) =
      .error (.objectiveFailed "outside the wall") := by rfl
  have lowest : moved [1.0] 0 (-spacing) ∈ centralPoints [1.0] :=
    mem_centralPoints_iff.mpr ⟨0, one_pos, .inr rfl⟩
  have highest : moved [2.0] 0 spacing ∈ centralPoints [2.0] :=
    mem_centralPoints_iff.mpr ⟨0, one_pos, .inl rfl⟩
  obtain ⟨_, _, low⟩ := differenced_gradient (f := edgedSquare) (x := [1.0]) rfl
  obtain ⟨_, _, high⟩ := differenced_gradient (f := edgedSquare) (x := [2.0]) rfl
  refine ⟨rfl, rfl, ?_, ?_⟩
  · have forwards : edgedSquare.Forward [1.0] [2.0 + spacing] := by
      refine ⟨rfl, 1.0, ⟨by rfl, by decide⟩, fun i hi => ?_⟩
      obtain rfl : i = 0 := by simpa using hi
      exact ⟨1.0 + 2.0 * spacing + spacing * spacing, ⟨by rfl, by decide⟩, by rfl⟩
    refine ((low fun g central => ?_).1 _).mpr ⟨forwards, by decide⟩
    exact absurd central (not_central_of_error lowest below)
  · have split : forwardPoints [2.0] = [[2.0]] ++ moved [2.0] 0 spacing :: [] := by rfl
    have first : edgedSquare.FirstFault (forwardPoints [2.0]) (moved [2.0] 0 spacing)
        (.objectiveFailed "outside the wall") := by
      refine .of split (fun q hq => ?_) (.own above)
      rw [List.mem_singleton.mp hq]
      exact ⟨4.0, by rfl, by decide⟩
    refine ((high fun g central => ?_).2 _).mpr ⟨_, rfl, .inl ⟨_, first⟩⟩
    exact absurd central (not_central_of_error highest above)

end Objective

end RuleConsensus
