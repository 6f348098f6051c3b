import RuleConsensus.Proofs.Binary.Squares
import RuleConsensus.Proofs.Term.Run

/-!
The step of a hard rule divides by the square of the length of its coefficients. These are not all
zero in a rule that can be broken, but the square may still be rounded to zero, or to infinity.
-/

set_option autoImplicit false
set_option relaxedAutoImplicit false

namespace RuleConsensus

open Binary

section Corrections

variable {m n c v : Float}

theorem Binary.abs_correction_le (hn : n.isFinite = true) (nonzero : value n ≠ 0)
    (hv : v.isFinite = true) (unmoved : (v - c * (m / n) == v) = true) :
    |value c * (value m / value n)| ≤
      (1 + drift 6) * (digit * |value v| + (2 + |value c|) * underflow) := by
  obtain ⟨finite, same⟩ := (beq_iff_value hv).mp unmoved
  have product := (isFinite_of_sub finite).2
  obtain ⟨hc, quotient⟩ := isFinite_of_mul product
  have hm := isFinite_of_div quotient hn
  have divided := ((rounds_div hm hn nonzero).near quotient).abs_le
  have scaled := ((rounds_mul hc quotient).near product).abs_le
  have taken := (rounds_sub hv product).near finite
  rw [same] at taken
  have taken := taken.abs_le_of_unmoved
  have least := underflow_pos
  have slack : 0 ≤ |value c| * underflow := mul_nonneg (abs_nonneg _) least.le
  have factor : 1 + drift 6 = (1 + drift 2) * ((1 + drift 2) * (1 + drift 2)) := by
    rw [← drift_add, ← drift_add]
  have one : 1 ≤ 1 + drift 2 := le_add_of_nonneg_right (drift_nonneg 2)
  rw [factor]
  generalize 1 + drift 2 = f at divided scaled taken one
  have grow {r : ℚ} (sign : 0 ≤ r) : r ≤ f * r := le_mul_of_one_le_left sign one
  have f_nonneg : 0 ≤ f := zero_le_one.trans one
  calc |value c * (value m / value n)| = |value c| * |value m / value n| := abs_mul _ _
    _ ≤ |value c| * (f * (|value (m / n)| + underflow)) :=
      mul_le_mul_of_nonneg_left divided (abs_nonneg _)
    _ = f * (|value c * value (m / n)| + |value c| * underflow) := by
      rw [abs_mul]
      ring
    _ ≤ f * (f * (f * (digit * |value v| + underflow) + underflow) + |value c| * underflow) := by
      refine mul_le_mul_of_nonneg_left (add_le_add_left ?_ _) f_nonneg
      exact scaled.trans (mul_le_mul_of_nonneg_left (add_le_add_left taken _) f_nonneg)
    _ ≤ f * (f * (f * (digit * |value v| + underflow) + f * underflow) +
          f * (f * (|value c| * underflow))) := by
      have inner : f * (f * (digit * |value v| + underflow) + underflow) ≤
          f * (f * (digit * |value v| + underflow) + f * underflow) :=
        mul_le_mul_of_nonneg_left (add_le_add_right (grow least.le) _) f_nonneg
      have outer := (grow slack).trans (grow (mul_nonneg f_nonneg slack))
      exact mul_le_mul_of_nonneg_left (add_le_add inner outer) f_nonneg
    _ = f * (f * f) * (digit * |value v| + (2 + |value c|) * underflow) := by ring

theorem Binary.Vanishes.unmoved (hv : v.isFinite = true) (h : Vanishes m) :
    (v - m == v) = true := by
  have rounds := rounds_sub hv h.1
  rw [h.2, sub_zero] at rounds
  exact (beq_iff_value hv).mpr (rounds.exact (grid_value hv) (abs_value_lt hv))

theorem Binary.not_isFinite_of_infinite {s : Float.Model.UnpackedFloat.Sign}
    (hn : n.toModel.unpack = .infinity s) : n.isFinite = false := by
  change n.toModel.unpack.isFinite = false
  rw [hn]
  rfl

theorem Binary.div_infinity_of_not_isFinite {s : Float.Model.UnpackedFloat.Sign}
    (hm : m.isFinite = false) (hn : n.toModel.unpack = .infinity s) :
    (m / n).isFinite = false := by
  refine not_isFinite_pack (.inr ?_)
  rw [hn]
  change m.toModel.unpack.isFinite = false at hm
  cases hu : m.toModel.unpack with
  | infinity t => rfl
  | notANumber => rfl
  | _ =>
    rw [hu] at hm
    cases hm

end Corrections

namespace Vector

variable {x y c : List Float}

/-- The same numbers, entry by entry. Zeros of either sign are the same. -/
def Same (x y : List Float) : Prop := List.Forall₂ (fun a b => (a == b) = true) x y

theorem same_self (finite : Finite x) : Same x x :=
  List.forall₂_same.mpr fun a ha => (beq_iff_value (finite a ha)).mpr ⟨finite a ha, rfl⟩

theorem same_zipWith_iff (f : Float → Float) (same : x.length = c.length) :
    Same (List.zipWith (fun v a => v - f a) x c) x ↔
      ∀ a ∈ c.zip x, (a.2 - f a.1 == a.2) = true := by
  induction x generalizing c with
  | nil =>
    obtain rfl := List.eq_nil_of_length_eq_zero same.symm
    exact iff_of_true .nil fun a ha => nomatch ha
  | cons v x ih =>
    cases c with
    | nil => cases same
    | cons a c =>
      rw [List.zip_cons_cons, List.forall_mem_cons, ← ih (Nat.succ.inj same)]
      exact List.forall₂_cons

theorem finite_zipWith_iff (f : Float → Float) :
    Finite (List.zipWith (fun v a => v - f a) x c) ↔
      ∀ a ∈ c.zip x, (a.2 - f a.1).isFinite = true := by
  induction x generalizing c with
  | nil => simp [Finite]
  | cons v x ih =>
    cases c with
    | nil => simp [Finite]
    | cons a c =>
      rw [List.zip_cons_cons, List.forall_mem_cons, ← ih]
      exact List.forall_mem_cons

end Vector

namespace HardRule

variable {b : Block Float} {comparator : Comparator} {m : Float}

theorem satisfied_iff_value (finite : m.isFinite = true) :
    satisfied comparator m = true ↔ match comparator with
      | .inequality => value m ≤ value Scalar.slack
      | .equality => |value m| ≤ value Scalar.slack := by
  have slack : (Scalar.slack : Float).isFinite = true := by decide
  cases comparator with
  | inequality => exact decide_eq_true_iff.trans (le_iff_value finite slack)
  | equality =>
    obtain ⟨finite', size⟩ := value_abs finite
    rw [← size]
    exact decide_eq_true_iff.trans (le_iff_value finite' slack)

theorem satisfied_of_inside (within : inside comparator m = true) :
    satisfied comparator m = true := by
  have slack : (0 : Float) ≤ Scalar.slack := by decide
  cases comparator with
  | inequality => exact decide_eq_true (Binary.le_trans (of_decide_eq_true within) slack)
  | equality =>
    obtain ⟨finite, none⟩ := beq_zero_iff.mp within
    refine (satisfied_iff_value finite).mpr ?_
    rw [none, abs_zero, ← value_zero]
    exact (le_iff_value isFinite_zero (by decide)).mp slack

theorem evaluate_eq {x : List Float} (hx : x.length = b.arity) :
    evaluate b comparator x =
      .ok (if satisfied comparator (Vector.dot b.coefficients x - b.constant) then 0
        else Scalar.infinity) := by
  rw [evaluate, Block.margin, Block.checkPoint, checkLength_eq_ok_iff.mpr hx.symm]
  rfl

theorem evaluate_of_broken {x : List Float} (hx : x.length = b.arity)
    (broken : satisfied comparator (Vector.dot b.coefficients x - b.constant) = false) :
    evaluate b comparator x = .ok Scalar.infinity := by
  rw [evaluate_eq hx, broken, if_neg Bool.false_ne_true]

def excess (b : Block Float) : Float := Vector.dot b.coefficients b.candidate - b.constant

def squaredLength (b : Block Float) : Float := Vector.dot b.coefficients b.coefficients

/-- What the projection takes from a coordinate with such a coefficient. -/
def correction (b : Block Float) (c : Float) : Float := c * (excess b / squaredLength b)

/-- How the correction of a candidate gets lost: the square of the length is rounded to zero, or to
infinity, or no coordinate is moved. -/
inductive Lost (b : Block Float) : Prop
  | underflow (tiny : ∀ c ∈ b.coefficients, value c ^ 2 ≤ underflow)
  | overflow (long : (squaredLength b).isFinite = false) (finite : (excess b).isFinite = true)
  | absorbed (finite : (squaredLength b).isFinite = true) (positive : 0 < value (squaredLength b))
      (unmoved : ∀ a ∈ b.coefficients.zip b.candidate, (a.2 - correction b a.1 == a.2) = true)

theorem projected_of_outside (outside : inside comparator (excess b) = false) :
    projected b comparator = if squaredLength b == 0 then b.candidate
      else List.zipWith (fun v c => v - correction b c) b.candidate b.coefficients := by
  have moved : Vector.sub b.candidate (Vector.scale b.coefficients (excess b / squaredLength b)) =
      List.zipWith (fun v c => v - correction b c) b.candidate b.coefficients :=
    List.zipWith_map_right
  rw [← moved]
  change (if inside comparator (excess b) || squaredLength b == 0 then _ else _) = _
  rw [outside, Bool.false_or]
  rfl

theorem exists_coordinate (some : 1 ≤ b.arity) (hv : b.candidate.length = b.arity) :
    ∃ a, a ∈ b.coefficients.zip b.candidate := by
  refine List.exists_mem_of_length_pos ?_
  rw [List.length_zip, hv]
  exact (Nat.min_self _).symm ▸ some

theorem isFinite_excess_of_infinite
    (unpacked : (squaredLength b).toModel.unpack = .infinity .positive) {a : Float × Float}
    (coordinate : (a.2 - correction b a.1).isFinite = true) : (excess b).isFinite = true := by
  have quotient := (isFinite_of_mul (isFinite_of_sub coordinate).2).2
  by_contra margin
  rw [Bool.not_eq_true] at margin
  rw [div_infinity_of_not_isFinite margin unpacked] at quotient
  cases quotient

theorem unmoved_of_infinite (hc : Vector.Finite b.coefficients)
    (finite : Vector.Finite b.candidate)
    (unpacked : (squaredLength b).toModel.unpack = .infinity .positive)
    (margin : (excess b).isFinite = true) :
    ∀ a ∈ b.coefficients.zip b.candidate, (a.2 - correction b a.1 == a.2) = true := by
  intro a ha
  obtain ⟨coefficient, coordinate⟩ := List.of_mem_zip ha
  have none : Vanishes (excess b / squaredLength b) := div_infinity margin unpacked
  exact (none.mul_left (hc a.1 coefficient)).unmoved (finite a.2 coordinate)

/-- A candidate outside is kept exactly if its correction gets lost. -/
theorem same_projected_iff (hc : Vector.Finite b.coefficients) (some : 1 ≤ b.arity)
    (hv : b.candidate.length = b.arity) (finite : Vector.Finite b.candidate)
    (outside : inside comparator (excess b) = false) :
    Vector.Same (projected b comparator) b.candidate ↔ Lost b := by
  obtain ⟨nonneg, vanish_iff⟩ : Nonneg (squaredLength b) ∧
    (Vanishes (squaredLength b) ↔ ∀ c ∈ b.coefficients, value c ^ 2 ≤ underflow) := dot_self hc
  rw [projected_of_outside outside]
  by_cases zero : (squaredLength b == 0) = true
  · rw [if_pos zero]
    have tiny := vanish_iff.mp (beq_zero_iff.mp zero)
    exact iff_of_true (Vector.same_self finite) (.underflow tiny)
  · have large : ¬Vanishes (squaredLength b) := fun h => zero (beq_zero_iff.mpr h)
    rw [if_neg zero, Vector.same_zipWith_iff _ hv]
    cases nonneg with
    | infinite unpacked =>
      have long := not_isFinite_of_infinite unpacked
      constructor
      · intro unmoved
        obtain ⟨a, ha⟩ := exists_coordinate some hv
        have coordinate := (beq_iff_value (finite a.2 (List.of_mem_zip ha).2)).mp (unmoved a ha)
        exact .overflow long (isFinite_excess_of_infinite unpacked coordinate.1)
      · intro lost
        cases lost with
        | underflow tiny => exact absurd (vanish_iff.mpr tiny) large
        | overflow _ margin => exact unmoved_of_infinite hc finite unpacked margin
        | absorbed moderate => exact absurd moderate (long ▸ Bool.false_ne_true)
    | finite moderate sign =>
      have positive : 0 < value (squaredLength b) :=
        lt_of_le_of_ne sign fun none => large ⟨moderate, none.symm⟩
      constructor
      · exact .absorbed moderate positive
      · intro lost
        cases lost with
        | underflow tiny => exact absurd (vanish_iff.mpr tiny) large
        | overflow long => exact absurd moderate (long ▸ Bool.false_ne_true)
        | absorbed _ _ unmoved => exact unmoved

/-- How a finite candidate outside comes to a finite point: the square of the length is rounded to
zero, or it is infinite and the margin is not, or the quotient of the two is finite and no coordinate
overflows when it is corrected. -/
inductive Reachable (b : Block Float) : Prop
  | underflow (tiny : ∀ c ∈ b.coefficients, value c ^ 2 ≤ underflow)
  | overflow (long : (squaredLength b).isFinite = false) (finite : (excess b).isFinite = true)
  | corrected (finite : (squaredLength b).isFinite = true) (positive : 0 < value (squaredLength b))
      (quotient : (excess b / squaredLength b).isFinite = true)
      (coordinates : ∀ a ∈ b.coefficients.zip b.candidate,
        (a.2 - correction b a.1).isFinite = true)

/-- The step of a rule ends at a finite point. -/
structure Settles (b : Block Float) (comparator : Comparator) : Prop where
  candidate : Vector.Finite b.candidate
  reachable : inside comparator (excess b) = false → Reachable b

theorem candidate_and_reachable_of_coordinates (hc : Vector.Finite b.coefficients)
    (some : 1 ≤ b.arity) (hv : b.candidate.length = b.arity) (large : ¬Vanishes (squaredLength b))
    (coordinates : ∀ a ∈ b.coefficients.zip b.candidate, (a.2 - correction b a.1).isFinite = true) :
    Vector.Finite b.candidate ∧ Reachable b := by
  have candidate : Vector.Finite b.candidate := by
    rw [← List.map_snd_zip hv.le, Vector.Finite, List.forall_mem_map]
    exact fun a ha => (isFinite_of_sub (coordinates a ha)).1
  obtain ⟨a, ha⟩ := exists_coordinate some hv
  refine ⟨candidate, ?_⟩
  cases (dot_self hc).1 with
  | infinite unpacked =>
    have long := not_isFinite_of_infinite unpacked
    exact .overflow long (isFinite_excess_of_infinite unpacked (coordinates a ha))
  | finite moderate sign =>
    have positive := lt_of_le_of_ne sign fun none => large ⟨moderate, none.symm⟩
    have quotient := (isFinite_of_mul (isFinite_of_sub (coordinates a ha)).2).2
    exact .corrected moderate positive quotient coordinates

theorem Reachable.coordinates (reachable : Reachable b) (hc : Vector.Finite b.coefficients)
    (candidate : Vector.Finite b.candidate) (large : ¬Vanishes (squaredLength b)) :
    ∀ a ∈ b.coefficients.zip b.candidate, (a.2 - correction b a.1).isFinite = true := by
  cases reachable with
  | underflow tiny => exact absurd ((dot_self hc).2.mpr tiny) large
  | corrected _ _ _ coordinates => exact coordinates
  | overflow long margin =>
    cases (dot_self hc).1 with
    | finite moderate => exact absurd moderate (long ▸ Bool.false_ne_true)
    | infinite unpacked =>
      intro a ha
      have coordinate := candidate a.2 (List.of_mem_zip ha).2
      exact ((beq_iff_value coordinate).mp
        (unmoved_of_infinite hc candidate unpacked margin a ha)).1

/-- The projection is finite exactly if the candidate is, and, outside, its correction too. -/
theorem finite_projected_iff (hc : Vector.Finite b.coefficients) (some : 1 ≤ b.arity)
    (hv : b.candidate.length = b.arity) :
    Vector.Finite (projected b comparator) ↔ Settles b comparator := by
  cases place : inside comparator (excess b) with
  | true =>
    have kept : projected b comparator = b.candidate :=
      if_pos (Bool.or_eq_true_iff.mpr (.inl place))
    rw [kept]
    exact ⟨fun finite => ⟨finite, fun outside => nomatch place.symm.trans outside⟩,
      fun settles => settles.candidate⟩
  | false =>
    rw [projected_of_outside place]
    by_cases zero : (squaredLength b == 0) = true
    · rw [if_pos zero]
      have tiny := (dot_self hc).2.mp (beq_zero_iff.mp zero)
      exact ⟨fun finite => ⟨finite, fun _ => .underflow tiny⟩, fun settles => settles.candidate⟩
    · have large : ¬Vanishes (squaredLength b) := fun h => zero (beq_zero_iff.mpr h)
      rw [if_neg zero, Vector.finite_zipWith_iff]
      constructor
      · intro coordinates
        obtain ⟨candidate, reachable⟩ :=
          candidate_and_reachable_of_coordinates hc some hv large coordinates
        exact ⟨candidate, fun _ => reachable⟩
      · rintro ⟨candidate, reachable⟩
        exact (reachable place).coordinates hc candidate large

/-- What the constructor of a hard rule accepts. -/
structure Accepted (b : Block Float) (comparator : Comparator) : Prop where
  arity_pos : 1 ≤ b.arity
  finite_coefficients : Vector.Finite b.coefficients
  finite_constant : b.constant.isFinite = true
  checked : check b comparator = .ok ()

theorem excess_of_flat (hc : Vector.Finite b.coefficients) (hk : b.constant.isFinite = true)
    (hv : b.candidate.length = b.arity) (finite : Vector.Finite b.candidate)
    (flat : ∀ c ∈ b.coefficients, value c = 0) :
    (excess b).isFinite = true ∧ value (excess b) = value (-b.constant) := by
  have products : ∀ a ∈ List.zipWith (· * ·) b.coefficients b.candidate, Vanishes a := by
    intro a ha
    rw [← List.map_uncurry_zip_eq_zipWith] at ha
    obtain ⟨⟨c, v⟩, pair, rfl⟩ := List.mem_map.mp ha
    obtain ⟨coefficient, coordinate⟩ := List.of_mem_zip pair
    exact Vanishes.mul_right ⟨hc c coefficient, flat c coefficient⟩ (finite v coordinate)
  have total := gathers_dot hv.symm fun a ha => .of_vanishes (products a ha)
  obtain ⟨none, _⟩ := List.forall_mem_cons.mp (total.vanish_iff.mpr products)
  have rounds := rounds_sub none.1 hk
  rw [none.2, zero_sub] at rounds
  rw [value_neg hk]
  refine rounds.exact (grid_value hk).neg ?_
  rw [abs_neg]
  exact abs_value_lt hk

theorem Accepted.satisfied_of_flat (accepted : Accepted b comparator)
    (hv : b.candidate.length = b.arity) (finite : Vector.Finite b.candidate)
    (flat : ∀ c ∈ b.coefficients, value c = 0) : satisfied comparator (excess b) = true := by
  have zeros : b.coefficients.all (· == 0) = true :=
    List.all_eq_true.mpr fun c hc =>
      beq_zero_iff.mpr ⟨accepted.finite_coefficients c hc, flat c hc⟩
  have constant := check_eq_ok_iff.mp accepted.checked zeros
  obtain ⟨margin, same⟩ := excess_of_flat accepted.finite_coefficients accepted.finite_constant hv
    finite flat
  rw [satisfied_iff_value (isFinite_neg accepted.finite_constant)] at constant
  rw [satisfied_iff_value margin, same]
  exact constant

/-- Where the square of the length is an ordinary number, a correction gets lost only if it is
within the last digit of every coordinate. -/
theorem Lost.abs_correction_le (lost : Lost b) (hc : Vector.Finite b.coefficients)
    (finite : Vector.Finite b.candidate) (moderate : (squaredLength b).isFinite = true)
    (positive : 0 < value (squaredLength b)) {a : Float × Float}
    (ha : a ∈ b.coefficients.zip b.candidate) :
    |value a.1 * (value (excess b) / value (squaredLength b))| ≤
      (1 + drift 6) * (digit * |value a.2| + (2 + |value a.1|) * Binary.underflow) := by
  cases lost with
  | underflow tiny =>
    obtain ⟨_, none⟩ := (dot_self hc).2.mpr tiny
    exact absurd none positive.ne'
  | overflow long => exact absurd moderate (long ▸ Bool.false_ne_true)
  | absorbed _ _ unmoved =>
    have coordinate := (List.of_mem_zip ha).2
    exact Binary.abs_correction_le moderate positive.ne' (finite a.2 coordinate) (unmoved a ha)

end HardRule

namespace Potential

variable {p q : Potential Float} {comparator : Comparator}

theorem Constructed.acceptedRule (constructed : p.Constructed)
    (kind : p.kind = .hardRule comparator) (state : SameRule p q) :
    HardRule.Accepted q.block comparator := by
  have checked := constructed.check_hardRule kind
  obtain ⟨_, _, _, _, _, _, _, built⟩ := constructed.block
  obtain ⟨⟨some, hc, hk⟩, _, _, _, _, same⟩ := Block.build_eq_ok_iff.mp built
  obtain ⟨_, _, _, rfl⟩ := state
  rw [← same] at checked ⊢
  exact ⟨Nat.one_le_iff_ne_zero.mpr some, hc, hk, checked⟩

/-- A hard rule never fails to solve. Where its candidate breaks it, one of the coefficients is not
zero, and the candidate is kept exactly if its correction gets lost. -/
theorem hardRule_keeps_iff_lost (constructed : p.Constructed)
    (kind : p.kind = .hardRule comparator) (state : SameRule p q)
    (hy : q.block.y.length = q.block.arity) (hz : q.block.z.length = q.block.arity)
    (finite : Vector.Finite q.block.candidate) :
    ∃ x, q.solve.value = .done (q.withPrimal x) ∧
      (q.evaluate q.block.candidate = .ok 0 ∨
        q.evaluate q.block.candidate = .ok Scalar.infinity ∧
        (∃ c ∈ q.block.coefficients, value c ≠ 0) ∧
        (Vector.Same x q.block.candidate ↔ HardRule.Lost q.block) ∧
        (Vector.Same x q.block.candidate →
          (HardRule.squaredLength q.block).isFinite = true →
          0 < value (HardRule.squaredLength q.block) →
          ∀ a ∈ q.block.coefficients.zip q.block.candidate,
            |value a.1 * (value (HardRule.excess q.block) /
              value (HardRule.squaredLength q.block))| ≤
                (1 + drift 6) * (digit * |value a.2| + (2 + |value a.1|) * underflow))) := by
  have accepted := constructed.acceptedRule kind state
  have kind' : q.kind = .hardRule comparator := state.kind_eq.trans kind
  obtain ⟨b, _⟩ := q
  obtain rfl := kind'
  have hv := Block.length_candidate hy hz
  refine ⟨_, solve_of_found (HardRule.solve_eq_ok b comparator), ?_⟩
  cases broken : HardRule.satisfied comparator (HardRule.excess b) with
  | true => exact .inl ((HardRule.evaluate_eq hv).trans (congrArg Except.ok (if_pos broken)))
  | false =>
    have outside : HardRule.inside comparator (HardRule.excess b) = false := by
      by_contra within
      rw [HardRule.satisfied_of_inside (Bool.not_eq_false _ ▸ within)] at broken
      cases broken
    have kept_iff := HardRule.same_projected_iff accepted.finite_coefficients accepted.arity_pos hv
      finite outside
    refine .inr ⟨HardRule.evaluate_of_broken hv broken, ?_, kept_iff,
      fun kept moderate positive a ha => ?_⟩
    · by_contra flat
      push Not at flat
      rw [accepted.satisfied_of_flat hv finite flat] at broken
      cases broken
    · exact (kept_iff.mp kept).abs_correction_le accepted.finite_coefficients finite moderate
        positive ha

def slanted : Potential Float :=
  ⟨⟨1, [1.0, 2.0], 1.0, Scalar.infinity, 1.0, [0, 1], [1.0, 1.0], Vector.zeros 2, [1.0, 1.0]⟩,
    .hardRule .inequality⟩

theorem hardRule_keeps_iff_lost_slanted :
    slanted.Constructed ∧ slanted.evaluate slanted.block.candidate = .ok Scalar.infinity ∧
      ∃ x, slanted.solve.value = .done (slanted.withPrimal x) ∧
        ¬Vector.Same x slanted.block.candidate := by
  have constructed : slanted.Constructed :=
    constructed_hardRule_of_checks (by decide) (by decide)
  have moves : ¬HardRule.Lost slanted.block := by
    intro lost
    cases lost with
    | underflow tiny =>
      have none := beq_zero_iff.mpr ((dot_self (by decide)).2.mpr tiny)
      exact absurd none (by decide)
    | overflow long => exact absurd long (by decide)
    | absorbed _ _ unmoved => exact absurd unmoved (by decide +kernel)
  have broken : slanted.evaluate slanted.block.candidate = .ok Scalar.infinity :=
    HardRule.evaluate_of_broken (b := slanted.block) (by decide) (by decide)
  obtain ⟨x, stored, free | ⟨_, _, kept_iff, _⟩⟩ := hardRule_keeps_iff_lost constructed rfl
    (SameRule.refl slanted) (by decide) (by decide) (by decide)
  · exact absurd (Except.ok.inj (free.symm.trans broken)) (by decide)
  · exact ⟨constructed, broken, x, stored, fun kept => moves (kept_iff.mp kept)⟩

/-- A hard rule so steep that the square of its coefficient is infinite. -/
def steep : Potential Float :=
  ⟨⟨1, [1e200], 0.0, Scalar.infinity, 1.0, [0], [1e200], Vector.zeros 1, [1e200]⟩,
    .hardRule .inequality⟩

theorem steep_constructed : steep.Constructed :=
  constructed_hardRule_of_checks (by decide +kernel) (by decide +kernel)

/-- A hard rule so shallow that the square of its coefficient is rounded to zero. -/
def dwindling : Potential Float :=
  ⟨⟨1, [1e-200], -1.0, Scalar.infinity, 1.0, [0], [0.0], Vector.zeros 1, [0.0]⟩,
    .hardRule .inequality⟩

/-- A built hard rule whose solve succeeds and keeps a candidate that breaks it. -/
theorem dwindling_keeps_broken :
    dwindling.Constructed ∧ Vector.Finite dwindling.block.candidate ∧
      dwindling.solve.value = .done (dwindling.withPrimal dwindling.block.candidate) ∧
      dwindling.evaluate dwindling.block.candidate = .ok Scalar.infinity := by
  have kept : HardRule.projected dwindling.block .inequality = dwindling.block.candidate := by
    decide +kernel
  have solved := HardRule.solve_eq_ok dwindling.block .inequality
  rw [kept] at solved
  exact ⟨constructed_hardRule_of_checks (by decide +kernel) (by decide +kernel),
    by decide, solve_of_found solved,
    HardRule.evaluate_of_broken (b := dwindling.block) (by decide) (by decide +kernel)⟩

end Potential

end RuleConsensus
