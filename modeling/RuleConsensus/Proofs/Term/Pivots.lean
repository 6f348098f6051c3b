import RuleConsensus.Proofs.Binary.Arithmetic
import RuleConsensus.Proofs.Term.Run
import RuleConsensus.Term.Fallback

/-!
Acceptance bounds the scale of a squared hinge alone. The step size is added to it, and the
elimination subtracts, only later: so a pivot can still be infinite, and the second one zero.
-/

set_option autoImplicit false
set_option relaxedAutoImplicit false

namespace RuleConsensus

open Binary

private def idleLanes : Float :=
  (Vector.add ((Vector.zeros 8 : List Float).take 4) ((Vector.zeros 8).drop 4)).foldl (· + ·)
    (Zero.zero)

private theorem idleLanes_zero : idleLanes.isFinite = true ∧ value idleLanes = 0 :=
  ⟨by decide, by decide⟩

private theorem Vector.dot_of_short {x y : List Float} (short : x.length < 8) :
    dot x y = (List.zipWith (· * ·) x y).foldl (· + ·) idleLanes := by
  have none : x.length / 8 = 0 := Nat.div_eq_of_lt short
  rw [dot, none]
  rfl

namespace SquaredHinge

variable {b : Block Float} {c d : Float}

theorem lt_of_square_finite (finite : (c * c).isFinite = true) : |value c| < 2 ^ 512 := by
  have hc := (isFinite_of_mul finite).1
  have square := (rounds_mul hc hc).abs_lt finite
  rw [abs_mul_self, ← abs_mul_abs_self] at square
  have root : overflow ≤ 2 ^ 512 * 2 ^ 512 := by
    rw [← pow_add, overflow, show (512 + 512 : ℕ) = 54 + 970 from rfl, pow_add]
    exact mul_le_mul_of_nonneg_right (by norm_num) (by positivity)
  by_contra large
  have large := not_lt.mp large
  have above := mul_le_mul large large (by positivity) (abs_nonneg _)
  exact absurd (square.trans_le (root.trans above)) (lt_irrefl _)

/-- What acceptance says of the factors of a pivot. -/
structure Moderate (b : Block Float) (c : Float) : Prop where
  weight : 0 ≤ value b.weight
  twice : (Scalar.two * b.weight).isFinite = true
  stepSize : b.stepSize.isFinite = true
  stepSize_pos : 0 < value b.stepSize
  coefficient : c.isFinite = true
  bounded : |value c| < 2 ^ 512
  slope : (Scalar.two * b.weight * c).isFinite = true

theorem slope_isFinite {w : Float} (scale : (Scalar.two * w * d).isFinite = true)
    (hw : 0 ≤ value w) (finite : (c * c).isFinite = true) (part : value (c * c) ≤ value d) :
    (Scalar.two * w * c).isFinite = true := by
  obtain ⟨twice, hd⟩ := isFinite_of_mul scale
  have hc := (isFinite_of_mul finite).1
  have doubled := value_double twice
  have whole := lt_of_abs_lt ((rounds_mul twice hd).abs_lt scale)
  rw [doubled] at whole
  refine (rounds_mul twice hc).isFinite_iff.mpr ?_
  rw [doubled, abs_mul, abs_of_nonneg (by positivity)]
  rcases le_total |value c| 1 with small | large
  · have bounded := lt_of_abs_lt (abs_value_lt twice)
    rw [doubled] at bounded
    have less : 2 * value w * |value c| ≤ 2 * value w * 1 :=
      mul_le_mul_of_nonneg_left small (by positivity)
    linarith
  · have grid : Grid |value c| := by
      rcases abs_cases (value c) with ⟨same, _⟩ | ⟨same, _⟩ <;> rw [same]
      · exact grid_value hc
      · exact (grid_value hc).neg
    have grown : |value c| ≤ value c * value c := by
      rw [← abs_mul_abs_self]
      exact le_mul_of_one_le_left (abs_nonneg _) large
    have square := ((rounds_mul hc hc).near finite).below _ grid grown
    have less : 2 * value w * |value c| ≤ 2 * value w * value d :=
      mul_le_mul_of_nonneg_left (square.trans part) (by positivity)
    linarith

theorem Moderate.curvature_nonneg (h : Moderate b c) :
    0 ≤ value (Scalar.two * b.weight * c) * value c := by
  have near := (rounds_mul h.twice h.coefficient).near h.slope
  have weight := h.weight
  rw [value_double h.twice] at near
  rcases le_total 0 (value c) with ahead | behind
  · exact mul_nonneg (near.nonneg (by positivity)) ahead
  · refine mul_nonneg_of_nonpos_of_nonpos (near.nonpos ?_) behind
    exact mul_nonpos_of_nonneg_of_nonpos (by positivity) behind

/-- A pivot is never below the step size, even where it is infinite. -/
theorem Moderate.stepSize_le_firstPivot (h : Moderate b c) :
    b.stepSize ≤ firstPivot b c := by
  have curvature := h.curvature_nonneg
  rw [firstPivot]
  cases rounds_mul h.slope h.coefficient with
  | finite finite small near =>
    refine (rounds_add finite h.stepSize).le h.stepSize ?_
    linarith [near.nonneg curvature]
  | infinite s unpacked large =>
    cases s with
    | positive => exact le_infinity h.stepSize (infinity_add unpacked h.stepSize)
    | negative =>
      have large : overflow ≤ -1 * (value (Scalar.two * b.weight * c) * value c) := large
      linarith [overflow_pos]

theorem Moderate.firstPivot_pos (h : Moderate b c) : 0 < firstPivot b c := by
  have above := h.stepSize_le_firstPivot
  have defined := (defined_of_le above).2
  rw [← not_le_iff defined (isNaN_of_isFinite isFinite_zero)]
  intro none
  have below := (le_iff_value h.stepSize isFinite_zero).mp (Binary.le_trans above none)
  rw [value_zero] at below
  linarith [h.stepSize_pos]

/-- What rounding below the least place can add up to in a product with a coefficient. -/
def slip : ℚ := underflow * (4 * 2 ^ 512)

theorem underflow_le_slip : underflow ≤ slip := by
  have factor : (1 : ℚ) ≤ 4 * 2 ^ 512 :=
    one_le_mul_of_one_le_of_one_le (by norm_num) (one_le_pow₀ one_le_two)
  exact le_mul_of_one_le_right underflow_pos.le factor

theorem Moderate.abs_product_sub_le (h : Moderate b c) (hd : d.isFinite = true)
    (bounded : |value d| < 2 ^ 512) (finite : (Scalar.two * b.weight * c * d).isFinite = true) :
    |value (Scalar.two * b.weight * c * d) - 2 * value b.weight * value c * value d| ≤
      3 / 2 ^ 53 * |2 * value b.weight * value c * value d| + slip := by
  have first := ((rounds_mul h.twice h.coefficient).near h.slope).abs_sub_le
  have second := ((rounds_mul h.slope hd).near finite).abs_sub_le
  rw [value_double h.twice] at first
  rw [abs_mul] at second ⊢
  rw [slip]
  have large : (1 : ℚ) ≤ 2 ^ 512 := one_le_pow₀ one_le_two
  have least := underflow_pos
  have size := abs_nonneg (value d)
  generalize value (Scalar.two * b.weight * c * d) = r at second ⊢
  generalize value (Scalar.two * b.weight * c) = u at first second ⊢
  generalize 2 * value b.weight * value c = q at first ⊢
  generalize value d = t at bounded second size ⊢
  generalize (2 : ℚ) ^ 512 = bound at bounded large ⊢
  generalize underflow = tiny at first second least ⊢
  have grown : |u| ≤ |q| * (1 + 1 / 2 ^ 53) + tiny := by
    have triangle : |u| ≤ |u - q| + |q| := by simpa using abs_add_le (u - q) q
    linarith
  have carried : |u * t - q * t| ≤ (|q| / 2 ^ 53 + tiny) * |t| := by
    rw [← sub_mul, abs_mul]
    exact mul_le_mul_of_nonneg_right first size
  have product : |u| * |t| ≤ (|q| * (1 + 1 / 2 ^ 53) + tiny) * |t| :=
    mul_le_mul_of_nonneg_right grown size
  have least_part : tiny * |t| ≤ tiny * bound := mul_le_mul_of_nonneg_left bounded.le least.le
  have one_part : tiny ≤ tiny * bound := le_mul_of_one_le_right least.le large
  have main : 0 ≤ |q| * |t| := mul_nonneg (abs_nonneg q) size
  have triangle := abs_sub_le r (u * t) (q * t)
  linarith

theorem Moderate.product_isFinite (h : Moderate b c) (hd : d.isFinite = true)
    (bounded : |value d| < 2 ^ 512)
    (small : 2 * value b.weight * (|value c| * |value d|) ≤ 3 / 4 * overflow) :
    (Scalar.two * b.weight * c * d).isFinite = true := by
  have first := ((rounds_mul h.twice h.coefficient).near h.slope).abs_sub_le
  have positive : 0 ≤ 2 * value b.weight := mul_nonneg two_pos.le h.weight
  rw [value_double h.twice, abs_mul (2 * value b.weight), abs_of_nonneg positive] at first
  refine (rounds_mul h.slope hd).isFinite_iff.mpr ?_
  rw [abs_mul]
  have least : underflow * 2 ^ 512 ≤ 1 := by
    rw [underflow_mul_pow (show 512 + 563 = 1075 from rfl)]
    exact (div_le_one (by positivity)).mpr (one_le_pow₀ one_le_two)
  have place : (8 : ℚ) ≤ overflow := by
    have power : (2 : ℚ) ^ 3 ≤ 2 ^ 1023 := pow_le_pow_right₀ one_le_two (by decide)
    have half := lt_overflow
    generalize (2 : ℚ) ^ 1023 = range at power half
    linarith
  have size := abs_nonneg (value d)
  have triangle : |value (Scalar.two * b.weight * c)| ≤
      |value (Scalar.two * b.weight * c) - 2 * value b.weight * value c| +
        2 * value b.weight * |value c| := by
    have parts := abs_add_le
      (value (Scalar.two * b.weight * c) - 2 * value b.weight * value c)
      (2 * value b.weight * value c)
    rwa [sub_add_cancel, abs_mul (2 * value b.weight), abs_of_nonneg positive] at parts
  have grown : |value (Scalar.two * b.weight * c)| * |value d| ≤
      (2 * value b.weight * |value c| * (1 + 1 / 2 ^ 53) + underflow) * |value d| :=
    mul_le_mul_of_nonneg_right (by linarith) size
  have least_part : underflow * |value d| ≤ 1 :=
    (mul_le_mul_of_nonneg_left bounded.le underflow_pos.le).trans least
  linarith

theorem Moderate.firstPivot_bounds (h : Moderate b c) {square : ℚ}
    (hsquare : 2 * value b.weight * value c * value c = square)
    (small : square + value b.stepSize ≤ 2 ^ 1023) (tiny : slip ≤ value b.stepSize / 2 ^ 61) :
    (firstPivot b c).isFinite = true ∧
      (1 - 6 / 2 ^ 53) * (square + value b.stepSize) ≤ value (firstPivot b c) := by
  have positive : 0 ≤ square := by
    rw [← hsquare, mul_assoc]
    exact mul_nonneg (mul_nonneg two_pos.le h.weight) (mul_self_nonneg _)
  have rounds := rounds_mul h.slope h.coefficient
  have half := lt_overflow
  have finite : (Scalar.two * b.weight * c * c).isFinite = true := by
    refine h.product_isFinite h.coefficient h.bounded ?_
    rw [abs_mul_abs_self, ← mul_assoc, hsquare]
    generalize (2 : ℚ) ^ 1023 = range at half small
    linarith [h.stepSize_pos]
  have error := h.abs_product_sub_le h.coefficient h.bounded finite
  rw [hsquare, abs_of_nonneg positive] at error
  have near := abs_le.mp error
  have hrho := h.stepSize_pos
  have sum := rounds_add finite h.stepSize
  have above := ((rounds_mul h.slope h.coefficient).near finite).nonneg h.curvature_nonneg
  have within : (firstPivot b c).isFinite = true := by
    refine sum.isFinite_iff.mpr ?_
    rw [abs_of_nonneg (by linarith)]
    generalize (2 : ℚ) ^ 1023 = range at half small
    linarith
  have last := (sum.near within).abs_sub_le
  rw [abs_of_nonneg (by linarith : 0 ≤ value (Scalar.two * b.weight * c * c) + value b.stepSize)]
    at last
  have last := abs_le.mp last
  have least := underflow_le_slip
  refine ⟨within, ?_⟩
  change _ ≤ value (Scalar.two * b.weight * c * c + b.stepSize)
  linarith

private theorem two_mul_le_add {p q r : ℚ} (hp : 0 ≤ p) (hq : 0 ≤ q) (mean : r ^ 2 = p * q) :
    2 * r ≤ p + q := by
  refine (abs_le_of_sq_le_sq' ?_ (add_nonneg hp hq)).2
  have apart := sq_nonneg (p - q)
  linarith

private theorem square_le {rho p q r o : ℚ} (hrho : 0 < rho) (hp : 0 ≤ p) (hq : 0 ≤ q)
    (ho : 0 ≤ o) (mean : r ^ 2 = p * q) (scale : p + q ≤ 2 ^ 48 * rho)
    (beside : o ≤ (1 + 3 / 2 ^ 53) * r + rho / 2 ^ 61) :
    r ≤ 2 ^ 47 * rho ∧ o ^ 2 ≤ (1 + 7 / 2 ^ 53) * (p * q) + rho ^ 2 / 2 ^ 12 := by
  have half := two_mul_le_add hp hq mean
  have bounded : r ≤ 2 ^ 47 * rho := by linarith
  have cross : r * rho ≤ 2 ^ 47 * rho * rho := mul_le_mul_of_nonneg_right bounded hrho.le
  refine ⟨bounded, ?_⟩
  calc o ^ 2 ≤ ((1 + 3 / 2 ^ 53) * r + rho / 2 ^ 61) ^ 2 := pow_le_pow_left₀ ho beside 2
    _ = (1 + 3 / 2 ^ 53) ^ 2 * r ^ 2 + 2 * (1 + 3 / 2 ^ 53) / 2 ^ 61 * (r * rho) +
        rho ^ 2 / 2 ^ 122 := by ring
    _ ≤ (1 + 3 / 2 ^ 53) ^ 2 * (p * q) + 2 * (1 + 3 / 2 ^ 53) / 2 ^ 61 * (2 ^ 47 * rho * rho) +
        rho ^ 2 / 2 ^ 122 := by
      rw [mean]
      gcongr
    _ ≤ (1 + 7 / 2 ^ 53) * (p * q) + rho ^ 2 / 2 ^ 12 := by
      have product := mul_nonneg hp hq
      have square := sq_nonneg rho
      linarith

/-- What is eliminated stays below the second diagonal entry, as long as the step size is not lost
beside the squares. -/
private theorem eliminated_lt {rho p q r o a t z : ℚ} (hrho : 0 < rho) (hp : 0 ≤ p) (hq : 0 ≤ q)
    (ho : 0 ≤ o) (mean : r ^ 2 = p * q) (scale : p + q ≤ 2 ^ 48 * rho)
    (beside : o ≤ (1 + 3 / 2 ^ 53) * r + rho / 2 ^ 61) (small : t ≤ 1 / 2 ^ 61)
    (tiny : t ≤ rho / 2 ^ 61) (first : (1 - 6 / 2 ^ 53) * (p + rho) ≤ a)
    (second : (1 - 6 / 2 ^ 53) * (q + rho) ≤ z) :
    (o / a * (1 + 1 / 2 ^ 53) + t) * o * (1 + 1 / 2 ^ 53) + t < z := by
  obtain ⟨bounded, square⟩ := square_le hrho hp hq ho mean scale beside
  have pq := mul_nonneg hp hq
  have rq := mul_nonneg hrho.le hq
  have pr := mul_nonneg hp hrho.le
  have rr := mul_nonneg hrho.le hrho.le
  have ha : 0 < a := by linarith
  have quotient : o / a * o ≤ (1 + 14 / 2 ^ 53) * q + rho / 2 ^ 11 := by
    have expanded : (1 + 7 / 2 ^ 53) * (p * q) + rho ^ 2 / 2 ^ 12 ≤
        (1 - 6 / 2 ^ 53) * (p + rho) * ((1 + 14 / 2 ^ 53) * q + rho / 2 ^ 11) := by
      linarith
    have above : 0 ≤ (1 + 14 / 2 ^ 53) * q + rho / 2 ^ 11 := by positivity
    rw [div_mul_eq_mul_div, div_le_iff₀ ha, ← sq, mul_comm _ a]
    exact (square.trans expanded).trans (mul_le_mul_of_nonneg_right first above)
  have lost : t * o ≤ rho / 2 ^ 12 := by
    calc t * o ≤ 1 / 2 ^ 61 * o := mul_le_mul_of_nonneg_right small ho
      _ ≤ rho / 2 ^ 12 := by linarith
  have whole : (o / a * (1 + 1 / 2 ^ 53) + t) * o * (1 + 1 / 2 ^ 53) + t =
      (1 + 1 / 2 ^ 53) ^ 2 * (o / a * o) + (1 + 1 / 2 ^ 53) * (t * o) + t := by ring
  rw [whole]
  linarith

theorem Moderate.offDiagonal_mul_nonneg (h : Moderate b c)
    (pivot : (firstPivot b c).isFinite = true) (finite : (offDiagonal b c d).isFinite = true)
    (factor : (offDiagonal b c d / firstPivot b c).isFinite = true) :
    0 ≤ value (offDiagonal b c d / firstPivot b c) * value (offDiagonal b c d) := by
  have above := (le_iff_value h.stepSize pivot).mp h.stepSize_le_firstPivot
  have positive : 0 < value (firstPivot b c) := h.stepSize_pos.trans_le above
  have near := (rounds_div finite pivot positive.ne').near factor
  rcases le_total 0 (value (offDiagonal b c d)) with ahead | behind
  · exact mul_nonneg (near.nonneg (div_nonneg ahead positive.le)) ahead
  · exact mul_nonneg_of_nonpos_of_nonpos
      (near.nonpos (div_nonpos_of_nonpos_of_nonneg behind positive.le)) behind

theorem Moderate.eliminated_bounds (h : Moderate b c) {z : ℚ}
    (pivot : (firstPivot b c).isFinite = true) (beside : (offDiagonal b c d).isFinite = true)
    (quotient : |value (offDiagonal b c d)| / value (firstPivot b c) < overflow)
    (room : (|value (offDiagonal b c d)| / value (firstPivot b c) * (1 + 1 / 2 ^ 53) + underflow) *
      |value (offDiagonal b c d)| * (1 + 1 / 2 ^ 53) + underflow < z) (bounded : z < overflow) :
    (offDiagonal b c d / firstPivot b c * offDiagonal b c d).isFinite = true ∧
      0 ≤ value (offDiagonal b c d / firstPivot b c * offDiagonal b c d) ∧
      value (offDiagonal b c d / firstPivot b c * offDiagonal b c d) < z := by
  have above := (le_iff_value h.stepSize pivot).mp h.stepSize_le_firstPivot
  have positive : 0 < value (firstPivot b c) := h.stepSize_pos.trans_le above
  have divided := rounds_div beside pivot positive.ne'
  have exact_abs : |value (offDiagonal b c d) / value (firstPivot b c)| =
      |value (offDiagonal b c d)| / value (firstPivot b c) := by
    rw [abs_div, abs_of_pos positive]
  have factor := divided.isFinite_iff.mpr (exact_abs.trans_lt quotient)
  have near := (divided.near factor).abs_sub_le
  have size := abs_sub_abs_le_abs_sub (value (offDiagonal b c d / firstPivot b c))
    (value (offDiagonal b c d) / value (firstPivot b c))
  rw [exact_abs] at near size
  have product : |value (offDiagonal b c d / firstPivot b c) * value (offDiagonal b c d)| ≤
      (|value (offDiagonal b c d)| / value (firstPivot b c) * (1 + 1 / 2 ^ 53) + underflow) *
        |value (offDiagonal b c d)| := by
    rw [abs_mul]
    exact mul_le_mul_of_nonneg_right (by linarith) (abs_nonneg _)
  have sign := h.offDiagonal_mul_nonneg pivot beside factor
  rw [abs_of_nonneg sign] at product
  have least := underflow_pos
  have multiplied := rounds_mul factor beside
  have finite : (offDiagonal b c d / firstPivot b c * offDiagonal b c d).isFinite = true := by
    refine multiplied.isFinite_iff.mpr ?_
    rw [abs_of_nonneg sign]
    linarith
  have last := (multiplied.near finite).abs_sub_le
  rw [abs_of_nonneg sign] at last
  exact ⟨finite, (multiplied.near finite).nonneg sign, by linarith [(abs_le.mp last).2]⟩

theorem secondPivot_of_eliminated (pivot : (firstPivot b d).isFinite = true)
    (finite : (offDiagonal b c d / firstPivot b c * offDiagonal b c d).isFinite = true)
    (sign : 0 ≤ value (offDiagonal b c d / firstPivot b c * offDiagonal b c d))
    (less : value (offDiagonal b c d / firstPivot b c * offDiagonal b c d) <
      value (firstPivot b d)) :
    (secondPivot b c d).isFinite = true ∧ 0 < secondPivot b c d := by
  have difference : (secondPivot b c d).isFinite = true := by
    refine (rounds_sub pivot finite).isFinite_iff.mpr ?_
    rw [abs_of_nonneg (by linarith)]
    linarith [lt_of_abs_lt (abs_value_lt pivot)]
  refine ⟨difference, (lt_iff_value isFinite_zero difference).mpr ?_⟩
  rw [value_zero]
  exact value_sub_pos difference pivot finite less

theorem underflow_le : underflow ≤ 1 / 2 ^ 61 := by
  rw [underflow]
  exact one_div_le_one_div_of_le (by positivity) (pow_le_pow_right₀ one_le_two (by decide))

theorem slip_le {rho : ℚ} (least : 1 / 2 ^ 500 ≤ rho) : slip ≤ rho / 2 ^ 61 := by
  have closed : slip = 1 / 2 ^ 561 := by
    rw [slip, show (4 : ℚ) = 2 ^ 2 by norm_num, ← pow_add,
      underflow_mul_pow (show 2 + 512 + 561 = 1075 from rfl)]
  rw [closed, show 561 = 500 + 61 from rfl, pow_add, ← div_div]
  exact div_le_div_of_nonneg_right least (by positivity)

theorem Moderate.offDiagonal_isFinite (h : Moderate b c) (h' : Moderate b d)
    (small : 2 * value b.weight * (value c ^ 2 + value d ^ 2) ≤ 3 / 2 * overflow) :
    (offDiagonal b c d).isFinite = true := by
  refine h.product_isFinite h'.coefficient h'.bounded ?_
  have positive : 0 ≤ 2 * value b.weight := mul_nonneg two_pos.le h.weight
  have mean : 2 * (|value c| * |value d|) ≤ value c ^ 2 + value d ^ 2 := by
    rw [← sq_abs (value c), ← sq_abs (value d), ← mul_assoc]
    exact two_mul_le_add_sq _ _
  have scaled := mul_le_mul_of_nonneg_left mean positive
  linarith

/-- Where the step size is not lost beside the squares, the second pivot is finite and positive. -/
theorem Moderate.secondPivot_pos (h : Moderate b c) (h' : Moderate b d)
    (least : 1 / 2 ^ 500 ≤ value b.stepSize)
    (ratio : 2 * value b.weight * (value c ^ 2 + value d ^ 2) ≤ 2 ^ 48 * value b.stepSize)
    (small : 2 * value b.weight * (value c ^ 2 + value d ^ 2) + value b.stepSize ≤ 2 ^ 1023) :
    (secondPivot b c d).isFinite = true ∧ 0 < secondPivot b c d := by
  have hrho := h.stepSize_pos
  have positive : 0 ≤ 2 * value b.weight := mul_nonneg two_pos.le h.weight
  have half := lt_overflow
  have beside : (offDiagonal b c d).isFinite = true := by
    refine h.offDiagonal_isFinite h' ?_
    generalize (2 : ℚ) ^ 1023 = range at half small
    linarith [overflow_pos]
  obtain ⟨p, hp⟩ : ∃ p, 2 * value b.weight * value c * value c = p := ⟨_, rfl⟩
  obtain ⟨q, hq⟩ : ∃ q, 2 * value b.weight * value d * value d = q := ⟨_, rfl⟩
  have hp0 : 0 ≤ p := by
    rw [← hp, mul_assoc]
    exact mul_nonneg positive (mul_self_nonneg _)
  have hq0 : 0 ≤ q := by
    rw [← hq, mul_assoc]
    exact mul_nonneg positive (mul_self_nonneg _)
  have squares : 2 * value b.weight * (value c ^ 2 + value d ^ 2) = p + q := by
    rw [← hp, ← hq]
    ring
  rw [squares] at ratio small
  have mean : |2 * value b.weight * value c * value d| ^ 2 = p * q := by
    rw [sq_abs, ← hp, ← hq]
    ring
  have tiny := slip_le least
  have small' : p + value b.stepSize ≤ 2 ^ 1023 ∧ q + value b.stepSize ≤ 2 ^ 1023 := by
    generalize (2 : ℚ) ^ 1023 = range at small
    constructor <;> linarith
  obtain ⟨pivot, first⟩ := h.firstPivot_bounds hp small'.1 tiny
  obtain ⟨pivot', second⟩ := h'.firstPivot_bounds hq small'.2 tiny
  have ha : 0 < value (firstPivot b c) := by linarith
  have error := h.abs_product_sub_le h'.coefficient h'.bounded beside
  have size : |value (offDiagonal b c d)| ≤
      (1 + 3 / 2 ^ 53) * |2 * value b.weight * value c * value d| + value b.stepSize / 2 ^ 61 := by
    have triangle := abs_add_le
      (value (offDiagonal b c d) - 2 * value b.weight * value c * value d)
      (2 * value b.weight * value c * value d)
    rw [sub_add_cancel] at triangle
    change |value (offDiagonal b c d) - _| ≤ _ at error
    linarith
  have room := eliminated_lt hrho hp0 hq0 (abs_nonneg _) mean ratio size underflow_le
    (underflow_le_slip.trans tiny) first second
  have quotient : |value (offDiagonal b c d)| / value (firstPivot b c) < overflow := by
    have product := (square_le hrho hp0 hq0 (abs_nonneg _) mean ratio size).1
    have power : (2 : ℚ) ^ 49 ≤ 2 ^ 1023 := pow_le_pow_right₀ one_le_two (by decide)
    have short : |value (offDiagonal b c d)| / value (firstPivot b c) ≤ 2 ^ 49 := by
      rw [div_le_iff₀ ha]
      linarith
    generalize (2 : ℚ) ^ 1023 = range at half power
    linarith
  obtain ⟨finite, sign, less⟩ := h.eliminated_bounds pivot beside quotient room
    (lt_of_abs_lt (abs_value_lt pivot'))
  exact secondPivot_of_eliminated pivot' finite sign less

theorem square_le_dot {row : List Float} (narrow : row.length < 8)
    (finite : (Vector.dot row row).isFinite = true) (hc : c ∈ row) :
    (c * c).isFinite = true ∧ value (c * c) ≤ value (Vector.dot row row) := by
  obtain ⟨_, idle⟩ := idleLanes_zero
  rw [Vector.dot_of_short narrow] at finite ⊢
  rw [List.zipWith_self] at finite ⊢
  refine (le_foldl_add finite ?_ idle.ge).2.2 _ (List.mem_map_of_mem hc)
  intro a ha square
  obtain ⟨d, _, rfl⟩ := List.mem_map.mp ha
  exact value_square_nonneg square

theorem moderate_of_check (constructed : b.Constructed) (checked : check b = .ok ())
    (narrow : b.arity < 8) (hc : c ∈ b.coefficients) : Moderate b c := by
  obtain ⟨_, _, _, _, _, _, _, built⟩ := constructed
  obtain ⟨_, _, ⟨hrho, above⟩, _, _, rfl⟩ := Block.build_eq_ok_iff.mp built
  obtain ⟨⟨⟨_, sign⟩, hw⟩, scale, _⟩ := check_eq_ok_iff.mp checked
  obtain ⟨twice, whole⟩ := isFinite_of_mul scale
  obtain ⟨square, part⟩ := square_le_dot narrow whole hc
  have weight := value_nonneg hw sign
  exact ⟨weight, twice, hrho, value_pos hrho above, (isFinite_of_mul square).1,
    lt_of_square_finite square, slope_isFinite scale weight square part⟩

theorem squares_le_dot (finite : (Vector.dot [c, d] [c, d]).isFinite = true) :
    (1 - 2 / 2 ^ 53) * (value c ^ 2 + value d ^ 2) ≤
      value (Vector.dot [c, d] [c, d]) + 3 * underflow := by
  obtain ⟨_, idle⟩ := idleLanes_zero
  rw [Vector.dot_of_short (by simp)] at finite ⊢
  change (idleLanes + c * c + d * d).isFinite = true at finite
  change _ ≤ value (idleLanes + c * c + d * d) + _
  obtain ⟨start, second⟩ := isFinite_of_add finite
  obtain ⟨_, first⟩ := isFinite_of_add start
  have hc := (isFinite_of_mul first).1
  have hd := (isFinite_of_mul second).1
  have nearFirst := abs_le.mp ((rounds_mul hc hc).near first).abs_sub_le
  have nearSecond := abs_le.mp ((rounds_mul hd hd).near second).abs_sub_le
  have grown := value_le_add' start idle.ge
  have positive := value_square_nonneg first
  have positive' := value_square_nonneg second
  have sum : 0 ≤ value (idleLanes + c * c) + value (d * d) := by linarith
  have last := ((rounds_add start second).near finite).abs_sub_le
  rw [abs_of_nonneg sum] at last
  rw [abs_mul_self] at nearFirst nearSecond
  have near := abs_le.mp last
  have tiny := underflow_pos
  have square := mul_self_nonneg (value c)
  have square' := mul_self_nonneg (value d)
  rw [sq, sq]
  linarith

theorem offDiagonal_isFinite_of_check (constructed : b.Constructed) (checked : check b = .ok ())
    (pair : b.coefficients = [c, d]) : (offDiagonal b c d).isFinite = true := by
  have narrow : b.arity < 8 := by
    rw [Block.arity, pair]
    simp
  have hc := moderate_of_check constructed checked narrow (c := c) (by simp [pair])
  have hd := moderate_of_check constructed checked narrow (c := d) (by simp [pair])
  refine hc.offDiagonal_isFinite hd ?_
  obtain ⟨_, scale, _⟩ := check_eq_ok_iff.mp checked
  rw [pair] at scale
  obtain ⟨twice, whole⟩ := isFinite_of_mul scale
  have bounded := lt_of_abs_lt ((rounds_mul twice whole).abs_lt scale)
  have range := lt_of_abs_lt (abs_value_lt twice)
  rw [value_double twice] at bounded range
  have weight : 0 ≤ 2 * value b.weight := mul_nonneg two_pos.le hc.weight
  have least : 2 * value b.weight * underflow ≤ overflow / 2 ^ 61 :=
    calc 2 * value b.weight * underflow ≤ overflow * (1 / 2 ^ 61) :=
          mul_le_mul range.le underflow_le underflow_pos.le overflow_pos.le
      _ = overflow / 2 ^ 61 := mul_one_div _ _
  have scaled := mul_le_mul_of_nonneg_left (squares_le_dot whole) weight
  linarith

/-- What the second pivot is, written out: finite and positive where the elimination leaves
something. -/
theorem secondPivot_pos_iff (h : Moderate b c) (beside : (offDiagonal b c d).isFinite = true) :
    (secondPivot b c d).isFinite = true ∧ 0 < secondPivot b c d ↔
      (firstPivot b d).isFinite = true ∧
        (offDiagonal b c d / firstPivot b c * offDiagonal b c d).isFinite = true ∧
        offDiagonal b c d / firstPivot b c * offDiagonal b c d < firstPivot b d := by
  constructor
  · rintro ⟨finite, positive⟩
    obtain ⟨pivot, eliminated⟩ := isFinite_of_sub finite
    refine ⟨pivot, eliminated, (lt_iff_value eliminated pivot).mpr ?_⟩
    by_contra large
    have near := (rounds_sub pivot eliminated).near finite
    have above := (lt_iff_value isFinite_zero finite).mp positive
    rw [value_zero] at above
    have below : value (secondPivot b c d) ≤ 0 := near.nonpos (by linarith)
    linarith
  · rintro ⟨pivot, eliminated, less⟩
    refine secondPivot_of_eliminated pivot eliminated ?_ ((lt_iff_value eliminated pivot).mp less)
    obtain ⟨factor, _⟩ := isFinite_of_mul eliminated
    refine ((rounds_mul factor beside).near eliminated).nonneg ?_
    by_cases first : (firstPivot b c).isFinite = true
    · exact h.offDiagonal_mul_nonneg first beside factor
    · -- Nothing is left of what is divided by an infinite pivot.
      have defined := (defined_of_le h.stepSize_le_firstPivot).2
      obtain ⟨s, unpacked⟩ : ∃ s, (firstPivot b c).toModel.unpack = .infinity s := by
        change ¬(firstPivot b c).toModel.unpack.isFinite = true at first
        change (firstPivot b c).toModel.unpack.isNaN = false at defined
        cases hu : (firstPivot b c).toModel.unpack with
        | infinity s => exact ⟨s, rfl⟩
        | notANumber =>
          rw [hu] at defined
          cases defined
        | _ =>
          rw [hu] at first
          exact absurd rfl first
      rw [(div_infinity beside unpacked).2, zero_mul]

/-- Data whose step size is not lost beside the squares, and whose sums stay in the range. -/
structure Gentle (b : Block Float) : Prop where
  least : 1 / 2 ^ 500 ≤ value b.stepSize
  ratio : 2 * value b.weight * (b.coefficients.map fun c => value c ^ 2).sum ≤
    2 ^ 48 * value b.stepSize
  small : 2 * value b.weight * (b.coefficients.map fun c => value c ^ 2).sum +
    value b.stepSize ≤ 2 ^ 1023

theorem Gentle.firstPivot_isFinite (gentle : Gentle b) (h : Moderate b c)
    (hc : c ∈ b.coefficients) : (firstPivot b c).isFinite = true := by
  refine (h.firstPivot_bounds rfl ?_ (slip_le gentle.least)).1
  have part : value c ^ 2 ≤ (b.coefficients.map fun c => value c ^ 2).sum := by
    refine List.single_le_sum ?_ _ (List.mem_map_of_mem hc)
    intro a ha
    obtain ⟨d, _, rfl⟩ := List.mem_map.mp ha
    exact sq_nonneg _
  have scaled := mul_le_mul_of_nonneg_left part (mul_nonneg two_pos.le h.weight)
  rw [sq, ← mul_assoc] at scaled
  have whole := gentle.small
  generalize (2 : ℚ) ^ 1023 = range at whole ⊢
  linarith

end SquaredHinge

/-- The divisors of the closed forms of an accepted squared hinge. None of the first kind is below
the step size, and what stands beside the diagonal is finite. The second pivot is finite and positive
where the elimination, as computed, leaves something, and all are so where the data are gentle. -/
theorem Potential.pivots_solvable {p : Potential Float} (constructed : p.Constructed)
    {fallback : Fallback Float} (hinge : p.kind = .squaredHinge fallback)
    (narrow : p.block.arity ≤ 2) :
    (∀ c ∈ p.block.coefficients, p.block.stepSize ≤ SquaredHinge.firstPivot p.block c ∧
      0 < SquaredHinge.firstPivot p.block c) ∧
    (∀ c d, p.block.coefficients = [c, d] →
      (SquaredHinge.offDiagonal p.block c d).isFinite = true ∧
      ((SquaredHinge.secondPivot p.block c d).isFinite = true ∧
          0 < SquaredHinge.secondPivot p.block c d ↔
        (SquaredHinge.firstPivot p.block d).isFinite = true ∧
          (SquaredHinge.offDiagonal p.block c d / SquaredHinge.firstPivot p.block c *
            SquaredHinge.offDiagonal p.block c d).isFinite = true ∧
          SquaredHinge.offDiagonal p.block c d / SquaredHinge.firstPivot p.block c *
            SquaredHinge.offDiagonal p.block c d < SquaredHinge.firstPivot p.block d)) ∧
    (SquaredHinge.Gentle p.block →
      (∀ c ∈ p.block.coefficients, (SquaredHinge.firstPivot p.block c).isFinite = true) ∧
      ∀ c d, p.block.coefficients = [c, d] →
        (SquaredHinge.secondPivot p.block c d).isFinite = true ∧
          0 < SquaredHinge.secondPivot p.block c d) := by
  obtain ⟨b, kind⟩ := p
  obtain rfl : kind = .squaredHinge fallback := hinge
  have checked := constructed.check_squaredHinge rfl
  have moderate {c : Float} (hc : c ∈ b.coefficients) : SquaredHinge.Moderate b c :=
    SquaredHinge.moderate_of_check constructed.block checked (narrow.trans_lt (by decide)) hc
  have first {c d : Float} (pair : b.coefficients = [c, d]) : SquaredHinge.Moderate b c :=
    moderate (by simp [pair])
  have second {c d : Float} (pair : b.coefficients = [c, d]) : SquaredHinge.Moderate b d :=
    moderate (by simp [pair])
  refine ⟨?_, ?_, ?_⟩
  · intro c hc
    exact ⟨(moderate hc).stepSize_le_firstPivot, (moderate hc).firstPivot_pos⟩
  · intro c d pair
    have beside := SquaredHinge.offDiagonal_isFinite_of_check constructed.block checked pair
    exact ⟨beside, SquaredHinge.secondPivot_pos_iff (first pair) beside⟩
  · intro gentle
    refine ⟨fun c hc => gentle.firstPivot_isFinite (moderate hc) hc, ?_⟩
    intro c d pair
    have squares : (b.coefficients.map fun c => value c ^ 2).sum = value c ^ 2 + value d ^ 2 := by
      rw [pair, List.map_cons, List.map_cons, List.map_nil, List.sum_cons, List.sum_cons,
        List.sum_nil, add_zero]
    have ratio := gentle.ratio
    have small := gentle.small
    rw [squares] at ratio small
    exact (first pair).secondPivot_pos (second pair) gentle.least ratio small

/-- A squared hinge over two variables of its own scale. -/
def Potential.scaled : Potential Float :=
  ⟨⟨1, [1.0, 2.0], 0.0, 1.0, 1.0, [0, 1], [1.0, 1.0], Vector.zeros 2, [1.0, 1.0]⟩,
    .squaredHinge Fallback.staying⟩

theorem Potential.pivots_solvable_scaled :
    scaled.Constructed ∧ scaled.block.arity ≤ 2 ∧ SquaredHinge.Gentle scaled.block ∧
      0 < SquaredHinge.secondPivot scaled.block 1.0 2.0 := by
  have constructed : scaled.Constructed :=
    constructed_of_checks (by decide) (by decide)
  have narrow : scaled.block.arity ≤ 2 := by decide
  have one : value 1.0 = 1 := by decide +kernel
  have two : value 2.0 = 2 := by decide +kernel
  have squares : 2 * value scaled.block.weight *
      (scaled.block.coefficients.map fun c => value c ^ 2).sum = 10 := by
    change 2 * value 1.0 * (value 1.0 ^ 2 + (value 2.0 ^ 2 + 0)) = 10
    rw [one, two]
    norm_num
  have gentle : SquaredHinge.Gentle scaled.block := by
    have rho : value scaled.block.stepSize = 1 := one
    refine ⟨?_, ?_, ?_⟩
    · rw [rho]
      exact (div_le_one (by positivity)).mpr (one_le_pow₀ one_le_two)
    · rw [squares, rho]
      norm_num
    · rw [squares, rho]
      have power : (2 : ℚ) ^ 4 ≤ 2 ^ 1023 := pow_le_pow_right₀ one_le_two (by decide)
      generalize (2 : ℚ) ^ 1023 = range at power ⊢
      linarith
  exact ⟨constructed, narrow, gentle,
    (((pivots_solvable constructed rfl narrow).2.2 gentle).2 1.0 2.0 rfl).2⟩

/-- A squared hinge whose step size is lost beside its squares. -/
def Potential.heavy : Potential Float :=
  ⟨⟨1, [1.0, 1.0], 0.0, 1e20, 1.0, [0, 1], [1.0, 1.0], Vector.zeros 2, [1.0, 1.0]⟩,
    .squaredHinge Fallback.staying⟩

/-- A built hinge over two variables that divides by zero, so that its solve fails. -/
theorem Potential.pivot_vanishes :
    heavy.Constructed ∧ heavy.block.arity = 2 ∧
      (SquaredHinge.secondPivot heavy.block 1.0 1.0 == 0) = true ∧
      ¬0 < SquaredHinge.secondPivot heavy.block 1.0 1.0 ∧
      heavy.solve.value.failure ≠ none := by
  have constructed : heavy.Constructed :=
    constructed_of_checks (by decide) (by decide)
  exact ⟨constructed, rfl, by decide, by decide,
    Option.isSome_iff_ne_none.mp (by decide +kernel)⟩

end RuleConsensus
