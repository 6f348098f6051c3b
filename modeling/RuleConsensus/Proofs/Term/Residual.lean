import RuleConsensus.Proofs.Binary.Drift
import RuleConsensus.Proofs.Exact.Accuracy
import RuleConsensus.Proofs.Term.WellFormed

/-!
The gradient that is computed of a squared hinge, and the exact one of the same data. These are read
as real numbers from the candidate on that was computed, so that its own roundings do not count.
-/

set_option autoImplicit false
set_option relaxedAutoImplicit false

namespace RuleConsensus

open Binary Matrix

/-- What a number stands for, among the real numbers. -/
noncomputable def Binary.real (a : Float) : ℝ := (value a : ℚ)

/-- The data of a block as real numbers. The candidate that was computed takes the place of consensus
and dual. -/
noncomputable def Block.real (b : Block Float) : Block ℝ :=
  ⟨b.termId, b.coefficients.map Binary.real, Binary.real b.constant, Binary.real b.weight,
    Binary.real b.stepSize, b.indices, b.x.map Binary.real, Vector.zeros b.arity,
    b.candidate.map Binary.real⟩

theorem Block.candidate_real {b : Block Float} (hy : b.y.length = b.arity)
    (hz : b.z.length = b.arity) : b.real.candidate = b.candidate.map Binary.real := by
  have hv : (b.candidate.map Binary.real).length = b.arity := by
    rw [List.length_map, Block.length_candidate hy hz]
  obtain ⟨v, same⟩ := Vector.exists_coordinates hv
  rw [candidate, real, same, Vector.zeros_ofFn, Vector.divide_ofFn, Vector.sub_ofFn, smul_zero,
    sub_zero]

theorem sum_sq_le_of_near {n : ℕ} {e f s : Fin n → ℝ} {t : ℝ} (ht : 0 ≤ t)
    (length : ∑ i, f i ^ 2 ≤ t ^ 2) (near : ∀ i, |e i - f i| ≤ s i) :
    ∑ i, e i ^ 2 ≤ (t + ∑ i, s i) ^ 2 := by
  have sizes : 0 ≤ ∑ i, s i := Finset.sum_nonneg fun i _ => (abs_nonneg _).trans (near i)
  have gap : ∑ i, (e i - f i) ^ 2 ≤ (∑ i, s i) ^ 2 :=
    calc ∑ i, (e i - f i) ^ 2 ≤ ∑ i, s i ^ 2 :=
          Finset.sum_le_sum fun i _ => sq_le_sq' (abs_le.mp (near i)).1 (abs_le.mp (near i)).2
      _ ≤ (∑ i, s i) ^ 2 :=
        Finset.sum_sq_le_sq_sum_of_nonneg fun i _ => (abs_nonneg _).trans (near i)
  have cross : ∑ i, f i * (e i - f i) ≤ t * ∑ i, s i := by
    refine (abs_le_of_sq_le_sq' ?_ (mul_nonneg ht sizes)).2
    calc (∑ i, f i * (e i - f i)) ^ 2 ≤ (∑ i, f i ^ 2) * ∑ i, (e i - f i) ^ 2 :=
          Finset.sum_mul_sq_le_sq_mul_sq _ _ _
      _ ≤ t ^ 2 * (∑ i, s i) ^ 2 :=
        mul_le_mul length gap (Finset.sum_nonneg fun i _ => sq_nonneg _) (sq_nonneg t)
      _ = (t * ∑ i, s i) ^ 2 := (mul_pow _ _ _).symm
  have opened : ∑ i, e i ^ 2 =
      ∑ i, f i ^ 2 + 2 * ∑ i, f i * (e i - f i) + ∑ i, (e i - f i) ^ 2 := by
    rw [Finset.mul_sum, ← Finset.sum_add_distrib, ← Finset.sum_add_distrib]
    exact Finset.sum_congr rfl fun i _ => by ring
  rw [opened]
  linarith

namespace SquaredHinge

/-- How fast the hinge rises at a point, with the size of what that is computed from. -/
def rise (b : Block Float) (x : List Float) : ℚ × ℚ :=
  let margin := minus (inner b.coefficients x) (point b.constant)
  times (point (Scalar.two * b.weight)) (max margin.1 0, margin.2)

/-- How fast the penalty rises in one variable, with the size of what that is computed from. -/
def pull (b : Block Float) (x z y : Float) : ℚ × ℚ :=
  times (minus (point x) (point z)) (point b.stepSize) + point y

def sizes (b : Block Float) (x : List Float) : List ℚ :=
  List.zipWith (fun c p => (times (point c) (rise b x) + p).2) b.coefficients
    (List.zipWith (fun d y => times d (point b.stepSize) + point y)
      (List.zipWith (fun a z => minus (point a) (point z)) x b.z) b.y)

/-- What the roundings of a gradient and of its candidate add up to at most. -/
def noise (b : Block Float) (x : List Float) : ℚ :=
  2 * drift (b.arity + 10) * (sizes b x).sum

variable {b : Block Float} {n : ℕ} {c x z y : Fin n → Float} {g : List Float}

theorem within_margin (hc : b.coefficients = List.ofFn c) :
    Within (n + 7) (Vector.dot b.coefficients (List.ofFn x) - b.constant)
      (minus (inner b.coefficients (List.ofFn x)) (point b.constant)) := by
  have dot := within_dot (x := b.coefficients) (y := List.ofFn x) (by simp [hc])
  rw [hc, List.length_ofFn, ← hc] at dot
  exact dot.sub ((within_point b.constant).mono (Nat.zero_le _))

theorem within_pull (a z y : Float) :
    Within 3 ((a - z) * b.stepSize + y) (pull b a z y) :=
  (((within_point a).sub (within_point z)).mul (within_point b.stepSize)).add
    ((within_point y).mono (Nat.zero_le 2))

theorem within_gradient (hc : b.coefficients = List.ofFn c) (hz : b.z = List.ofFn z)
    (hy : b.y = List.ofFn y)
    (finite : (Vector.dot b.coefficients (List.ofFn x) - b.constant).isFinite = true)
    (reported : ((landscape b).objective b).gradient (List.ofFn x) = .ok g) :
    ∃ G : Fin n → Float, g = List.ofFn G ∧ ∀ i, Within (n + 10) (G i)
      (times (point (c i)) (rise b (List.ofFn x)) + pull b (x i) (z i) (y i)) := by
  have augmented := asObjectiveFailure_eq_ok_iff.mp reported
  obtain ⟨h, hinge, rest⟩ := bind_eq_ok.mp augmented
  obtain ⟨r, penalty, joined⟩ := bind_eq_ok.mp rest
  obtain ⟨m, margin, sloped⟩ := bind_eq_ok.mp hinge
  obtain ⟨_, margin⟩ := bind_unit_eq_ok.mp margin
  obtain ⟨_, penalty⟩ := bind_unit_eq_ok.mp penalty
  have m_eq := pure_eq_ok.mp margin
  have r_eq := pure_eq_ok.mp penalty
  have g_eq := pure_eq_ok.mp joined
  have pulled : r = List.ofFn fun i => (x i - z i) * b.stepSize + y i := by
    rw [← r_eq, hz, hy, Vector.add, Vector.scale, Vector.sub, Vector.zipWith_ofFn, List.map_ofFn,
      Vector.zipWith_ofFn]
    rfl
  have entry (i : Fin n) {t : Float}
      (close : Within (n + 9) t (times (point (c i)) (rise b (List.ofFn x)))) :
      Within (n + 10) (t + ((x i - z i) * b.stepSize + y i))
        (times (point (c i)) (rise b (List.ofFn x)) + pull b (x i) (z i) (y i)) :=
    close.add ((within_pull (x i) (z i) (y i)).mono (by omega))
  have part := (within_margin (x := x) hc).positivePart finite
  rw [m_eq] at part
  by_cases active : 0 < m
  · rw [if_pos active] at part
    have sloped := pure_eq_ok.mp ((if_pos active).symm.trans sloped)
    refine ⟨fun i => c i * (Scalar.two * b.weight * m) + ((x i - z i) * b.stepSize + y i), ?_, ?_⟩
    · rw [← g_eq, ← sloped, pulled, hc, Vector.scale, List.map_ofFn, Vector.add, Vector.zipWith_ofFn]
      rfl
    · intro i
      have risen := (within_point (Scalar.two * b.weight)).mul part
      have scaled := (within_point (c i)).mul risen
      exact entry i (scaled.mono (by omega))
  · rw [if_neg active] at part
    have sloped := pure_eq_ok.mp ((if_neg active).symm.trans sloped)
    have flat : Vector.zeros b.arity = List.ofFn fun _ : Fin n => (0 : Float) := by
      rw [List.ofFn_const, Vector.zeros, Block.arity, hc, List.length_ofFn]
      rfl
    refine ⟨fun i => 0 + ((x i - z i) * b.stepSize + y i), ?_, ?_⟩
    · rw [← g_eq, ← sloped, pulled, flat, Vector.add, Vector.zipWith_ofFn]
    · intro i
      have level := (part.times_zero (Scalar.two * b.weight)).times_zero (c i)
      exact entry i (level.mono (by omega))

theorem pull_near {a z y : Float} (positive : 0 < value b.stepSize)
    (finite_rho : b.stepSize.isFinite = true) (finite : (z - y / b.stepSize).isFinite = true) :
    |(pull b a z y).1 - value b.stepSize * (value a - value (z - y / b.stepSize))| ≤
      drift 2 * (pull b a z y).2 := by
  have close := (((within_point z).mono (Nat.zero_le 1)).sub
    (within_div positive.ne' finite_rho y)).close finite
  have drifts := drift_nonneg 2
  have least := faint_pos
  simp only [minus, point, pull, times, Prod.fst_add, Prod.snd_add] at close ⊢
  have moved : (value a - value z) * value b.stepSize + value y -
      value b.stepSize * (value a - value (z - y / b.stepSize)) = value b.stepSize *
        (value (z - y / b.stepSize) - (value z - value y / value b.stepSize)) := by
    field_simp
    ring
  have divided : value b.stepSize * |value y / value b.stepSize| = |value y| := by
    rw [abs_div, abs_of_pos positive, mul_div_cancel₀ _ positive.ne']
  rw [moved, abs_mul, abs_of_pos positive]
  calc value b.stepSize * |value (z - y / b.stepSize) - (value z - value y / value b.stepSize)|
      ≤ value b.stepSize * (drift 2 *
          (|value z| + faint + (|value y / value b.stepSize| + faint))) :=
        mul_le_mul_of_nonneg_left close positive.le
    _ = drift 2 * (value b.stepSize * (|value z| + 2 * faint) + |value y|) := by
      rw [← divided]
      ring
    _ ≤ _ := by
      refine mul_le_mul_of_nonneg_left ?_ drifts
      have near : 0 ≤ |value a| * value b.stepSize := mul_nonneg (abs_nonneg _) positive.le
      have rest : 0 ≤ (|value a| + |value z| + 2 * faint) * faint := by positivity
      linarith

theorem inner_ofFn (c x : Fin n → Float) :
    (Binary.inner (List.ofFn c) (List.ofFn x)).1 = ∑ i, value (c i) * value (x i) := by
  rw [Binary.inner, Vector.zipWith_ofFn, List.sum_ofFn, Prod.fst_add, Prod.fst_sum, Prod.smul_fst,
    point, value_zero, smul_zero, add_zero]
  rfl

theorem size_nonneg (hc : b.coefficients = List.ofFn c) (i : Fin n) :
    0 ≤ (times (point (c i)) (rise b (List.ofFn x))).2 := by
  have least := faint_pos
  have margin := (within_margin (x := x) hc).positive
  simp only [times, point, rise]
  positivity

/-- The exact gradient lies as close to the computed one as the roundings of both allow. -/
theorem near_gradient {G : Float} {i : Fin n} (hc : b.coefficients = List.ofFn c)
    (positive : 0 < value b.stepSize) (finite_rho : b.stepSize.isFinite = true)
    (finite : G.isFinite = true) (finite_v : (z i - y i / b.stepSize).isFinite = true)
    (close : Within (n + 10) G
      (times (point (c i)) (rise b (List.ofFn x)) + pull b (x i) (z i) (y i))) :
    |value (c i) * (rise b (List.ofFn x)).1 +
        value b.stepSize * (value (x i) - value (z i - y i / b.stepSize)) - value G| ≤
      2 * drift (n + 10) *
        (times (point (c i)) (rise b (List.ofFn x)) + pull b (x i) (z i) (y i)).2 := by
  have first := close.close finite
  have second := pull_near (a := x i) positive finite_rho finite_v
  have risen := size_nonneg (x := x) hc i
  have pulled := (within_pull (b := b) (x i) (z i) (y i)).positive
  rw [Prod.fst_add, Prod.snd_add] at first
  rw [Prod.snd_add]
  change |value G - (value (c i) * (rise b (List.ofFn x)).1 + _)| ≤ _ at first
  have part : drift 2 * (pull b (x i) (z i) (y i)).2 ≤ drift (n + 10) *
      ((times (point (c i)) (rise b (List.ofFn x))).2 + (pull b (x i) (z i) (y i)).2) :=
    mul_le_mul (drift_mono (by omega)) (by linarith) pulled.le (drift_nonneg _)
  rw [abs_le] at first second ⊢
  constructor <;> linarith

theorem noise_ofFn (hc : b.coefficients = List.ofFn c) (hz : b.z = List.ofFn z)
    (hy : b.y = List.ofFn y) :
    noise b (List.ofFn x) = ∑ i, 2 * drift (n + 10) *
      (times (point (c i)) (rise b (List.ofFn x)) + pull b (x i) (z i) (y i)).2 := by
  have many : b.arity = n := by rw [Block.arity, hc, List.length_ofFn]
  rw [noise, sizes, hc, hz, hy, Vector.zipWith_ofFn, Vector.zipWith_ofFn, Vector.zipWith_ofFn,
    List.sum_ofFn, many, Finset.mul_sum]
  rfl

theorem noise_nonneg (hc : b.coefficients = List.ofFn c) (hz : b.z = List.ofFn z)
    (hy : b.y = List.ofFn y) : 0 ≤ noise b (List.ofFn x) := by
  rw [noise_ofFn hc hz hy]
  refine Finset.sum_nonneg fun i _ => mul_nonneg (mul_nonneg two_pos.le (drift_nonneg _)) ?_
  exact add_nonneg (size_nonneg hc i) (within_pull (x i) (z i) (y i)).positive.le

end SquaredHinge

namespace Potential

variable {q : Potential Float} {fallback : Fallback Float} {x g : List Float}

theorem WellFormed.sound_real (formed : q.WellFormed) (hinge : q.IsHinge) :
    q.block.real.Sound where
  weight_nonneg := by
    have above := (le_iff_value isFinite_zero (formed.finite_weight hinge)).mp formed.weight_nonneg
    change (0 : ℝ) ≤ (value q.block.weight : ℚ)
    exact_mod_cast above
  stepSize_pos := by
    have above := (lt_iff_value isFinite_zero formed.finite_stepSize).mp formed.stepSize_pos
    change (0 : ℝ) < (value q.block.stepSize : ℚ)
    exact_mod_cast above
  arity_pos := by
    rw [Block.arity, Block.real, List.length_map]
    exact formed.arity_pos
  length_indices := by
    rw [Block.arity, Block.real, List.length_map]
    exact formed.length_indices
  length_y := by
    rw [Block.arity, Block.real, List.length_map, Vector.length_zeros]
    rfl

noncomputable def exact (b : Block Float) : Potential ℝ := ⟨b.real, .squaredHinge .staying⟩

theorem gradient_real {b : Block Float} {n : ℕ} {c v x : Fin n → Float}
    (hc : b.coefficients = List.ofFn c) (hv : b.real.candidate = List.ofFn fun i => real (v i))
    (twice : (Scalar.two * b.weight).isFinite = true) :
    Vector.add (Vector.scale (exact b).block.coefficients
        ((exact b).slopeAt (List.ofFn fun i => real (x i))))
      (Vector.scale (Vector.sub (List.ofFn fun i => real (x i)) (exact b).block.candidate)
        (exact b).block.stepSize) =
      List.ofFn fun i => ((value (c i) * (SquaredHinge.rise b (List.ofFn x)).1 +
        value b.stepSize * (value (x i) - value (v i)) : ℚ) : ℝ) := by
  have coefficients : (exact b).block.coefficients = List.ofFn fun i => real (c i) := by
    rw [exact, Block.real, hc, List.map_ofFn]
    rfl
  have slope : (exact b).slopeAt (List.ofFn fun i => real (x i)) =
      ((SquaredHinge.rise b (List.ofFn x)).1 : ℚ) := by
    rw [slopeAt, coefficients, exact, Kind.slope, Vector.dot_ofFn, SquaredHinge.rise, hc]
    simp only [times, minus, point]
    rw [value_double twice, SquaredHinge.inner_ofFn]
    push_cast
    rfl
  change b.real.candidate = _ at hv
  rw [slope, coefficients, show (exact b).block.candidate = _ from hv]
  rw [Vector.sub_ofFn, Vector.scale_ofFn, Vector.scale_ofFn, Vector.add_ofFn]
  refine congrArg List.ofFn (funext fun i => ?_)
  change _ * real (c i) + real b.stepSize * (real (x i) - real (v i)) = _
  rw [real, real, real, real]
  push_cast
  ring

/-- The gradient test of a descent holds at a point, and the margin there is a number. -/
structure Level (q : Potential Float) (bound : Float) (x : List Float) : Prop where
  margin : (Vector.dot q.block.coefficients x - q.block.constant).isFinite = true
  slope : ∃ g, q.objective.gradient x = .ok g ∧ Vector.norm g < bound

theorem dot_gradient_le_of_level {b : Block Float} {n : ℕ} {c x z y : Fin n → Float}
    (hc : b.coefficients = List.ofFn c) (hz : b.z = List.ofFn z) (hy : b.y = List.ofFn y)
    (positive : 0 < value b.stepSize) (finite_rho : b.stepSize.isFinite = true)
    (finite_v : ∀ i, (z i - y i / b.stepSize).isFinite = true) {bound : Float}
    (hbound : bound.isFinite = true) (sign : 0 ≤ value bound)
    (level : Level ⟨b, .squaredHinge fallback⟩ bound (List.ofFn x)) :
    ∑ i, ((value (c i) * (SquaredHinge.rise b (List.ofFn x)).1 +
        value b.stepSize * (value (x i) - value (z i - y i / b.stepSize)) : ℚ) : ℝ) ^ 2 ≤
      ((reach n (value bound) + SquaredHinge.noise b (List.ofFn x) : ℚ) : ℝ) ^ 2 := by
  obtain ⟨margin, g, reported, small⟩ := level
  obtain ⟨G, rfl, close⟩ := SquaredHinge.within_gradient hc hz hy margin reported
  obtain ⟨finite, length⟩ := sum_sq_le_of_norm_lt hbound sign small
  have reached := reach_nonneg n sign
  rw [List.map_ofFn, List.sum_ofFn, List.length_ofFn] at length
  rw [SquaredHinge.noise_ofFn hc hz hy]
  push_cast
  refine sum_sq_le_of_near (f := fun i => (value (G i) : ℝ)) (by exact_mod_cast reached) ?_
    fun i => ?_
  · exact_mod_cast length
  · have entry := SquaredHinge.near_gradient hc positive finite_rho
      (finite (G i) (List.mem_ofFn.mpr ⟨i, rfl⟩)) (finite_v i) (close i)
    have entry := (Rat.cast_le (K := ℝ)).mpr entry
    push_cast at entry ⊢
    exact entry

/-- Where the gradient test holds, a point is no farther from the exact minimiser than the bound and
the roundings say. -/
theorem near_target_of_level (formed : q.WellFormed) (kind : q.kind = .squaredHinge fallback)
    (twice : (Scalar.two * q.block.weight).isFinite = true)
    (finite : Vector.Finite q.block.candidate) {bound : Float} (hbound : bound.isFinite = true)
    (sign : 0 ≤ value bound) (hx : x.length = q.block.arity) (level : q.Level bound x) :
    ∀ d ∈ Vector.sub (x.map real) (SquaredHinge.target q.block.real),
      real q.block.stepSize * |d| ≤
        ((reach q.block.arity (value bound) + SquaredHinge.noise q.block x : ℚ) : ℝ) := by
  have hinge : q.IsHinge := by simp [IsHinge, kind]
  have sound := formed.sound_real hinge
  have positive := (lt_iff_value isFinite_zero formed.finite_stepSize).mp formed.stepSize_pos
  obtain ⟨b, _⟩ := q
  obtain rfl := kind
  dsimp only at *
  obtain ⟨n, hn⟩ : ∃ n, b.arity = n := ⟨_, rfl⟩
  obtain ⟨c, hc⟩ := Vector.exists_coordinates hn
  obtain ⟨z, hz⟩ := Vector.exists_coordinates (formed.length_z.trans hn)
  obtain ⟨y, hy⟩ := Vector.exists_coordinates (formed.length_y.trans hn)
  obtain ⟨x, rfl⟩ := Vector.exists_coordinates (hx.trans hn)
  have computed : b.candidate = List.ofFn fun i => z i - y i / b.stepSize := by
    rw [Block.candidate, hz, hy, Vector.sub, Vector.divide, List.map_ofFn, Vector.zipWith_ofFn]
    rfl
  have finite_v (i : Fin n) : (z i - y i / b.stepSize).isFinite = true :=
    finite _ (by rw [computed]; exact List.mem_ofFn.mpr ⟨i, rfl⟩)
  have short := dot_gradient_le_of_level hc hz hy positive formed.finite_stepSize finite_v hbound
    sign level
  have candidate : b.real.candidate = List.ofFn fun i => real (z i - y i / b.stepSize) := by
    rw [Block.candidate_real formed.length_y formed.length_z, computed, List.map_ofFn]
    rfl
  have many : b.real.arity = n := by
    rw [Block.arity, Block.real, List.length_map]
    exact hn
  have hz' : b.real.z.length = b.real.arity := by
    rw [many, Block.real, List.length_map, computed, List.length_ofFn]
  have hX : (List.ofFn fun i => real (x i)).length = b.real.arity := by
    rw [many, List.length_ofFn]
  have soft : ∀ comparator, (exact b).kind ≠ .hardRule comparator := by simp [exact]
  obtain ⟨_, _, _, told⟩ := exists_reports (p := exact b) soft sound hz' hX
  obtain ⟨hT, _, rest⟩ := reports_target (p := exact b) rfl sound hz'
  have near := (sq_mul_gap_le_of_rest soft sound hz' hX hT told rest).1
  have total : 0 ≤ reach n (value bound) + SquaredHinge.noise b (List.ofFn x) :=
    add_nonneg (reach_nonneg n sign) (SquaredHinge.noise_nonneg hc hz hy)
  rw [hn, List.map_ofFn]
  refine Vector.mul_abs_le_of_sq_mul_gap (by exact_mod_cast total) (near.trans ?_)
  rw [gradient_real hc candidate twice, Vector.dot_ofFn]
  refine short.trans' (le_of_eq ?_)
  exact Finset.sum_congr rfl fun i _ => (sq _).symm

end Potential

end RuleConsensus
