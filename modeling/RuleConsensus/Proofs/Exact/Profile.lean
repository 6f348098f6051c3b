import Mathlib.Algebra.Order.Monoid.WithTop
import RuleConsensus.Proofs.Exact.Coordinates
import RuleConsensus.Term.Potential

/-!
The cost of a term depends on a point through its margin alone. Here are the profiles of the three
kinds of terms as functions of the margin, with infinity where a hard rule is broken, and the
slopes that support them. The last statements find, for each regime of a proximal step, how far to
move along the coefficients so that the step size times the way is a slope at the margin reached.
-/

set_option autoImplicit false
set_option relaxedAutoImplicit false

namespace RuleConsensus

def Comparator.Holds : Comparator → ℝ → Prop
  | .inequality, m => m ≤ 0
  | .equality, m => m = 0

noncomputable def Kind.profile (kind : Kind ℝ) (w m : ℝ) : WithTop ℝ :=
  open Classical in
  match kind with
  | .squaredHinge _ => ((w * max m 0 ^ 2 : ℝ) : WithTop ℝ)
  | .linearHinge => ((w * max m 0 : ℝ) : WithTop ℝ)
  | .hardRule comparator => if comparator.Holds m then 0 else ⊤

/-- A line through the profile that stays below it. -/
def IsSlope (profile : ℝ → WithTop ℝ) (m g : ℝ) : Prop :=
  profile m ≠ ⊤ ∧ ∀ t, profile m + ((g * (t - m) : ℝ) : WithTop ℝ) ≤ profile t

namespace Kind

variable {w m : ℝ}

theorem profile_squaredHinge (fallback : Fallback ℝ) :
    profile (.squaredHinge fallback) w m = ((w * max m 0 ^ 2 : ℝ) : WithTop ℝ) := rfl

theorem profile_linearHinge : profile .linearHinge w m = ((w * max m 0 : ℝ) : WithTop ℝ) := rfl

theorem profile_nonneg (kind : Kind ℝ) (hw : 0 ≤ w) (m : ℝ) : 0 ≤ kind.profile w m := by
  cases kind with
  | squaredHinge fallback =>
    have h : 0 ≤ w * max m 0 ^ 2 := mul_nonneg hw (sq_nonneg _)
    rw [profile_squaredHinge]
    exact_mod_cast h
  | linearHinge =>
    have h : 0 ≤ w * max m 0 := mul_nonneg hw (le_max_right m 0)
    rw [profile_linearHinge]
    exact_mod_cast h
  | hardRule comparator =>
    unfold profile
    dsimp only
    split_ifs
    · exact le_rfl
    · exact le_top

theorem profile_of_holds {comparator : Comparator} (holds : comparator.Holds m) :
    Kind.profile (.hardRule comparator) w m = 0 := if_pos holds

theorem profile_of_idle {kind : Kind ℝ} (soft : ∀ comparator, kind ≠ .hardRule comparator)
    (idle : w = 0 ∨ m ≤ 0) : kind.profile w m = 0 := by
  cases kind with
  | squaredHinge fallback => rcases idle with h | h <;> simp [profile_squaredHinge, h]
  | linearHinge => rcases idle with h | h <;> simp [profile_linearHinge, h]
  | hardRule comparator => exact absurd rfl (soft comparator)

theorem isSlope_zero {kind : Kind ℝ} (hw : 0 ≤ w) (h : kind.profile w m = 0) :
    IsSlope (kind.profile w) m 0 := by
  refine ⟨by simp [h], fun t => ?_⟩
  simpa [h] using kind.profile_nonneg hw t

theorem isSlope_squaredHinge {fallback : Fallback ℝ} (hw : 0 ≤ w) (hm : 0 ≤ m) :
    IsSlope (Kind.profile (.squaredHinge fallback) w) m (2 * w * m) := by
  refine ⟨WithTop.coe_ne_top, fun t => ?_⟩
  have ht : t ≤ max t 0 := le_max_left t 0
  have h : w * max m 0 ^ 2 + 2 * w * m * (t - m) ≤ w * max t 0 ^ 2 := by
    rw [max_eq_left hm]
    nlinarith [mul_nonneg hw (sq_nonneg (max t 0 - m)),
      mul_nonneg (mul_nonneg hw hm) (sub_nonneg.mpr ht)]
  rw [profile_squaredHinge, profile_squaredHinge]
  exact_mod_cast h

theorem isSlope_linearHinge {g : ℝ} (hg : 0 ≤ g) (hgw : g ≤ w) (before : m < 0 → g = 0)
    (behind : 0 < m → g = w) : IsSlope (Kind.profile .linearHinge w) m g := by
  refine ⟨WithTop.coe_ne_top, fun t => ?_⟩
  have hm : g * m = w * max m 0 := by
    rcases lt_trichotomy m 0 with h | h | h
    · rw [before h, max_eq_right h.le, zero_mul, mul_zero]
    · rw [h, max_self, mul_zero, mul_zero]
    · rw [behind h, max_eq_left h.le]
  have ht : g * t ≤ w * max t 0 :=
    (mul_le_mul_of_nonneg_left (le_max_left t 0) hg).trans
      (mul_le_mul_of_nonneg_right hgw (le_max_right t 0))
  have h : w * max m 0 + g * (t - m) ≤ w * max t 0 := by linarith
  rw [profile_linearHinge, profile_linearHinge]
  exact_mod_cast h

/-- On the border of a hard rule its slopes point outwards: none is negative for an inequality,
and all are possible for an equality. -/
theorem isSlope_hardRule {comparator : Comparator} {g : ℝ}
    (outward : comparator = .inequality → 0 ≤ g) :
    IsSlope (Kind.profile (.hardRule comparator) w) 0 g := by
  have border : Kind.profile (.hardRule comparator) w 0 = 0 :=
    profile_of_holds (by cases comparator <;> simp [Comparator.Holds])
  refine ⟨by simp [border], fun t => ?_⟩
  rw [border, zero_add, sub_zero, profile]
  split_ifs with holds
  · have h : g * t ≤ 0 := by
      cases comparator with
      | inequality => exact mul_nonpos_of_nonneg_of_nonpos (outward rfl) holds
      | equality => rw [show t = 0 from holds, mul_zero]
    exact_mod_cast h
  · exact le_top

end Kind

section Regimes

variable {w m a rho : ℝ}

theorem margin_active (hd : 0 < rho + 2 * w * a) :
    m - 2 * w * m / (rho + 2 * w * a) * a = rho * m / (rho + 2 * w * a) := by
  field_simp
  ring

/-- An active squared hinge stays active, and the way is its slope over the step size. -/
theorem isSlope_active {fallback : Fallback ℝ} (hw : 0 ≤ w) (hrho : 0 < rho) (ha : 0 ≤ a)
    (hm : 0 ≤ m) :
    IsSlope (Kind.profile (.squaredHinge fallback) w)
      (m - 2 * w * m / (rho + 2 * w * a) * a) (rho * (2 * w * m / (rho + 2 * w * a))) := by
  have hd : 0 < rho + 2 * w * a := by positivity
  have slope : rho * (2 * w * m / (rho + 2 * w * a)) =
      2 * w * (rho * m / (rho + 2 * w * a)) := by ring
  rw [margin_active hd, slope]
  exact Kind.isSlope_squaredHinge hw (by positivity)

theorem isSlope_sloping (hw : 0 ≤ w) (hrho : 0 < rho) (h : 0 ≤ m - w / rho * a) :
    IsSlope (Kind.profile .linearHinge w) (m - w / rho * a) (rho * (w / rho)) := by
  rw [mul_div_cancel₀ w hrho.ne']
  exact Kind.isSlope_linearHinge hw le_rfl (fun hn => absurd hn (not_lt.mpr h)) fun _ => rfl

theorem square_pos_of_kink (ha : 0 ≤ a) (hm : 0 < m) (h : m - w / rho * a < 0) : 0 < a := by
  refine lt_of_le_of_ne ha ?_
  rintro rfl
  linarith [mul_zero (w / rho)]

theorem isSlope_kink (hrho : 0 < rho) (ha : 0 ≤ a) (hm : 0 < m) (h : m - w / rho * a < 0) :
    IsSlope (Kind.profile .linearHinge w) (m - m / a * a) (rho * (m / a)) := by
  have hpos : 0 < a := square_pos_of_kink ha hm h
  have short : rho * (m / a) ≤ w := by
    have hlt : m / a < w / rho := by
      rw [div_lt_iff₀ hpos]
      linarith
    calc rho * (m / a) ≤ rho * (w / rho) := mul_le_mul_of_nonneg_left hlt.le hrho.le
      _ = w := mul_div_cancel₀ w hrho.ne'
  rw [div_mul_cancel₀ m hpos.ne', sub_self]
  exact Kind.isSlope_linearHinge (by positivity) short (fun hn => absurd hn (lt_irrefl 0))
    fun hp => absurd hp (lt_irrefl 0)

theorem isSlope_projected {comparator : Comparator} (hrho : 0 < rho) (ha : 0 < a)
    (outside : comparator = .inequality → 0 < m) :
    IsSlope (Kind.profile (.hardRule comparator) w) (m - m / a * a) (rho * (m / a)) := by
  rw [div_mul_cancel₀ m ha.ne', sub_self]
  refine Kind.isSlope_hardRule fun h => ?_
  have hm : 0 < m := outside h
  positivity

end Regimes

end RuleConsensus
