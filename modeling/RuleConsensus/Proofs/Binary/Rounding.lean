import RuleConsensus.Proofs.Binary.Value

/-!
Rounding to binary64. A mantissa with its two residual bits says where an exact number lies, the
bits survive shifting, and rounding goes to the nearest whole mantissa, to an even one if two are
as near. So what is rounded does not pass any number of 53 digits, is off by half of the last digit
at most, and is infinite exactly from half a digit beyond the largest number on.
-/

set_option autoImplicit false
set_option relaxedAutoImplicit false

namespace RuleConsensus.Binary

open Float.Model Float.Model.UnpackedFloat

section Residues

/-- Where an exact number lies, as a mantissa with its residual bits says. -/
def Stands (q : ℚ) : ExtendedMantissa → Prop
  | ⟨m, false, false⟩ => q = m
  | ⟨m, false, true⟩ => m < q ∧ q < m + 1 / 2
  | ⟨m, true, false⟩ => q = m + 1 / 2
  | ⟨m, true, true⟩ => m + 1 / 2 < q ∧ q < m + 1

variable {q : ℚ} {em : ExtendedMantissa}

theorem Stands.bounds (h : Stands q em) : (em.mantissa : ℚ) ≤ q ∧ q < em.mantissa + 1 := by
  obtain ⟨m, half, rest⟩ := em
  cases half <;> cases rest <;> simp only [Stands] at h ⊢
  · exact ⟨h.ge, by linarith⟩
  · exact ⟨h.1.le, by linarith [h.2]⟩
  · exact ⟨by linarith, by linarith⟩
  · exact ⟨by linarith [h.1], h.2⟩

/-- A shift by one place halves the number, and the place that is lost is kept in the bits. -/
theorem Stands.shiftRightOne (h : Stands q em) : Stands (q / 2) em.shiftRightOne := by
  obtain ⟨m, half, rest⟩ := em
  obtain ⟨k, rfl | rfl⟩ := Nat.even_or_odd' m
  · have shifted : ExtendedMantissa.shiftRightOne ⟨2 * k, half, rest⟩ =
        ⟨k, false, half || rest⟩ := by
      simp [ExtendedMantissa.shiftRightOne]
    rw [shifted]
    cases half <;> cases rest <;> simp only [Stands, Bool.or_self, Bool.or_true,
      Bool.or_false] at h ⊢ <;> push_cast at h
    · linarith
    all_goals constructor <;> linarith
  · have shifted : ExtendedMantissa.shiftRightOne ⟨2 * k + 1, half, rest⟩ =
        ⟨k, true, half || rest⟩ := by
      simp [ExtendedMantissa.shiftRightOne]
      omega
    rw [shifted]
    cases half <;> cases rest <;> simp only [Stands, Bool.or_self, Bool.or_true,
      Bool.or_false] at h ⊢ <;> push_cast at h
    · linarith
    all_goals constructor <;> linarith

theorem Stands.shiftRight (h : Stands q em) (n : ℕ) : Stands (q / 2 ^ n) (em >>> n) := by
  change Stands (q / 2 ^ n) (n.repeat ExtendedMantissa.shiftRightOne em)
  induction n with
  | zero => simpa [Nat.repeat] using h
  | succ n ih =>
    have halved := ih.shiftRightOne
    rwa [div_div, ← pow_succ] at halved

theorem Stands.rounded (h : Stands q em) :
    |(em.roundedMantissa : ℚ) - q| ≤ 1 / 2 ∧
      (|(em.roundedMantissa : ℚ) - q| = 1 / 2 → Even em.roundedMantissa) := by
  obtain ⟨m, half, rest⟩ := em
  cases half <;> cases rest <;> simp only [Stands, ExtendedMantissa.roundedMantissa,
    ExtendedMantissa.accuracy, Accuracy.roundToNearestEven] at h ⊢
  · rw [h, sub_self, abs_zero]
    norm_num
  · rw [abs_of_neg (by linarith)]
    exact ⟨by linarith, fun tie => by linarith⟩
  · obtain ⟨k, rfl | rfl⟩ := Nat.even_or_odd' m
    · have even : 2 * k + 2 * k % 2 = 2 * k := by omega
      rw [even, h, sub_add_cancel_left, abs_neg, abs_of_pos one_half_pos]
      exact ⟨le_rfl, fun _ => even_two_mul k⟩
    · have odd : 2 * k + 1 + (2 * k + 1) % 2 = 2 * (k + 1) := by omega
      rw [odd, h]
      push_cast
      rw [show 2 * ((k : ℚ) + 1) - (2 * k + 1 + 1 / 2) = 1 / 2 by ring, abs_of_pos one_half_pos]
      exact ⟨le_rfl, fun _ => even_two_mul _⟩
  · push_cast
    rw [abs_of_pos (by linarith)]
    exact ⟨by linarith, fun tie => by linarith⟩

end Residues

section Nearest

/-- A whole number of places of an exact number, nearest to it. The places are chosen so that it has
53 digits, or fewer at the least exponent. -/
structure Rounded (x : ℚ) (n : ℕ) (t : ℤ) : Prop where
  least : -1074 ≤ t
  full : t = -1074 ∨ 2 ^ 52 ≤ x / 2 ^ t
  bounded : x / 2 ^ t < 2 ^ 53
  near : |(n : ℚ) - x / 2 ^ t| ≤ 1 / 2
  even : |(n : ℚ) - x / 2 ^ t| = 1 / 2 → Even n

variable {x y : ℚ} {n : ℕ} {t : ℤ}

theorem Rounded.ge_of_le (h : Rounded x n t) {i : ℤ} (below : i ≤ x / 2 ^ t) : i ≤ n := by
  have near := abs_le.mp h.near
  have close : (i : ℚ) < n + 1 := by linarith [near.1]
  have close : i < (n : ℤ) + 1 := by exact_mod_cast close
  omega

theorem Rounded.le_of_le (h : Rounded x n t) {i : ℤ} (above : x / 2 ^ t ≤ i) : n ≤ i := by
  have near := abs_le.mp h.near
  have close : (n : ℚ) < i + 1 := by linarith [near.2]
  have close : (n : ℤ) < i + 1 := by exact_mod_cast close
  omega

theorem Rounded.digits (h : Rounded x n t) : n ≤ 2 ^ 53 := by
  have upper : (n : ℤ) ≤ (2 ^ 53 : ℕ) :=
    h.le_of_le (by push_cast; exact h.bounded.le)
  exact_mod_cast upper

theorem Rounded.leading (h : Rounded x n t) : t = -1074 ∨ 2 ^ 52 ≤ n := by
  refine h.full.imp_right fun full => ?_
  have lower : ((2 ^ 52 : ℕ) : ℤ) ≤ n := h.ge_of_le (by push_cast; exact full)
  exact_mod_cast lower

/-- The numbers of 53 digits, as far as the least exponent allows. Exponents are not bounded
above. -/
def Grid (y : ℚ) : Prop := ∃ j e : ℤ, |j| ≤ 2 ^ 53 ∧ -1074 ≤ e ∧ y = j * 2 ^ e

theorem Grid.neg (h : Grid y) : Grid (-y) := by
  obtain ⟨j, e, digits, least, rfl⟩ := h
  exact ⟨-j, e, by rwa [abs_neg], least, by push_cast; ring⟩

theorem Rounded.whole_or_small (h : Rounded x n t) (hy : Grid y) :
    (∃ i : ℤ, y = i * 2 ^ t) ∨ 2 ^ 52 ≤ x / 2 ^ t ∧ y ≤ 2 ^ 52 * 2 ^ t := by
  obtain ⟨j, e, digits, least, rfl⟩ := hy
  by_cases fine : t ≤ e
  · refine .inl ⟨j * 2 ^ (e - t).toNat, ?_⟩
    have split : (2 : ℚ) ^ e = 2 ^ (e - t).toNat * 2 ^ t := by
      rw [← zpow_natCast, ← zpow_add₀ two_ne_zero]
      congr 1
      omega
    push_cast
    rw [split, mul_assoc]
  · refine .inr ⟨h.full.resolve_left (by omega), ?_⟩
    have digits : (j : ℚ) ≤ 2 ^ 53 := by exact_mod_cast (abs_le.mp digits).2
    have doubled : (2 : ℚ) * 2 ^ e ≤ 2 ^ t := by
      rw [← zpow_one_add₀ two_ne_zero]
      exact zpow_le_zpow_right₀ one_le_two (by omega)
    calc (j : ℚ) * 2 ^ e ≤ 2 ^ 53 * 2 ^ e := by gcongr
      _ = 2 ^ 52 * (2 * 2 ^ e) := by ring
      _ ≤ 2 ^ 52 * 2 ^ t := by gcongr

theorem Rounded.between (h : Rounded x n t) (hy : Grid y) :
    (y ≤ x → y ≤ n * 2 ^ t) ∧ (x ≤ y → (n : ℚ) * 2 ^ t ≤ y) := by
  have power : (0 : ℚ) < 2 ^ t := by positivity
  obtain ⟨i, rfl⟩ | ⟨full, small⟩ := h.whole_or_small hy
  · refine ⟨fun below => ?_, fun above => ?_⟩
    · have whole : i ≤ n := h.ge_of_le ((le_div_iff₀ power).mpr below)
      have whole : (i : ℚ) ≤ n := by exact_mod_cast whole
      exact mul_le_mul_of_nonneg_right whole power.le
    · have whole : n ≤ i := h.le_of_le ((div_le_iff₀ power).mpr above)
      have whole : (n : ℚ) ≤ i := by exact_mod_cast whole
      exact mul_le_mul_of_nonneg_right whole power.le
  · refine ⟨fun _ => ?_, fun above => ?_⟩
    · have leading : ((2 ^ 52 : ℕ) : ℤ) ≤ n := h.ge_of_le (by push_cast; exact full)
      have leading : (2 : ℚ) ^ 52 ≤ n := by exact_mod_cast leading
      exact small.trans (mul_le_mul_of_nonneg_right leading power.le)
    · have level : x / 2 ^ t ≤ 2 ^ 52 := (div_le_iff₀ power).mpr (above.trans small)
      have leading : (n : ℤ) ≤ (2 ^ 52 : ℕ) := h.le_of_le (by push_cast; exact level)
      have leading : (n : ℚ) ≤ 2 ^ 52 := by exact_mod_cast leading
      calc (n : ℚ) * 2 ^ t ≤ 2 ^ 52 * 2 ^ t := mul_le_mul_of_nonneg_right leading power.le
        _ ≤ x := (le_div_iff₀ power).mp full
        _ ≤ y := above

/-- Half of the least place. -/
def underflow : ℚ := 1 / 2 ^ 1075

theorem underflow_pos : 0 < underflow := div_pos one_pos (pow_pos two_pos 1075)

/-- Half a place is little: relative to the number, or as half of the least place. -/
theorem Rounded.error (h : Rounded x n t) :
    |n * 2 ^ t - x| ≤ x / 2 ^ 53 ∨ |n * 2 ^ t - x| ≤ underflow := by
  have power : (0 : ℚ) < 2 ^ t := by positivity
  have near : |n * 2 ^ t - x| ≤ 2 ^ t / 2 := by
    have scaled : n * 2 ^ t - x = (n - x / 2 ^ t) * 2 ^ t := by field_simp
    rw [scaled, abs_mul, abs_of_pos power]
    linarith [mul_le_mul_of_nonneg_right h.near power.le]
  rcases h.full with least | full
  · refine .inr (near.trans_eq ?_)
    rw [least, underflow, zpow_neg, zpow_ofNat, one_div, pow_succ _ 1074, mul_inv, div_eq_mul_inv]
  · refine .inl (near.trans ?_)
    have full := (le_div_iff₀ power).mp full
    rw [le_div_iff₀ (by positivity)]
    linarith

end Nearest

section Shifts

variable {m : ℕ} {e : ℤ} {acc : Accuracy} {x : ℚ}

theorem stands_shiftToExponent {target : ℤ}
    (stands : Stands (x / 2 ^ e) (ExtendedMantissa.ofMantissaAndAccuracy m acc))
    (enough : e ≤ target) :
    Stands (x / 2 ^ target) (shiftToExponent m e acc target).1 := by
  have shifted := stands.shiftRight (target - e).toNat
  have split : (2 : ℚ) ^ target = 2 ^ e * 2 ^ (target - e).toNat := by
    rw [← zpow_natCast, ← zpow_add₀ two_ne_zero]
    congr 1
    omega
  rwa [div_div, ← split] at shifted

theorem lt_of_stands (stands : Stands (x / 2 ^ e) (ExtendedMantissa.ofMantissaAndAccuracy m acc)) :
    m * 2 ^ e ≤ x ∧ x < 2 ^ totalExponent m e := by
  have power : (0 : ℚ) < 2 ^ e := by positivity
  obtain ⟨lower, upper⟩ := stands.bounds
  rw [mantissa_ofMantissaAndAccuracy] at lower upper
  have digits : ((m + 1 : ℕ) : ℚ) ≤ (2 ^ (m.log2 + 1) : ℕ) := by
    exact_mod_cast Nat.lt_log2_self
  push_cast at digits
  refine ⟨(le_div_iff₀ power).mp lower, ?_⟩
  calc x < (m + 1) * 2 ^ e := (div_lt_iff₀ power).mp upper
    _ ≤ 2 ^ (m.log2 + 1) * 2 ^ e := mul_le_mul_of_nonneg_right digits power.le
    _ = 2 ^ totalExponent m e := by
      rw [totalExponent, ← zpow_natCast, ← zpow_add₀ two_ne_zero]
      push_cast
      rfl

theorem rounded_shiftToTargetExponent
    (stands : Stands (x / 2 ^ e) (ExtendedMantissa.ofMantissaAndAccuracy m acc))
    (enough : e ≤ Format.binary64.targetExponent (totalExponent m e)) :
    Rounded x (shiftToTargetExponent Format.binary64 m e acc).1.roundedMantissa
      (Format.binary64.targetExponent (totalExponent m e)) := by
  have shifted := stands_shiftToExponent stands enough
  obtain ⟨lower, upper⟩ := lt_of_stands stands
  obtain ⟨near, even⟩ := shifted.rounded
  refine ⟨?_, ?_, ?_, near, even⟩
  · rw [targetExponent_eq]
    exact le_max_right _ _
  · rw [targetExponent_eq] at enough ⊢
    by_cases least : max (totalExponent m e - 53) (-1074) = -1074
    · exact .inl least
    · have target : max (totalExponent m e - 53) (-1074) = totalExponent m e - 53 := by omega
      have positive : m ≠ 0 := by
        rintro rfl
        rw [target, totalExponent, Nat.log2_zero] at enough
        omega
      have leading : ((2 ^ m.log2 : ℕ) : ℚ) ≤ m := by exact_mod_cast Nat.log2_self_le positive
      push_cast at leading
      refine .inr ?_
      rw [target, le_div_iff₀ (by positivity)]
      calc (2 : ℚ) ^ 52 * 2 ^ (totalExponent m e - 53) = 2 ^ m.log2 * 2 ^ e := by
            rw [totalExponent, ← zpow_natCast, ← zpow_natCast, ← zpow_add₀ two_ne_zero,
              ← zpow_add₀ two_ne_zero]
            congr 1
            push_cast
            ring
        _ ≤ m * 2 ^ e := by gcongr
        _ ≤ x := lower
  · rw [div_lt_iff₀ (by positivity)]
    calc x < 2 ^ totalExponent m e := upper
      _ ≤ 2 ^ ((53 : ℕ) + Format.binary64.targetExponent (totalExponent m e)) := by
        refine zpow_le_zpow_right₀ one_le_two ?_
        rw [targetExponent_eq]
        push_cast
        omega
      _ = 2 ^ 53 * 2 ^ Format.binary64.targetExponent (totalExponent m e) := by
        rw [zpow_add₀ two_ne_zero, zpow_natCast]

/-- A mantissa that has been rounded is shifted once more only where it was carried to a power of
two. -/
theorem shiftToTargetExponent_rounded {n : ℕ} {t : ℤ} (h : Rounded x n t) :
    (n < 2 ^ 53 ∧ (shiftToTargetExponent Format.binary64 n t .exact).1.mantissa = n ∧
        (shiftToTargetExponent Format.binary64 n t .exact).2 = t) ∨
      (n = 2 ^ 53 ∧ (shiftToTargetExponent Format.binary64 n t .exact).1.mantissa = 2 ^ 52 ∧
        (shiftToTargetExponent Format.binary64 n t .exact).2 = t + 1) := by
  have least := h.least
  unfold shiftToTargetExponent
  rw [mantissa_shiftToExponent, exponent_shiftToExponent, targetExponent_eq, totalExponent]
  rcases h.digits.lt_or_eq with less | full
  · have digits : n.log2 < 53 := log2_lt_of_lt (by decide) less
    refine .inl ⟨less, ?_, by omega⟩
    have none : (max ((n.log2 : ℤ) + 1 + t - 53) (-1074) - t).toNat = 0 := by omega
    rw [none, pow_zero, Nat.div_one]
  · refine .inr ⟨full, ?_, ?_⟩
    · have one : (max ((n.log2 : ℤ) + 1 + t - 53) (-1074) - t).toNat = 1 := by
        rw [full, Nat.log2_two_pow]
        omega
      rw [one, full]
      rfl
    · rw [full, Nat.log2_two_pow]
      omega

/-- Rounding gives zero or a canonical number, which stands for the nearest number of places. -/
theorem roundWithAccuracy_cases (s : Sign)
    (stands : Stands (x / 2 ^ e) (ExtendedMantissa.ofMantissaAndAccuracy m acc))
    (enough : e ≤ Format.binary64.targetExponent (totalExponent m e)) :
    ∃ n t, Rounded x n t ∧
      ((n = 0 ∧ roundWithAccuracy Format.binary64 s m e acc = .zero s) ∨
        ∃ m' e' positive,
          roundWithAccuracy Format.binary64 s m e acc = .finite s m' e' positive ∧
            Canonical m' e' ∧ (m' : ℚ) * 2 ^ e' = n * 2 ^ t ∧
              ((n < 2 ^ 53 ∧ e' = t) ∨ (n = 2 ^ 53 ∧ e' = t + 1))) := by
  have rounded := rounded_shiftToTargetExponent stands enough
  have exponent : (shiftToTargetExponent Format.binary64 m e acc).2 =
      Format.binary64.targetExponent (totalExponent m e) := by
    unfold shiftToTargetExponent
    rw [exponent_shiftToExponent]
    omega
  refine ⟨_, _, rounded, ?_⟩
  unfold roundWithAccuracy
  dsimp only
  rw [exponent]
  generalize (shiftToTargetExponent Format.binary64 m e acc).1.roundedMantissa = n at rounded ⊢
  generalize Format.binary64.targetExponent (totalExponent m e) = t at rounded ⊢
  obtain ⟨less, mantissa, stays⟩ | ⟨carried, mantissa, raised⟩ :=
    shiftToTargetExponent_rounded rounded
  · by_cases none : n = 0
    · exact .inl ⟨none, dif_pos (mantissa.trans none)⟩
    · refine .inr ⟨_, _, Nat.pos_of_ne_zero (mantissa.trans_ne none),
        dif_neg (mantissa.trans_ne none), ?_, ?_, .inl ⟨less, stays⟩⟩
      · rw [mantissa, stays]
        exact ⟨less, rounded.least, rounded.leading⟩
      · rw [mantissa, stays]
  · have some : 2 ^ 52 ≠ 0 := by decide
    refine .inr ⟨_, _, Nat.pos_of_ne_zero (mantissa.trans_ne some),
      dif_neg (mantissa.trans_ne some), ?_, ?_, .inr ⟨carried, raised⟩⟩
    · have least := rounded.least
      rw [mantissa, raised]
      exact ⟨by decide, by omega, .inr le_rfl⟩
    · rw [mantissa, raised, carried, zpow_add_one₀ two_ne_zero]
      push_cast
      ring

end Shifts

end RuleConsensus.Binary
