import Mathlib.Data.Nat.Sqrt
import RuleConsensus.Proofs.Binary.Order
import RuleConsensus.Proofs.Binary.Rounding

set_option autoImplicit false
set_option relaxedAutoImplicit false

namespace RuleConsensus.Binary

open Float.Model Float.Model.UnpackedFloat

/-- A number that passes none of 53 digits on the way from the exact one, and is off by half of the
last digit at most. -/
structure Near (x r : ℚ) : Prop where
  below : ∀ y, Grid y → y ≤ x → y ≤ r
  above : ∀ y, Grid y → x ≤ y → r ≤ y
  error : |r - x| ≤ |x| / 2 ^ 53 ∨ |r - x| ≤ underflow

/-- The least number that is rounded to infinity, half a place beyond the largest finite one. -/
def overflow : ℚ := (2 ^ 54 - 1) * 2 ^ 970

inductive Rounds (x : ℚ) (z : Float) : Prop
  | finite (finite : z.isFinite = true) (small : |x| < overflow) (near : Near x (value z))
  | infinite (s : Sign) (unpacked : z.toModel.unpack = .infinity s)
      (large : overflow ≤ unit s * x)

variable {x y r : ℚ} {a b z : Float}

theorem overflow_pos : 0 < overflow := mul_pos (by norm_num) (by positivity)

theorem overflow_eq : overflow = (2 ^ 53 - 1 / 2) * 2 ^ 971 := by
  rw [overflow, pow_succ _ 970]
  -- The power is kept closed, as it is too large to be evaluated.
  generalize (2 : ℚ) ^ 970 = place
  ring

theorem lt_overflow : 3 / 2 * 2 ^ 1023 < overflow := by
  have power : (0 : ℚ) < 2 ^ 970 := by positivity
  rw [overflow, show 1023 = 53 + 970 from rfl, pow_add, ← mul_assoc]
  exact mul_lt_mul_of_pos_right (by norm_num) power

theorem underflow_mul_pow {k l : ℕ} (same : k + l = 1075) : underflow * 2 ^ k = 1 / 2 ^ l := by
  rw [underflow, ← same, pow_add, one_div, one_div, mul_inv, mul_comm _ (2 ^ k : ℚ), ← mul_assoc,
    mul_inv_cancel₀ (pow_ne_zero k two_ne_zero), one_mul]

theorem abs_unit_mul (s : Sign) (x : ℚ) : |unit s * x| = |x| := by
  cases s <;> simp [unit]

theorem Near.neg (h : Near x r) : Near (-x) (-r) where
  below y hy below := by
    have above := h.above (-y) hy.neg (by linarith)
    linarith
  above y hy above := by
    have below := h.below (-y) hy.neg (by linarith)
    linarith
  error := by
    rw [abs_neg, neg_sub_neg, abs_sub_comm]
    exact h.error

theorem Near.unit_mul (h : Near x r) (s : Sign) : Near (unit s * x) (unit s * r) := by
  cases s with
  | positive => simpa [unit] using h
  | negative => simpa [unit] using h.neg

theorem grid_zero : Grid 0 := ⟨0, 0, by norm_num, by norm_num, by norm_num⟩

theorem Packed.grid {u : UnpackedFloat} (h : Packed u) : Grid (valueOf u) := by
  cases h with
  | zero s => exact grid_zero
  | @finite s m e positive canonical small =>
    have digits : |(m : ℤ)| ≤ 2 ^ 53 := by
      rw [Nat.abs_cast]
      exact_mod_cast canonical.digits.le
    cases s with
    | positive => exact ⟨m, e, digits, canonical.least, by simp [valueOf, unit]⟩
    | negative => exact ⟨-m, e, by rwa [abs_neg], canonical.least, by simp [valueOf, unit]⟩

theorem grid_value (finite : a.isFinite = true) : Grid (value a) := (packed_unpack finite).grid

theorem Packed.abs_lt_overflow {u : UnpackedFloat} (h : Packed u) : |valueOf u| < overflow := by
  cases h with
  | zero s =>
    rw [valueOf_zero, abs_zero]
    exact overflow_pos
  | @finite s m e positive canonical small =>
    have last : ((m + 1 : ℕ) : ℚ) ≤ (2 ^ 53 : ℕ) := by exact_mod_cast canonical.digits
    push_cast at last
    have tight : (2 : ℚ) ^ e ≤ 2 ^ (971 : ℤ) := zpow_le_zpow_right₀ one_le_two small
    rw [zpow_ofNat] at tight
    have high : (0 : ℚ) ≤ m * 2 ^ e := by positivity
    rw [valueOf_finite, abs_unit_mul, abs_of_nonneg high, overflow_eq]
    calc (m : ℚ) * 2 ^ e ≤ (2 ^ 53 - 1) * 2 ^ 971 :=
          mul_le_mul (by linarith) tight (by positivity) (by norm_num)
      _ < (2 ^ 53 - 1 / 2) * 2 ^ 971 := mul_lt_mul_of_pos_right (by norm_num) (by positivity)

theorem abs_value_lt (finite : a.isFinite = true) : |value a| < overflow :=
  (packed_unpack finite).abs_lt_overflow

theorem near_self (x : ℚ) : Near x x :=
  ⟨fun _ _ h => h, fun _ _ h => h, .inl (by rw [sub_self, abs_zero]; positivity)⟩

theorem Packed.rounds {u : UnpackedFloat} (h : Packed u) :
    Rounds (valueOf u) (Float.ofModel (Float.Model.pack u)) := by
  refine .finite h.isFinite h.abs_lt_overflow ?_
  change Near _ (valueOf (Float.Model.pack u).unpack)
  rw [h.unpack_pack]
  exact near_self _

section Packing

variable {n m : ℕ} {t e : ℤ} {acc : Accuracy}

theorem Rounded.toNear (h : Rounded x n t) (positive : 0 ≤ x) : Near x (n * 2 ^ t) where
  below _ hy := (h.between hy).1
  above _ hy := (h.between hy).2
  error := by
    rw [abs_of_nonneg positive]
    exact h.error

theorem Rounded.lt_overflow (h : Rounded x n t) (small : t < 971 ∨ t = 971 ∧ n < 2 ^ 53) :
    x < overflow := by
  have power : (0 : ℚ) < 2 ^ t := by positivity
  have bounded := (div_lt_iff₀ power).mp h.bounded
  rcases small with small | ⟨rfl, less⟩
  · have tight : (2 : ℚ) ^ t ≤ 2 ^ (970 : ℤ) := zpow_le_zpow_right₀ one_le_two (by omega)
    rw [zpow_ofNat] at tight
    calc x < 2 ^ 53 * 2 ^ t := bounded
      _ ≤ 2 ^ 53 * 2 ^ 970 := by gcongr
      _ ≤ overflow := mul_le_mul_of_nonneg_right (by norm_num) (by positivity)
  · -- The last mantissa is odd, so half a place beyond it is not rounded to it.
    have last : (n : ℚ) ≤ 2 ^ 53 - 1 := by
      have less : ((n + 1 : ℕ) : ℚ) ≤ (2 ^ 53 : ℕ) := by exact_mod_cast less
      push_cast at less
      linarith
    have near := abs_le.mp h.near
    have strict : x / 2 ^ (971 : ℤ) ≠ 2 ^ 53 - 1 / 2 := by
      intro tie
      have exact : (n : ℚ) = 2 ^ 53 - 1 := by
        rw [tie] at near
        linarith [near.1]
      have even : Even n := h.even (by
        rw [exact, tie, show (2 ^ 53 - 1 - (2 ^ 53 - 1 / 2) : ℚ) = -(1 / 2) by ring, abs_neg,
          abs_of_pos one_half_pos])
      have exact : n = 2 ^ 53 - 1 := by
        have natural : (n : ℚ) = (2 ^ 53 - 1 : ℕ) := by
          rw [exact]
          norm_num
        exact_mod_cast natural
      rw [exact] at even
      exact absurd even (by decide)
    have below : x / 2 ^ (971 : ℤ) ≤ 2 ^ 53 - 1 / 2 := by linarith [near.1]
    have below := (div_lt_iff₀ power).mp (lt_of_le_of_ne below strict)
    rwa [zpow_ofNat, ← overflow_eq] at below

theorem Rounded.overflow_le (h : Rounded x n t) (large : 972 ≤ t ∨ t = 971 ∧ n = 2 ^ 53) :
    overflow ≤ x := by
  have power : (0 : ℚ) < 2 ^ t := by positivity
  rcases large with large | ⟨rfl, carried⟩
  · have full := (le_div_iff₀ power).mp (h.full.resolve_left (by omega))
    have tight : (2 : ℚ) ^ (972 : ℤ) ≤ 2 ^ t := zpow_le_zpow_right₀ one_le_two large
    rw [zpow_ofNat, pow_succ _ 971] at tight
    have first : (0 : ℚ) < 2 ^ 971 := by positivity
    rw [overflow_eq]
    generalize (2 : ℚ) ^ 971 = place at first tight ⊢
    linarith
  · have near := abs_le.mp h.near
    rw [carried, Nat.cast_pow, Nat.cast_ofNat] at near
    have above : 2 ^ 53 - 1 / 2 ≤ x / 2 ^ (971 : ℤ) := by linarith [near.2]
    have above := (le_div_iff₀ power).mp above
    rwa [zpow_ofNat, ← overflow_eq] at above

theorem rounds_roundWithAccuracy (s : Sign)
    (stands : Stands (x / 2 ^ e) (ExtendedMantissa.ofMantissaAndAccuracy m acc))
    (enough : e ≤ Format.binary64.targetExponent (totalExponent m e)) :
    Rounds (unit s * x)
      (Float.ofModel (Float.Model.pack (roundWithAccuracy Format.binary64 s m e acc))) := by
  obtain ⟨lower, _⟩ := lt_of_stands stands
  have power : (0 : ℚ) ≤ m * 2 ^ e := by positivity
  have positive : 0 ≤ x := power.trans lower
  obtain ⟨n, t, rounded, outcome⟩ := roundWithAccuracy_cases s stands enough
  have near := (rounded.toNear positive).unit_mul s
  rcases outcome with ⟨none, outcome⟩ | ⟨m', e', positive', outcome, canonical, same, places⟩
  · have small : x < overflow := by
      refine rounded.lt_overflow (.inl ?_)
      by_contra large
      have leading := rounded.leading.resolve_left (by omega)
      rw [none] at leading
      exact absurd leading (by decide)
    rw [outcome]
    refine .finite (isFinite_pack (.zero s)) ?_ ?_
    · rwa [abs_unit_mul, abs_of_nonneg positive]
    · change Near _ (valueOf (Float.Model.pack (.zero s)).unpack)
      rw [unpack_pack_zero]
      simpa [none, valueOf] using near
  · rw [outcome]
    by_cases small : e' ≤ 971
    · have below : x < overflow := rounded.lt_overflow (by omega)
      refine .finite (isFinite_pack (.finite s positive' small)) ?_ ?_
      · rwa [abs_unit_mul, abs_of_nonneg positive]
      · change Near _ (valueOf (Float.Model.pack (.finite s m' e' positive')).unpack)
        rw [unpack_pack positive' canonical small, valueOf, same]
        exact near
    · have above : overflow ≤ x := rounded.overflow_le (by omega)
      refine .infinite s (unpack_pack_large positive' (by omega)) ?_
      rw [← mul_assoc]
      cases s <;> simpa [unit] using above

end Packing

section Products

theorem unit_mul_unit (s t : Sign) : unit (s * t) = unit s * unit t := by
  cases s <;> cases t
  · exact (neg_one_mul (-1 : ℚ)).trans (neg_neg 1) |>.symm
  · exact (mul_one (-1 : ℚ)).symm
  · exact (one_mul (-1 : ℚ)).symm
  · exact (one_mul (1 : ℚ)).symm

theorem stands_exact (m : ℕ) (e : ℤ) :
    Stands ((m : ℚ) * 2 ^ e / 2 ^ e) (ExtendedMantissa.ofMantissaAndAccuracy m .exact) := by
  have power : (2 : ℚ) ^ e ≠ 0 := by positivity
  exact mul_div_cancel_right₀ _ power

theorem Canonical.mul_enough {m m' : ℕ} {e e' : ℤ} (h : Canonical m e) (h' : Canonical m' e')
    (positive : 0 < m) (positive' : 0 < m') :
    e + e' ≤ Format.binary64.targetExponent (totalExponent (m * m') (e + e')) := by
  have digits {k : ℕ} (full : 2 ^ 52 ≤ k) : 52 ≤ k.log2 :=
    (Nat.log2_two_pow (n := 52)).symm.trans_le (log2_le_log2 full)
  rw [targetExponent_eq, totalExponent]
  rcases h.full with rfl | full
  · rcases h'.full with rfl | full'
    · omega
    · have long := digits (full'.trans (Nat.le_mul_of_pos_left m' positive))
      omega
  · have long := digits (full.trans (Nat.le_mul_of_pos_right m positive'))
    omega

private theorem Packed.rounds_mul {u v : UnpackedFloat} (hu : Packed u) (hv : Packed v) :
    Rounds (valueOf u * valueOf v)
      (Float.ofModel (Float.Model.pack (UnpackedFloat.mul Format.binary64 u v))) := by
  cases hu with
  | zero s =>
    rw [valueOf_zero, zero_mul]
    cases hv with
    | zero t => exact (Packed.zero (s * t)).rounds
    | finite t => exact (Packed.zero (s * t)).rounds
  | @finite s m e positive canonical =>
    cases hv with
    | zero t =>
      rw [valueOf_zero, mul_zero]
      exact (Packed.zero (s * t)).rounds
    | @finite t m' e' positive' canonical' =>
      have rounds := rounds_roundWithAccuracy (s * t) (stands_exact (m * m') (e + e'))
        (canonical.mul_enough canonical' positive positive')
      have product : unit (s * t) * (((m * m' : ℕ) : ℚ) * 2 ^ (e + e')) =
          valueOf (.finite s m e positive) * valueOf (.finite t m' e' positive') := by
        rw [valueOf_finite, valueOf_finite, unit_mul_unit, zpow_add₀ two_ne_zero]
        push_cast
        ring
      rwa [product] at rounds

theorem rounds_mul (ha : a.isFinite = true) (hb : b.isFinite = true) :
    Rounds (value a * value b) (a * b) :=
  (packed_unpack ha).rounds_mul (packed_unpack hb)

end Products

section Sums

theorem log2_shiftLeft {m : ℕ} (positive : m ≠ 0) (k : ℕ) : (m <<< k).log2 = m.log2 + k := by
  induction k with
  | zero => rw [Nat.shiftLeft_zero, Nat.add_zero]
  | succ k ih =>
    have shifted : m <<< k ≠ 0 := by
      rw [Nat.shiftLeft_eq]
      exact Nat.mul_ne_zero positive (Nat.two_pow_pos k).ne'
    rw [Nat.shiftLeft_succ, Nat.mul_comm, Nat.log2_eq_log_two,
      Nat.log_mul_base one_lt_two shifted, ← Nat.log2_eq_log_two, ih, Nat.add_assoc]

theorem shiftLeft_mul {m k : ℕ} {e : ℤ} : ((m <<< k : ℕ) : ℚ) * 2 ^ (e - k) = m * 2 ^ e := by
  rw [Nat.shiftLeft_eq, zpow_sub₀ two_ne_zero, zpow_natCast]
  push_cast
  field_simp

theorem rounds_round (s : Sign) {m : ℕ} (positive : m ≠ 0) (e : ℤ) :
    Rounds (unit s * (m * 2 ^ e))
      (Float.ofModel (Float.Model.pack (UnpackedFloat.round Format.binary64 s m e))) := by
  unfold UnpackedFloat.round decreaseExponent
  dsimp only
  generalize hk : (e - Format.binary64.targetExponent (totalExponent m e)).toNat = k
  rw [← shiftLeft_mul (k := k)]
  refine rounds_roundWithAccuracy s (stands_exact _ _) ?_
  have level : totalExponent (m <<< k) (e - k) = totalExponent m e := by
    rw [totalExponent, totalExponent, log2_shiftLeft positive]
    push_cast
    ring
  rw [level]
  omega

theorem rounds_normalize (n : ℤ) (e : ℤ) (s : Sign) :
    Rounds (n * 2 ^ e)
      (Float.ofModel (Float.Model.pack (UnpackedFloat.normalize Format.binary64 n e s))) := by
  unfold UnpackedFloat.normalize
  rcases lt_trichotomy n 0 with negative | rfl | positive
  · rw [compare_lt_iff_lt.mpr negative]
    have rounds := rounds_round .negative (m := (-n).toNat) (by omega) e
    have same : (((-n).toNat : ℕ) : ℚ) = -n := by
      have whole : (((-n).toNat : ℕ) : ℤ) = -n := Int.toNat_of_nonneg (by omega)
      exact_mod_cast congrArg (Int.cast (R := ℚ)) whole
    rw [same, unit] at rounds
    simpa only [neg_mul, one_mul, neg_neg] using rounds
  · rw [compare_eq_iff_eq.mpr rfl]
    rw [Int.cast_zero, zero_mul]
    exact (Packed.zero s).rounds
  · rw [compare_gt_iff_gt.mpr positive]
    have rounds := rounds_round .positive (m := n.toNat) (by omega) e
    have same : ((n.toNat : ℕ) : ℚ) = n := by
      have whole : ((n.toNat : ℕ) : ℤ) = n := Int.toNat_of_nonneg positive.le
      exact_mod_cast congrArg (Int.cast (R := ℚ)) whole
    rw [same, unit] at rounds
    simpa only [one_mul] using rounds

theorem apply_cast (s : Sign) (n : ℕ) : ((s.apply n : ℤ) : ℚ) = unit s * n := by
  cases s <;> simp [Sign.apply, unit]

private theorem Packed.rounds_add {u v : UnpackedFloat} (hu : Packed u) (hv : Packed v) :
    Rounds (valueOf u + valueOf v)
      (Float.ofModel (Float.Model.pack (UnpackedFloat.add Format.binary64 u v))) := by
  cases hu with
  | zero s =>
    rw [valueOf_zero, zero_add]
    cases hv with
    | zero t =>
      change Rounds 0 (Float.ofModel (Float.Model.pack
        (if s == t then .zero s else .zero .positive)))
      split_ifs
      · exact (Packed.zero s).rounds
      · exact (Packed.zero .positive).rounds
    | finite t positive canonical small => exact (Packed.finite t positive canonical small).rounds
  | @finite s m e positive canonical small =>
    cases hv with
    | zero t =>
      rw [valueOf_zero, add_zero]
      exact (Packed.finite s positive canonical small).rounds
    | @finite t m' e' positive' =>
      have rounds := rounds_normalize
        (s.apply (m <<< (e - min e e').toNat) + t.apply (m' <<< (e' - min e e').toNat))
        (min e e') .positive
      have place : e - ((e - min e e').toNat : ℤ) = min e e' := by omega
      have place' : e' - ((e' - min e e').toNat : ℤ) = min e e' := by omega
      have level := shiftLeft_mul (m := m) (k := (e - min e e').toNat) (e := e)
      have level' := shiftLeft_mul (m := m') (k := (e' - min e e').toNat) (e := e')
      rw [place] at level
      rw [place'] at level'
      have sum : ((s.apply (m <<< (e - min e e').toNat) +
          t.apply (m' <<< (e' - min e e').toNat) : ℤ) : ℚ) * 2 ^ min e e' =
            valueOf (.finite s m e positive) + valueOf (.finite t m' e' positive') := by
        rw [valueOf_finite, valueOf_finite, Int.cast_add, apply_cast, apply_cast, add_mul, mul_assoc,
          mul_assoc, level, level']
      rwa [sum] at rounds

theorem rounds_add (ha : a.isFinite = true) (hb : b.isFinite = true) :
    Rounds (value a + value b) (a + b) :=
  (packed_unpack ha).rounds_add (packed_unpack hb)

theorem sub_eq_add_opposite (u v : UnpackedFloat) :
    UnpackedFloat.sub Format.binary64 u v = UnpackedFloat.add Format.binary64 u v.neg := by
  cases u with
  | finite s =>
    cases v with
    | finite t =>
      cases t
      · exact congrArg (UnpackedFloat.normalize _ · _ _) (Int.sub_neg _ _)
      · exact congrArg (UnpackedFloat.normalize _ · _ _) Int.sub_eq_add_neg
    | _ => rfl
  | _ => cases v <;> rfl

theorem rounds_sub (ha : a.isFinite = true) (hb : b.isFinite = true) :
    Rounds (value a - value b) (a - b) := by
  change Rounds _ (Float.ofModel (Float.Model.pack
    (UnpackedFloat.sub Format.binary64 a.toModel.unpack b.toModel.unpack)))
  obtain ⟨packed, negated⟩ := (packed_unpack hb).neg
  have rounds := (packed_unpack ha).rounds_add packed
  rwa [negated, ← sub_eq_add_opposite, ← sub_eq_add_neg] at rounds

end Sums

section Quotients

theorem unit_div_unit (s t : Sign) : unit (s / t) = unit s / unit t := by
  cases s <;> cases t
  · exact (div_self (neg_ne_zero.mpr one_ne_zero) : (-1 : ℚ) / -1 = 1).symm
  · exact (div_one (-1 : ℚ)).symm
  · exact (div_neg_eq_neg_div 1 (1 : ℚ)).trans (congrArg Neg.neg (div_one 1)) |>.symm
  · exact (div_one (1 : ℚ)).symm

theorem stands_quotient {m m' : ℕ} (positive : 0 < m') :
    Stands ((m : ℚ) / m') (ExtendedMantissa.ofMantissaAndAccuracy (m / m')
      (accuracyOfFraction (m % m') m')) := by
  have below : (0 : ℚ) < m' := by exact_mod_cast positive
  have divided : (m : ℚ) = (m' : ℚ) * (m / m' : ℕ) + (m % m' : ℕ) := by
    exact_mod_cast (Nat.div_add_mod m m').symm
  have less : ((m % m' : ℕ) : ℚ) < m' := by exact_mod_cast Nat.mod_lt m positive
  have quotient : (m : ℚ) / m' = (m / m' : ℕ) + ((m % m' : ℕ) : ℚ) / m' := by
    rw [divided]
    field_simp
  rw [quotient]
  generalize m / m' = q
  generalize hr : m % m' = r at less
  unfold accuracyOfFraction
  by_cases none : r = 0
  · rw [if_pos none, none]
    simp [ExtendedMantissa.ofMantissaAndAccuracy, Stands]
  · have some : (0 : ℚ) < r := by exact_mod_cast Nat.pos_of_ne_zero none
    have part : (0 : ℚ) < r / m' := div_pos some below
    rw [if_neg none]
    rcases lt_trichotomy (2 * r) m' with lower | half | upper
    · have lower' : (2 : ℚ) * r < m' := by exact_mod_cast lower
      rw [compare_lt_iff_lt.mpr lower]
      refine ⟨by linarith, ?_⟩
      have short : (r : ℚ) / m' < 1 / 2 := by
        rw [div_lt_div_iff₀ below two_pos]
        linarith
      linarith
    · have half' : (2 : ℚ) * r = m' := by exact_mod_cast half
      rw [compare_eq_iff_eq.mpr half]
      change (q : ℚ) + r / m' = q + 1 / 2
      rw [← half']
      field_simp
    · have upper' : (m' : ℚ) < 2 * r := by exact_mod_cast upper
      rw [compare_gt_iff_gt.mpr upper]
      constructor
      · have long : (1 / 2 : ℚ) < r / m' := by
          rw [div_lt_div_iff₀ two_pos below]
          linarith
        linarith
      · have short : (r : ℚ) / m' < 1 := (div_lt_one below).mpr less
        linarith

theorem divCore_enough {m m' : ℕ} (positive : 0 < m) (positive' : 0 < m') (e e' : ℤ) :
    (divCore Format.binary64 m e m' e').2.1 ≤ Format.binary64.targetExponent
      (totalExponent (divCore Format.binary64 m e m' e').1
        (divCore Format.binary64 m e m' e').2.1) := by
  unfold divCore
  dsimp only
  rw [targetExponent_eq, targetExponent_eq]
  generalize hp : min (e - e')
    (max (totalExponent m e - totalExponent m' e' - 53) (-1074)) = place
  generalize hk : (e - e' - place).toNat = k
  by_cases least : place ≤ -1074
  · omega
  · -- The quotient has at least as many digits as its operands differ by.
    have shifted : m.log2 + k ≤ ((m <<< k) / m').log2 + m'.log2 + 1 := by
      have lower : 2 ^ (m.log2 + k) ≤ m <<< k := by
        rw [Nat.shiftLeft_eq, Nat.pow_add]
        exact Nat.mul_le_mul_right _ (Nat.log2_self_le positive.ne')
      have upper : m <<< k < 2 ^ (((m <<< k) / m').log2 + 1) * 2 ^ (m'.log2 + 1) :=
        calc m <<< k < ((m <<< k) / m' + 1) * m' := by
              rw [Nat.mul_comm]
              exact Nat.lt_mul_div_succ _ positive'
          _ ≤ 2 ^ (((m <<< k) / m').log2 + 1) * 2 ^ (m'.log2 + 1) :=
            Nat.mul_le_mul Nat.lt_log2_self Nat.lt_log2_self.le
      rw [← Nat.pow_add] at upper
      have exponents := (Nat.pow_lt_pow_iff_right (by decide)).mp (lower.trans_lt upper)
      omega
    unfold totalExponent at *
    omega

private theorem Packed.rounds_div {u v : UnpackedFloat} (hu : Packed u) (hv : Packed v)
    (nonzero : valueOf v ≠ 0) :
    Rounds (valueOf u / valueOf v)
      (Float.ofModel (Float.Model.pack (UnpackedFloat.div Format.binary64 u v))) := by
  cases hv with
  | zero t => exact absurd rfl nonzero
  | @finite t m' e' positive' =>
    cases hu with
    | zero s =>
      rw [valueOf_zero, zero_div]
      exact (Packed.zero (s / t)).rounds
    | @finite s m e positive =>
      have enough := divCore_enough positive positive' e e'
      have stands : Stands ((m : ℚ) * 2 ^ e / (m' * 2 ^ e') /
          2 ^ (divCore Format.binary64 m e m' e').2.1)
          (ExtendedMantissa.ofMantissaAndAccuracy (divCore Format.binary64 m e m' e').1
            (divCore Format.binary64 m e m' e').2.2) := by
        unfold divCore
        dsimp only
        generalize hp : min (e - e') (Format.binary64.targetExponent
          (totalExponent m e - totalExponent m' e')) = place
        have stands := stands_quotient (m := m <<< (e - e' - place).toNat) positive'
        have same : ((m <<< (e - e' - place).toNat : ℕ) : ℚ) / m' =
            (m : ℚ) * 2 ^ e / (m' * 2 ^ e') / 2 ^ place := by
          have scale : (2 : ℚ) ^ (e - e' - place).toNat = 2 ^ e / 2 ^ e' / 2 ^ place := by
            rw [← zpow_natCast, ← zpow_sub₀ two_ne_zero, ← zpow_sub₀ two_ne_zero]
            congr 1
            omega
          rw [Nat.shiftLeft_eq]
          push_cast
          rw [scale]
          field_simp
        rwa [same] at stands
      have rounds := rounds_roundWithAccuracy (s / t) stands enough
      have quotient : unit (s / t) * ((m : ℚ) * 2 ^ e / (m' * 2 ^ e')) =
          valueOf (.finite s m e positive) / valueOf (.finite t m' e' positive') := by
        rw [valueOf_finite, valueOf_finite, unit_div_unit, div_mul_div_comm]
      rwa [quotient] at rounds

theorem rounds_div (ha : a.isFinite = true) (hb : b.isFinite = true) (nonzero : value b ≠ 0) :
    Rounds (value a / value b) (a / b) :=
  (packed_unpack ha).rounds_div (packed_unpack hb) nonzero

end Quotients

section Results

theorem le_infinity (ha : a.isFinite = true) (hz : z.toModel.unpack = .infinity .positive) :
    a ≤ z := by
  change decide ((a.toModel.unpack.compare z.toModel.unpack).any (·.isLE) = true) = true
  rw [hz]
  cases hu : a.toModel.unpack with
  | zero s => rfl
  | finite s m e positive => cases s <;> rfl
  | _ =>
    change a.toModel.unpack.isFinite = true at ha
    rw [hu] at ha
    cases ha

theorem infinity_le (ha : a.isFinite = true) (hz : z.toModel.unpack = .infinity .negative) :
    z ≤ a := by
  change decide ((z.toModel.unpack.compare a.toModel.unpack).any (·.isLE) = true) = true
  rw [hz]
  cases hu : a.toModel.unpack with
  | zero s => rfl
  | finite s m e positive => cases s <;> rfl
  | _ =>
    change a.toModel.unpack.isFinite = true at ha
    rw [hu] at ha
    cases ha

theorem Rounds.isFinite_iff (h : Rounds x z) : z.isFinite = true ↔ |x| < overflow := by
  cases h with
  | finite finite small near => exact iff_of_true finite small
  | infinite s unpacked large =>
    refine iff_of_false ?_ ?_
    · change ¬z.toModel.unpack.isFinite = true
      rw [unpacked]
      exact Bool.false_ne_true
    · rw [not_lt, ← abs_unit_mul s]
      exact large.trans (le_abs_self _)

theorem Rounds.isNaN (h : Rounds x z) : z.isNaN = false := by
  cases h with
  | finite finite small near => exact isNaN_of_isFinite finite
  | infinite s unpacked large =>
    change z.toModel.unpack.isNaN = false
    rw [unpacked]
    rfl

theorem Rounds.near (h : Rounds x z) (finite : z.isFinite = true) : Near x (value z) := by
  cases h with
  | finite finite small near => exact near
  | infinite s unpacked large =>
    change z.toModel.unpack.isFinite = true at finite
    rw [unpacked] at finite
    cases finite

theorem Rounds.le (h : Rounds x z) (ha : a.isFinite = true) (below : value a ≤ x) : a ≤ z := by
  cases h with
  | finite finite small near =>
    exact (le_iff_value ha finite).mpr (near.below _ (grid_value ha) below)
  | infinite s unpacked large =>
    cases s with
    | positive => exact le_infinity ha unpacked
    | negative =>
      have bounded := neg_lt_of_abs_lt (abs_value_lt ha)
      have large : overflow ≤ -1 * x := large
      linarith

theorem Rounds.ge (h : Rounds x z) (ha : a.isFinite = true) (above : x ≤ value a) : z ≤ a := by
  cases h with
  | finite finite small near =>
    exact (le_iff_value finite ha).mpr (near.above _ (grid_value ha) above)
  | infinite s unpacked large =>
    cases s with
    | positive =>
      have bounded := lt_of_abs_lt (abs_value_lt ha)
      have large : overflow ≤ 1 * x := large
      linarith
    | negative => exact infinity_le ha unpacked

theorem Rounds.abs_lt (h : Rounds x z) (finite : z.isFinite = true) : |x| < overflow :=
  h.isFinite_iff.mp finite

theorem Near.nonneg (h : Near x r) (positive : 0 ≤ x) : 0 ≤ r := h.below 0 grid_zero positive

theorem Near.nonpos (h : Near x r) (negative : x ≤ 0) : r ≤ 0 := h.above 0 grid_zero negative

theorem Near.abs_sub_le (h : Near x r) : |r - x| ≤ |x| / 2 ^ 53 + underflow := by
  have relative : 0 ≤ |x| / 2 ^ 53 := by positivity
  have least := underflow_pos
  rcases h.error with close | close <;> linarith

/-- A number of 53 digits below the overflow is not changed by rounding. -/
theorem Rounds.exact (h : Rounds x z) (grid : Grid x) (small : |x| < overflow) :
    z.isFinite = true ∧ value z = x := by
  have finite := h.isFinite_iff.mpr small
  have near := h.near finite
  exact ⟨finite, le_antisymm (near.above x grid le_rfl) (near.below x grid le_rfl)⟩

theorem underflow_mul_two : underflow * 2 = 2 ^ (-1074 : ℤ) := by
  rw [underflow, zpow_neg, zpow_ofNat, pow_succ _ 1074, one_div, mul_inv, mul_assoc,
    inv_mul_cancel₀ two_ne_zero, mul_one]

theorem Grid.exists_multiple (h : Grid y) : ∃ n : ℤ, y = n * (underflow * 2) := by
  obtain ⟨j, e, _, least, rfl⟩ := h
  refine ⟨j * 2 ^ (e + 1074).toNat, ?_⟩
  have split : (2 : ℚ) ^ e = 2 ^ (e + 1074).toNat * 2 ^ (-1074 : ℤ) := by
    rw [← zpow_natCast, ← zpow_add₀ two_ne_zero]
    congr 1
    omega
  rw [underflow_mul_two, split, Int.cast_mul, Int.cast_pow, Int.cast_ofNat, mul_assoc]

theorem value_sub_pos (finite : (a - b).isFinite = true) (ha : a.isFinite = true)
    (hb : b.isFinite = true) (less : value b < value a) : 0 < value (a - b) := by
  obtain ⟨n, hn⟩ := (grid_value ha).exists_multiple
  obtain ⟨n', hn'⟩ := (grid_value hb).exists_multiple
  have place : 0 < underflow * 2 := mul_pos underflow_pos two_pos
  have apart : n' < n := by
    rw [hn, hn'] at less
    exact_mod_cast lt_of_mul_lt_mul_right less place.le
  have step : underflow * 2 ≤ value a - value b := by
    have one : (1 : ℚ) ≤ n - n' := by exact_mod_cast (by omega : 1 ≤ n - n')
    calc underflow * 2 = 1 * (underflow * 2) := (one_mul _).symm
      _ ≤ (n - n') * (underflow * 2) := mul_le_mul_of_nonneg_right one place.le
      _ = value a - value b := by rw [hn, hn', sub_mul]
  have grid : Grid (underflow * 2) := by
    refine ⟨1, -1074, by norm_num, le_rfl, ?_⟩
    rw [underflow_mul_two, Int.cast_one, one_mul]
  exact place.trans_le (((rounds_sub ha hb).near finite).below _ grid step)

end Results

section Operands

theorem not_isFinite_pack {w : UnpackedFloat} (h : (∃ s, w = .infinity s) ∨ w = .notANumber) :
    (Float.ofModel (Float.Model.pack w)).isFinite = false := by
  rcases h with ⟨s, rfl⟩ | rfl
  · cases s <;> rfl
  · rfl

private theorem mul_of_not_isFinite {u v : UnpackedFloat}
    (none : u.isFinite = false ∨ v.isFinite = false) :
    (∃ s, UnpackedFloat.mul Format.binary64 u v = .infinity s) ∨
      UnpackedFloat.mul Format.binary64 u v = .notANumber := by
  cases u with
  | infinity s =>
    cases v with
    | infinity t => exact .inl ⟨s * t, rfl⟩
    | notANumber => exact .inr rfl
    | zero t => exact .inr rfl
    | finite t => exact .inl ⟨s * t, rfl⟩
  | notANumber => cases v <;> exact .inr rfl
  | zero s =>
    cases v with
    | infinity t => exact .inr rfl
    | notANumber => exact .inr rfl
    | zero t => simp [UnpackedFloat.isFinite] at none
    | finite t => simp [UnpackedFloat.isFinite] at none
  | finite s =>
    cases v with
    | infinity t => exact .inl ⟨s * t, rfl⟩
    | notANumber => exact .inr rfl
    | zero t => simp [UnpackedFloat.isFinite] at none
    | finite t => simp [UnpackedFloat.isFinite] at none

theorem isFinite_of_mul (finite : (a * b).isFinite = true) :
    a.isFinite = true ∧ b.isFinite = true := by
  by_contra none
  rw [not_and_or, Bool.not_eq_true, Bool.not_eq_true] at none
  have lost : (a * b).isFinite = false := not_isFinite_pack (mul_of_not_isFinite none)
  rw [finite] at lost
  cases lost

private theorem add_of_not_isFinite {u v : UnpackedFloat}
    (none : u.isFinite = false ∨ v.isFinite = false) :
    (∃ s, UnpackedFloat.add Format.binary64 u v = .infinity s) ∨
      UnpackedFloat.add Format.binary64 u v = .notANumber := by
  cases u with
  | infinity s =>
    cases v with
    | infinity t =>
      change (∃ r, (if s == t then .infinity s else .notANumber) = UnpackedFloat.infinity r) ∨
        (if s == t then .infinity s else .notANumber) = UnpackedFloat.notANumber
      split_ifs
      · exact .inl ⟨s, rfl⟩
      · exact .inr rfl
    | notANumber => exact .inr rfl
    | zero t => exact .inl ⟨s, rfl⟩
    | finite t => exact .inl ⟨s, rfl⟩
  | notANumber => cases v <;> exact .inr rfl
  | zero s =>
    cases v with
    | infinity t => exact .inl ⟨t, rfl⟩
    | notANumber => exact .inr rfl
    | zero t => simp [UnpackedFloat.isFinite] at none
    | finite t => simp [UnpackedFloat.isFinite] at none
  | finite s =>
    cases v with
    | infinity t => exact .inl ⟨t, rfl⟩
    | notANumber => exact .inr rfl
    | zero t => simp [UnpackedFloat.isFinite] at none
    | finite t => simp [UnpackedFloat.isFinite] at none

theorem isFinite_of_add (finite : (a + b).isFinite = true) :
    a.isFinite = true ∧ b.isFinite = true := by
  by_contra none
  rw [not_and_or, Bool.not_eq_true, Bool.not_eq_true] at none
  have lost : (a + b).isFinite = false := not_isFinite_pack (add_of_not_isFinite none)
  rw [finite] at lost
  cases lost

theorem isFinite_of_sub (finite : (a - b).isFinite = true) :
    a.isFinite = true ∧ b.isFinite = true := by
  have opposite : b.toModel.unpack.neg.isFinite = b.toModel.unpack.isFinite := by
    cases b.toModel.unpack <;> rfl
  by_contra none
  rw [not_and_or, Bool.not_eq_true, Bool.not_eq_true] at none
  have none : a.toModel.unpack.isFinite = false ∨ b.toModel.unpack.neg.isFinite = false := by
    rw [opposite]
    exact none
  have lost := not_isFinite_pack (add_of_not_isFinite none)
  rw [← sub_eq_add_opposite] at lost
  change (a - b).isFinite = false at lost
  rw [finite] at lost
  cases lost

private theorem div_of_not_isFinite {u v : UnpackedFloat} (none : u.isFinite = false)
    (hv : v.isFinite = true) :
    (∃ s, UnpackedFloat.div Format.binary64 u v = .infinity s) ∨
      UnpackedFloat.div Format.binary64 u v = .notANumber := by
  cases u with
  | zero s => cases none
  | finite s => cases none
  | notANumber => exact .inr rfl
  | infinity s =>
    cases v with
    | zero t => exact .inl ⟨s / t, rfl⟩
    | finite t => exact .inl ⟨s / t, rfl⟩
    | infinity t => cases hv
    | notANumber => cases hv

theorem isFinite_of_div (finite : (a / b).isFinite = true) (hb : b.isFinite = true) :
    a.isFinite = true := by
  by_contra none
  rw [Bool.not_eq_true] at none
  have lost : (a / b).isFinite = false := not_isFinite_pack (div_of_not_isFinite none hb)
  rw [finite] at lost
  cases lost

theorem div_infinity {s : Sign} (ha : a.isFinite = true) (hb : b.toModel.unpack = .infinity s) :
    (a / b).isFinite = true ∧ value (a / b) = 0 := by
  have none : ∃ t, (a / b).toModel.unpack = .zero t := by
    change ∃ t, (Float.Model.pack
      (UnpackedFloat.div Format.binary64 a.toModel.unpack b.toModel.unpack)).unpack = .zero t
    rw [hb]
    cases hu : a.toModel.unpack with
    | zero t => exact ⟨t / s, unpack_pack_zero _⟩
    | finite t => exact ⟨t / s, unpack_pack_zero _⟩
    | _ =>
      change a.toModel.unpack.isFinite = true at ha
      rw [hu] at ha
      cases ha
  obtain ⟨t, none⟩ := none
  constructor
  · change (a / b).toModel.unpack.isFinite = true
    rw [none]
    rfl
  · rw [value, none, valueOf_zero]

theorem infinity_add {s : Sign} (ha : a.toModel.unpack = .infinity s) (hb : b.isFinite = true) :
    (a + b).toModel.unpack = .infinity s := by
  change (Float.Model.pack
    (UnpackedFloat.add Format.binary64 a.toModel.unpack b.toModel.unpack)).unpack = _
  rw [ha]
  cases hv : b.toModel.unpack with
  | zero t => exact unpack_pack_infinity s
  | finite t => exact unpack_pack_infinity s
  | _ =>
    change b.toModel.unpack.isFinite = true at hb
    rw [hv] at hb
    cases hb

end Operands

section Signs

variable {c : Float}

theorem isFinite_zero : (0 : Float).isFinite = true := by decide +kernel

theorem value_zero : value 0 = 0 := rfl

theorem value_two : value Scalar.two = 2 := by
  have unpacked : (Scalar.two : Float).toModel.unpack = .finite .positive (2 ^ 52) (-51) (by decide) :=
    rfl
  rw [value, unpacked, valueOf_finite]
  norm_num [unit]

theorem value_nonneg {a : Float} (finite : a.isFinite = true) (sign : ¬a < 0) : 0 ≤ value a := by
  have defined := isNaN_of_isFinite finite
  have above := (not_lt_iff defined (isNaN_of_isFinite isFinite_zero)).mp sign
  exact (le_iff_value isFinite_zero finite).mp above

theorem value_pos {a : Float} (finite : a.isFinite = true) (sign : ¬a ≤ 0) : 0 < value a := by
  have defined := isNaN_of_isFinite finite
  have above := (not_le_iff defined (isNaN_of_isFinite isFinite_zero)).mp sign
  exact (lt_iff_value isFinite_zero finite).mp above

theorem value_double {w : Float} (finite : (Scalar.two * w).isFinite = true) :
    value (Scalar.two * w) = 2 * value w := by
  obtain ⟨htwo, hw⟩ := isFinite_of_mul finite
  have rounds := rounds_mul htwo hw
  rw [value_two] at rounds
  refine (rounds.exact ?_ (rounds.abs_lt finite)).2
  obtain ⟨j, e, digits, least, same⟩ := grid_value hw
  refine ⟨j, e + 1, digits, by omega, ?_⟩
  rw [same, zpow_add_one₀ two_ne_zero]
  ring

theorem value_square_nonneg (finite : (c * c).isFinite = true) : 0 ≤ value (c * c) := by
  have hc := (isFinite_of_mul finite).1
  exact ((rounds_mul hc hc).near finite).below 0 grid_zero (mul_self_nonneg _)

theorem value_le_add (finite : (a + b).isFinite = true) (positive : 0 ≤ value b) :
    value a ≤ value (a + b) := by
  obtain ⟨ha, hb⟩ := isFinite_of_add finite
  exact ((rounds_add ha hb).near finite).below _ (grid_value ha) (by linarith)

theorem value_le_add' (finite : (a + b).isFinite = true) (positive : 0 ≤ value a) :
    value b ≤ value (a + b) := by
  obtain ⟨ha, hb⟩ := isFinite_of_add finite
  exact ((rounds_add ha hb).near finite).below _ (grid_value hb) (by linarith)

theorem isFinite_of_foldl_add {addends : List Float} {start : Float}
    (finite : (addends.foldl (· + ·) start).isFinite = true) : start.isFinite = true := by
  induction addends generalizing start with
  | nil => exact finite
  | cons b addends ih => exact (isFinite_of_add (ih finite)).1

theorem le_foldl_add {addends : List Float} {start : Float}
    (finite : (addends.foldl (· + ·) start).isFinite = true)
    (nonneg : ∀ a ∈ addends, a.isFinite = true → 0 ≤ value a) (hstart : 0 ≤ value start) :
    start.isFinite = true ∧ value start ≤ value (addends.foldl (· + ·) start) ∧
      ∀ a ∈ addends, a.isFinite = true ∧ value a ≤ value (addends.foldl (· + ·) start) := by
  induction addends generalizing start with
  | nil => exact ⟨finite, le_rfl, fun a ha => nomatch ha⟩
  | cons b addends ih =>
    have partialSum : (start + b).isFinite = true := isFinite_of_foldl_add finite
    obtain ⟨hs, hb⟩ := isFinite_of_add partialSum
    have hb0 := nonneg b List.mem_cons_self hb
    have grown := value_le_add partialSum hb0
    have addend := value_le_add' partialSum hstart
    obtain ⟨_, below, parts⟩ := ih finite (fun a ha => nonneg a (List.mem_cons_of_mem b ha))
      (hstart.trans grown)
    refine ⟨hs, grown.trans below, ?_⟩
    rintro a (_ | ⟨_, ha⟩)
    · exact ⟨hb, addend.trans below⟩
    · exact parts a ha

end Signs

section Roots

theorem exists_stands_sqrt {m : ℕ} {y : ℚ} (square : y ^ 2 ≤ m) :
    ∃ q, y ≤ q ∧ Stands q (ExtendedMantissa.ofMantissaAndAccuracy m.sqrt
      (if m - m.sqrt * m.sqrt = 0 then .exact
        else .inexact (if m - m.sqrt * m.sqrt ≤ m.sqrt then .lt else .gt))) := by
  have lower : m.sqrt * m.sqrt ≤ m := Nat.sqrt_le m
  have upper : m < (m.sqrt + 1) * (m.sqrt + 1) := Nat.lt_succ_sqrt m
  generalize m.sqrt = k at lower upper ⊢
  have root : (0 : ℚ) ≤ k := Nat.cast_nonneg k
  -- What lies below the root of a number lies below anything with a larger square.
  have below {t : ℚ} (ht : 0 ≤ t) (above : (m : ℚ) < t ^ 2) : y < t :=
    lt_of_pow_lt_pow_left₀ 2 ht (square.trans_lt above)
  by_cases whole : m - k * k = 0
  · have same : (m : ℚ) = k ^ 2 := by
      rw [sq]
      exact_mod_cast (by omega : m = k * k)
    rw [if_pos whole]
    refine ⟨k, ?_, rfl⟩
    exact le_of_sq_le_sq (square.trans_eq same) root
  · rw [if_neg whole]
    by_cases short : m - k * k ≤ k
    · have room : (m : ℚ) ≤ k * k + k := by exact_mod_cast (by omega : m ≤ k * k + k)
      have half : y < k + 1 / 2 := below (by positivity) (by linarith)
      rw [if_pos short]
      refine ⟨max y (k + 1 / 4), le_max_left _ _, ?_, ?_⟩
      · exact lt_max_of_lt_right (by linarith)
      · exact max_lt half (by linarith)
    · have room : (m : ℚ) < (k + 1) * (k + 1) := by exact_mod_cast upper
      have whole : y < k + 1 := below (by positivity) (by linarith)
      rw [if_neg short]
      refine ⟨max y (k + 3 / 4), le_max_left _ _, ?_, ?_⟩
      · exact lt_max_of_lt_right (by linarith)
      · exact max_lt whole (by linarith)

theorem sqrtCore_enough {m : ℕ} (positive : 0 < m) (e : ℤ) :
    (sqrtCore Format.binary64 m e).2.1 ≤ Format.binary64.targetExponent
      (totalExponent (sqrtCore Format.binary64 m e).1 (sqrtCore Format.binary64 m e).2.1) := by
  unfold sqrtCore
  dsimp only
  rw [targetExponent_eq, targetExponent_eq, totalExponent]
  generalize hp : min (e.ediv 2) (max (((m.log2 : ℤ) + 1 + e + 1).ediv 2 - 53) (-1074)) = place
  generalize hk : (e - 2 * place).toNat = k
  by_cases least : place ≤ -1074
  · omega
  · -- The number under the root has twice as many digits as are needed.
    have digits : 104 ≤ m.log2 + k := by
      change min (e / 2) (max (((m.log2 : ℤ) + 1 + e + 1) / 2 - 53) (-1074)) = place at hp
      omega
    have shifted : 2 ^ 52 * 2 ^ 52 ≤ m <<< k := by
      rw [← Nat.pow_add]
      calc 2 ^ (52 + 52) ≤ 2 ^ (m.log2 + k) := Nat.pow_le_pow_right (by decide) digits
        _ ≤ m <<< k := by
          rw [Nat.shiftLeft_eq, Nat.pow_add]
          exact Nat.mul_le_mul_right _ (Nat.log2_self_le positive.ne')
    have leading := log2_le_log2 (Nat.le_sqrt.mpr shifted)
    rw [Nat.log2_two_pow] at leading
    unfold totalExponent
    omega

private theorem Packed.le_sqrt {u : UnpackedFloat} (hu : Packed u) (ha : a.isFinite = true)
    (square : value a ^ 2 ≤ valueOf u) :
    a ≤ Float.ofModel (Float.Model.pack (UnpackedFloat.sqrt Format.binary64 u)) := by
  cases hu with
  | zero s =>
    rw [valueOf_zero] at square
    refine (Packed.zero s).rounds.le ha ?_
    rw [valueOf_zero, pow_eq_zero_iff two_ne_zero |>.mp (square.antisymm (sq_nonneg _))]
  | @finite s m e some canonical small =>
    cases s with
    | negative =>
      have above : (0 : ℚ) < m * 2 ^ e := by positivity
      rw [valueOf_finite, unit] at square
      linarith [sq_nonneg (value a)]
    | positive =>
      have enough := sqrtCore_enough some e
      rw [valueOf_finite, unit, one_mul] at square
      unfold UnpackedFloat.sqrt
      unfold sqrtCore at enough ⊢
      dsimp only at enough ⊢
      generalize hp : min (e.ediv 2)
        (Format.binary64.targetExponent ((totalExponent m e + 1).ediv 2)) = place at enough ⊢
      have power : (0 : ℚ) < 2 ^ place := by positivity
      have scale : ((m <<< (e - 2 * place).toNat : ℕ) : ℚ) * (2 ^ place) ^ 2 = m * 2 ^ e := by
        rw [← zpow_natCast (2 ^ place : ℚ), ← zpow_mul, ← shiftLeft_mul (m := m) (e := e)
          (k := (e - 2 * place).toNat)]
        congr 2
        change min (e / 2) _ = place at hp
        push_cast
        omega
      obtain ⟨q, below, stands⟩ := exists_stands_sqrt
        (m := m <<< (e - 2 * place).toNat) (y := value a / 2 ^ place) (by
          rw [div_pow, div_le_iff₀ (by positivity), scale]
          exact square)
      have placed : q = q * 2 ^ place / 2 ^ place := (mul_div_cancel_right₀ q power.ne').symm
      rw [placed] at stands
      have rounds := rounds_roundWithAccuracy .positive stands enough
      rw [unit, one_mul] at rounds
      exact rounds.le ha ((div_le_iff₀ power).mp below)

theorem le_sqrt (ha : a.isFinite = true) (hb : b.isFinite = true)
    (square : value a ^ 2 ≤ value b) : a ≤ b.sqrt :=
  (packed_unpack hb).le_sqrt ha square

/-- Only a finite number has a root below a finite one, and its square is not below the number. -/
theorem lt_sq_of_sqrt_lt (ha : a.isFinite = true) (less : b.sqrt < a) :
    b.isFinite = true ∧ value b < value a ^ 2 := by
  have defined := (defined_of_le (le_of_lt less)).1
  have notAbove : ¬a ≤ b.sqrt := (not_le_iff (isNaN_of_isFinite ha) defined).mpr less
  have finite : b.isFinite = true := by
    change b.toModel.unpack.isFinite = true
    change (Float.Model.pack
      (UnpackedFloat.sqrt Format.binary64 b.toModel.unpack)).unpack.isNaN = false at defined
    cases hu : b.toModel.unpack with
    | zero s => rfl
    | finite s => rfl
    | notANumber =>
      rw [hu] at defined
      cases defined
    | infinity s =>
      cases s with
      | negative =>
        rw [hu] at defined
        cases defined
      | positive =>
        refine absurd (le_infinity ha ?_) notAbove
        change (Float.Model.pack
          (UnpackedFloat.sqrt Format.binary64 b.toModel.unpack)).unpack = .infinity .positive
        rw [hu]
        exact unpack_pack_infinity .positive
  exact ⟨finite, not_le.mp fun square => notAbove (le_sqrt ha finite square)⟩

end Roots

end RuleConsensus.Binary
