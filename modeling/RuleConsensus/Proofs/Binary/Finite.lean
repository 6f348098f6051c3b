import Mathlib
import RuleConsensus.Decimal.Reading

set_option autoImplicit false
set_option relaxedAutoImplicit false

namespace RuleConsensus.Binary

open Float.Model Float.Model.UnpackedFloat

section Packing

/-- A zero, or a finite number with an exponent that can be packed. -/
inductive Storable : UnpackedFloat → Prop
  | zero (s : Sign) : Storable (.zero s)
  | finite (s : Sign) {m : ℕ} {e : Int} (positive : 0 < m) (small : e ≤ 971) :
      Storable (.finite s m e positive)

theorem isFinite_unpack_iff (b : BitVec Format.binary64.numBits) :
    (UnpackedFloat.unpack Format.binary64 b).isFinite = true ↔
      @unpackExponent Format.binary64 b ≠ -1#_ := by
  unfold UnpackedFloat.unpack
  dsimp only
  split
  · split <;> simp_all [UnpackedFloat.isFinite]
  · split
    · split <;> simp_all [UnpackedFloat.isFinite]
    · simp_all [UnpackedFloat.isFinite]

theorem isFinite_pack {u : UnpackedFloat} (storable : Storable u) :
    (Float.ofModel (Float.Model.pack u)).isFinite = true := by
  change (UnpackedFloat.unpack Format.binary64
    (UnpackedFloat.pack Format.binary64 u)).isFinite = true
  rw [isFinite_unpack_iff]
  cases storable with
  | zero s => simp [UnpackedFloat.pack, packedZero]
  | @finite s m e positive small =>
    have within : (e + (1023 : ℕ) + (52 : ℕ)).toNat + 1 < 2 ^ 11 := by omega
    unfold UnpackedFloat.pack
    dsimp only
    split
    case isTrue overflow => exact absurd within (Nat.not_lt.mpr overflow)
    case isFalse =>
      split
      case isTrue =>
        rw [unpackExponent_packComponents]
        intro full
        have full : (e + (1023 : ℕ) + (52 : ℕ)).toNat % 2 ^ 11 = 2 ^ 11 - 1 :=
          congrArg BitVec.toNat full
        omega
      case isFalse =>
        rw [unpackExponent_packComponents]
        decide

theorem log2_lt_of_lt {m n : ℕ} (hn : n ≠ 0) (hm : m < 2 ^ n) : m.log2 < n := by
  by_cases zero : m = 0
  · rw [zero, Nat.log2_zero]
    omega
  · exact (Nat.log2_lt zero).mpr hm

/-- Mantissa and exponent of a binary64: of 53 digits, or of fewer at the least exponent. -/
structure Canonical (m : ℕ) (e : ℤ) : Prop where
  digits : m < 2 ^ 53
  least : -1074 ≤ e
  full : e = -1074 ∨ 2 ^ 52 ≤ m

theorem canonical_unpack {x : Float} {s : Sign} {m : ℕ} {e : Int} {positive : 0 < m}
    (h : x.toModel.unpack = .finite s m e positive) : Canonical m e ∧ e ≤ 971 := by
  unfold Float.Model.unpack UnpackedFloat.unpack at h
  dsimp only at h
  split at h
  case isTrue => split at h <;> cases h
  case isFalse unfilled =>
    split at h
    case isTrue zero =>
      split at h
      case isTrue => cases h
      case isFalse =>
        cases h
        have digits : _ < 2 ^ 52 :=
          (@unpackMantissa Format.binary64 x.toModel.toBits.toBitVec).isLt
        rw [zero]
        exact ⟨⟨digits.trans (by decide), by decide, .inl rfl⟩, by decide⟩
    case isFalse nonzero =>
      cases h
      have digits : _ < 2 ^ 53 :=
        (1#1 ++ @unpackMantissa Format.binary64 x.toModel.toBits.toBitVec).isLt
      have leading : 2 ^ 52 ≤
          (1#1 ++ @unpackMantissa Format.binary64 x.toModel.toBits.toBitVec).toNat := by
        rw [BitVec.toNat_append]
        exact Nat.left_le_or
      have least : (@unpackExponent Format.binary64 x.toModel.toBits.toBitVec).toNat ≠ 0 :=
        fun none => nonzero (BitVec.eq_of_toNat_eq none)
      have greatest : (@unpackExponent Format.binary64 x.toModel.toBits.toBitVec).toNat ≠
          2 ^ 11 - 1 := fun full => unfilled (BitVec.eq_of_toNat_eq full)
      have biased : _ < 2 ^ 11 := (@unpackExponent Format.binary64 x.toModel.toBits.toBitVec).isLt
      refine ⟨⟨digits, ?_, .inr leading⟩, ?_⟩
      · change -1074 ≤ (_ - (1023 + 52 : Int))
        omega
      · change (_ - (1023 + 52 : Int)) ≤ 971
        omega

theorem totalExponent_le_of_unpack {x : Float} {s : Sign} {m : ℕ} {e : Int} {positive : 0 < m}
    (h : x.toModel.unpack = .finite s m e positive) : totalExponent m e ≤ 1024 := by
  obtain ⟨canonical, small⟩ := canonical_unpack h
  have digits : m.log2 < 53 := log2_lt_of_lt (by decide) canonical.digits
  unfold totalExponent
  omega

theorem storable_unpack {x : Float} (finite : x.isFinite = true) : Storable x.toModel.unpack := by
  change x.toModel.unpack.isFinite = true at finite
  cases hx : x.toModel.unpack with
  | zero s => exact .zero s
  | infinity s =>
    rw [hx] at finite
    cases finite
  | notANumber =>
    rw [hx] at finite
    cases finite
  | finite s m e positive => exact .finite s positive (canonical_unpack hx).2

theorem Storable.neg {u : UnpackedFloat} (storable : Storable u) : Storable u.neg := by
  cases storable with
  | zero s => exact .zero (-s)
  | finite s positive small => exact .finite (-s) positive small

theorem isFinite_neg {x : Float} (finite : x.isFinite = true) : (-x).isFinite = true := by
  change (Float.ofModel (Float.Model.pack x.toModel.unpack.neg)).isFinite = true
  exact isFinite_pack (storable_unpack finite).neg

end Packing

section Rounding

theorem mantissa_shiftRight (m : ExtendedMantissa) (n : ℕ) :
    (m >>> n).mantissa = m.mantissa / 2 ^ n := by
  change (n.repeat ExtendedMantissa.shiftRightOne m).mantissa = m.mantissa / 2 ^ n
  induction n with
  | zero => simp [Nat.repeat]
  | succ n ih =>
    change (n.repeat ExtendedMantissa.shiftRightOne m).mantissa / 2 = m.mantissa / 2 ^ (n + 1)
    rw [ih, Nat.div_div_eq_div_mul, Nat.pow_succ]

theorem mantissa_ofMantissaAndAccuracy (m : ℕ) (accuracy : Accuracy) :
    (ExtendedMantissa.ofMantissaAndAccuracy m accuracy).mantissa = m := by
  obtain _ | _ | _ | _ := accuracy <;> rfl

theorem roundedMantissa_bounds (m : ExtendedMantissa) :
    m.mantissa ≤ m.roundedMantissa ∧ m.roundedMantissa ≤ m.mantissa + 1 := by
  obtain ⟨m, half, rest⟩ := m
  cases half <;> cases rest <;>
    simp only [ExtendedMantissa.roundedMantissa, ExtendedMantissa.accuracy,
      Accuracy.roundToNearestEven] <;> omega

theorem mantissa_shiftToExponent (m : ℕ) (e : Int) (accuracy : Accuracy) (target : Int) :
    (shiftToExponent m e accuracy target).1.mantissa = m / 2 ^ (target - e).toNat := by
  unfold shiftToExponent
  rw [mantissa_shiftRight, mantissa_ofMantissaAndAccuracy]

theorem log2_div_pow (m k : ℕ) : (m / 2 ^ k).log2 = m.log2 - k := by
  rw [Nat.log2_eq_log_two, Nat.log2_eq_log_two, Nat.log_div_base_pow]

theorem log2_le_log2 {m n : ℕ} (h : m ≤ n) : m.log2 ≤ n.log2 := by
  rw [Nat.log2_eq_log_two, Nat.log2_eq_log_two]
  exact Nat.log_mono_right h

theorem log2_succ_le (m : ℕ) : (m + 1).log2 ≤ m.log2 + 1 :=
  calc (m + 1).log2 ≤ (2 ^ (m.log2 + 1)).log2 := log2_le_log2 Nat.lt_log2_self
    _ = m.log2 + 1 := Nat.log2_two_pow

theorem log2_rounded_bounds (m : ℕ) (e : Int) (accuracy : Accuracy) (target : Int) :
    m.log2 - (target - e).toNat ≤ (shiftToExponent m e accuracy target).1.roundedMantissa.log2 ∧
      (shiftToExponent m e accuracy target).1.roundedMantissa.log2 ≤
        m.log2 - (target - e).toNat + 1 := by
  obtain ⟨lower, upper⟩ := roundedMantissa_bounds (shiftToExponent m e accuracy target).1
  rw [mantissa_shiftToExponent] at lower upper
  rw [← log2_div_pow]
  exact ⟨log2_le_log2 lower, (log2_le_log2 upper).trans (log2_succ_le _)⟩

theorem targetExponent_eq (n : Int) :
    Format.binary64.targetExponent n = max (n - 53) (-1074) := rfl

theorem exponent_shiftToExponent (m : ℕ) (e : Int) (accuracy : Accuracy) (target : Int) :
    (shiftToExponent m e accuracy target).2 = max e target := by
  unfold shiftToExponent
  dsimp only
  omega

/-- Below half of the range, a number can be packed once it is rounded. -/
theorem storable_roundWithAccuracy (s : Sign) {m : ℕ} {e : Int} (accuracy : Accuracy)
    (he : e ≤ 971) (hm : totalExponent m e ≤ 1023) :
    Storable (roundWithAccuracy Format.binary64 s m e accuracy) := by
  unfold roundWithAccuracy shiftToTargetExponent
  dsimp only
  split
  case isTrue => exact .zero s
  case isFalse nonzero =>
    have digits := (log2_rounded_bounds m e accuracy
      (Format.binary64.targetExponent (totalExponent m e))).2
    refine .finite s (Nat.pos_of_ne_zero nonzero) ?_
    simp only [exponent_shiftToExponent, targetExponent_eq, totalExponent] at *
    omega

/-- Of 53 digits or more, exactly 53 are left, if the least exponent allows for them. -/
theorem exists_roundWithAccuracy_eq (s : Sign) {m : ℕ} {e : Int} (accuracy : Accuracy)
    (full : 52 ≤ m.log2) (large : 2 ≤ totalExponent m e) :
    ∃ n e' positive, roundWithAccuracy Format.binary64 s m e accuracy = .finite s n e' positive ∧
      n.log2 = 52 ∧ -51 ≤ e' := by
  have digits := log2_rounded_bounds m e accuracy
    (Format.binary64.targetExponent (totalExponent m e))
  unfold roundWithAccuracy shiftToTargetExponent
  dsimp only
  split
  case isTrue zero =>
    have lost := congrArg Nat.log2 zero
    rw [mantissa_shiftToExponent, log2_div_pow] at lost
    simp only [exponent_shiftToExponent, targetExponent_eq, totalExponent, Nat.log2_zero] at *
    omega
  case isFalse nonzero =>
    refine ⟨_, _, Nat.pos_of_ne_zero nonzero, rfl, ?_, ?_⟩
    · rw [mantissa_shiftToExponent, log2_div_pow]
      simp only [exponent_shiftToExponent, targetExponent_eq, totalExponent] at *
      omega
    · simp only [exponent_shiftToExponent, targetExponent_eq, totalExponent] at *
      omega

end Rounding

section Operations

/-- Infinity, or a number whose leading digit stands for two or more. -/
inductive AtLeastTwo : UnpackedFloat → Prop
  | infinity (s : Sign) : AtLeastTwo (.infinity s)
  | finite (s : Sign) {m : ℕ} {e : Int} (positive : 0 < m) (large : 2 ≤ totalExponent m e) :
      AtLeastTwo (.finite s m e positive)

theorem atLeastTwo_unpack {b : BitVec Format.binary64.numBits}
    (large : 1024 ≤ (@unpackExponent Format.binary64 b).toNat)
    (defined : @unpackExponent Format.binary64 b = -1#_ → @unpackMantissa Format.binary64 b = 0#_) :
    AtLeastTwo (UnpackedFloat.unpack Format.binary64 b) := by
  unfold UnpackedFloat.unpack
  dsimp only
  split
  case isTrue infinite =>
    rw [if_pos (defined infinite)]
    exact .infinity _
  case isFalse =>
    split
    case isTrue zero =>
      rw [zero] at large
      exact absurd large (by decide)
    case isFalse =>
      have leading : 2 ^ 52 ≤ (1#1 ++ @unpackMantissa Format.binary64 b).toNat := by
        rw [BitVec.toNat_append]
        exact Nat.left_le_or
      have digits : 52 ≤ (1#1 ++ @unpackMantissa Format.binary64 b).toNat.log2 :=
        (Nat.log2_two_pow (n := 52)).symm.trans_le (log2_le_log2 leading)
      refine .finite _ _ ?_
      change 2 ≤ (_ + 1 + (_ - (1023 + 52)) : Int)
      omega

theorem atLeastTwo_unpack_pack (s : Sign) {m : ℕ} {e : Int} (positive : 0 < m)
    (full : m.log2 = 52) (he : -51 ≤ e) :
    AtLeastTwo (Float.Model.pack (.finite s m e positive)).unpack := by
  change AtLeastTwo (UnpackedFloat.unpack Format.binary64
    (UnpackedFloat.pack Format.binary64 (.finite s m e positive)))
  unfold UnpackedFloat.pack
  dsimp only
  split
  case isTrue =>
    refine atLeastTwo_unpack ?_ fun _ => ?_
    · rw [packedInfinity, unpackExponent_packComponents]
      decide
    · rw [packedInfinity, unpackMantissa_packComponents]
      rfl
  case isFalse within =>
    have within : ¬2 ^ 11 ≤ (e + (1023 : ℕ) + (52 : ℕ)).toNat + 1 := within
    have digits : m.log2 + 1 = Format.binary64.mantissaBits := by
      rw [full]
      rfl
    rw [if_pos digits]
    refine atLeastTwo_unpack ?_ fun filled => ?_
    · rw [unpackExponent_packComponents]
      change 1024 ≤ (e + (1023 : ℕ) + (52 : ℕ)).toNat % 2 ^ 11
      omega
    · rw [unpackExponent_packComponents] at filled
      have filled : (e + (1023 : ℕ) + (52 : ℕ)).toNat % 2 ^ 11 = 2 ^ 11 - 1 :=
        congrArg BitVec.toNat filled
      omega

theorem totalExponent_divCore_le {m m' : ℕ} {e e' : Int} (hm : totalExponent m e ≤ 1024)
    (hm' : 2 ≤ totalExponent m' e') (positive : 0 < m') :
    (divCore Format.binary64 m e m' e').2.1 ≤ 971 ∧
      totalExponent (divCore Format.binary64 m e m' e').1
        (divCore Format.binary64 m e m' e').2.1 ≤ 1023 := by
  unfold divCore
  dsimp only
  rw [targetExponent_eq]
  generalize hn : (e - e' - min (e - e')
    (max (totalExponent m e - totalExponent m' e' - 53) (-1074))).toNat = n
  have digits : ((m <<< n) / m').log2 ≤ m.log2 + n - m'.log2 := by
    refine Nat.le_of_lt_succ (log2_lt_of_lt (Nat.succ_ne_zero _) (Nat.div_lt_of_lt_mul ?_))
    calc m <<< n = m * 2 ^ n := Nat.shiftLeft_eq m n
      _ < 2 ^ (m.log2 + 1) * 2 ^ n :=
        Nat.mul_lt_mul_of_pos_right Nat.lt_log2_self (Nat.two_pow_pos n)
      _ = 2 ^ (m.log2 + 1 + n) := (Nat.pow_add ..).symm
      _ ≤ 2 ^ (m'.log2 + (m.log2 + n - m'.log2 + 1)) :=
        Nat.pow_le_pow_right (by decide) (by omega)
      _ = 2 ^ m'.log2 * 2 ^ (m.log2 + n - m'.log2 + 1) := Nat.pow_add ..
      _ ≤ m' * 2 ^ (m.log2 + n - m'.log2 + 1) :=
        Nat.mul_le_mul_right _ (Nat.log2_self_le (Nat.ne_of_gt positive))
  unfold totalExponent at *
  omega

theorem storable_div {u v : UnpackedFloat} (hu : Storable u)
    (bounded : ∀ s m e positive, u = .finite s m e positive → totalExponent m e ≤ 1024)
    (hv : AtLeastTwo v) : Storable (UnpackedFloat.div Format.binary64 u v) := by
  cases hu with
  | zero s => cases hv <;> exact .zero _
  | @finite s m e positive small =>
    cases hv with
    | infinity s' => exact .zero _
    | finite s' positive' large =>
      obtain ⟨he, hm⟩ := totalExponent_divCore_le (bounded s m e positive rfl) large positive'
      exact storable_roundWithAccuracy _ _ he hm

theorem isFinite_div {x y : Float} (hx : x.isFinite = true)
    (hy : AtLeastTwo y.toModel.unpack) : (x / y).isFinite = true := by
  change (Float.ofModel (Float.Model.pack
    (UnpackedFloat.div Format.binary64 x.toModel.unpack y.toModel.unpack))).isFinite = true
  exact isFinite_pack (storable_div (storable_unpack hx)
    (fun _ _ _ _ h => totalExponent_le_of_unpack h) hy)

/-- The product that a whole number with a power of ten is rounded from. -/
theorem ofScientific_eq {m e : ℕ} (hm : m ≠ 0) (he : e ≤ 308) :
    UnpackedFloat.ofScientific Format.binary64 m e =
      roundWithAccuracy Format.binary64 .positive (m <<< 53 * 10 ^ e) (-53) .exact := by
  have small : ¬(e : Int) > 2 ^ 11 := by omega
  have large : ¬(e : Int) < -((2 ^ 11 : Int) + m.log2) := by omega
  unfold UnpackedFloat.ofScientific
  rw [dif_neg hm, if_neg small, if_neg large, if_pos (Int.natCast_nonneg e)]
  rfl

theorem isFinite_ofNat {n : ℕ} (hn : n < 2 ^ 64) : (⟨n, 0⟩ : Decimal).toFloat.isFinite = true := by
  change (Float.ofModel (Float.Model.pack
    (UnpackedFloat.ofScientific Format.binary64 n (0 : ℕ)))).isFinite = true
  refine isFinite_pack ?_
  by_cases zero : n = 0
  · rw [zero]
    exact .zero .positive
  · have digits : (n <<< 53 * 10 ^ 0).log2 < 117 := by
      refine log2_lt_of_lt (by decide) ?_
      rw [Nat.shiftLeft_eq]
      omega
    rw [ofScientific_eq zero (by decide)]
    -- Kept closed: a shifted mantissa would be unfolded place by place.
    generalize n <<< 53 * 10 ^ 0 = m at digits ⊢
    refine storable_roundWithAccuracy .positive .exact (by decide) ?_
    unfold totalExponent
    omega

theorem atLeastTwo_powerOfTen {e : ℕ} (he : 1 ≤ e) (he' : e ≤ 308) :
    AtLeastTwo (powerOfTen e).toModel.unpack := by
  change AtLeastTwo (Float.Model.pack
    (UnpackedFloat.ofScientific Format.binary64 1 e)).unpack
  have digits : 54 ≤ (1 <<< 53 * 10 ^ e).log2 := by
    calc 54 = (2 ^ 54).log2 := Nat.log2_two_pow.symm
      _ ≤ (2 ^ 53 * 10 ^ 1).log2 := log2_le_log2 (by decide)
      _ ≤ (1 <<< 53 * 10 ^ e).log2 :=
        log2_le_log2 (Nat.mul_le_mul_left _ (Nat.pow_le_pow_right (by decide) he))
  have large : 2 ≤ totalExponent (1 <<< 53 * 10 ^ e) (-53) := by
    unfold totalExponent
    omega
  obtain ⟨n, e', positive, rounded, full, least⟩ :=
    exists_roundWithAccuracy_eq .positive .exact (by omega) large
  rw [ofScientific_eq (by decide) he', rounded]
  exact atLeastTwo_unpack_pack .positive positive full least

end Operations

end RuleConsensus.Binary
