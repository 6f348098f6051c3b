import RuleConsensus.Proofs.Binary.Finite

set_option autoImplicit false
set_option relaxedAutoImplicit false

namespace RuleConsensus.Binary

open Float.Model Float.Model.UnpackedFloat

def unit : Sign → ℚ
  | .positive => 1
  | .negative => -1

/-- The number that an unpacked float stands for. Infinity and what is undefined stand for none,
and are given the value zero. -/
def valueOf : UnpackedFloat → ℚ
  | .finite s m e _ => unit s * (m * 2 ^ e)
  | _ => 0

def value (a : Float) : ℚ := valueOf a.toModel.unpack

theorem valueOf_zero (s : Sign) : valueOf (.zero s) = 0 := rfl

theorem valueOf_finite (s : Sign) {m : ℕ} {e : ℤ} (positive : 0 < m) :
    valueOf (.finite s m e positive) = unit s * (m * 2 ^ e) := rfl

theorem unpackSign_packComponents {format : Format} {s : Sign}
    {e : BitVec format.exponentBits} {m : BitVec format.mantissaBitsWithoutImplicit} :
    unpackSign (packComponents format s e m) = s.toBitVec := by
  apply BitVec.eq_of_getLsbD_eq
  intro i hi
  obtain rfl : i = 0 := by omega
  simp [unpackSign, packComponents, BitVec.getLsbD_append, BitVec.getElem_append]

theorem ofBitVec_toBitVec (s : Sign) : Sign.ofBitVec s.toBitVec = s := by
  cases s <;> rfl

private theorem unpack_normal {s : Sign} {m : ℕ} {biased : ℕ} (positive : 0 < m)
    (digits : m < 2 ^ 53) (full : 2 ^ 52 ≤ m) (least : 1 ≤ biased) (small : biased ≤ 2046) :
    UnpackedFloat.unpack Format.binary64
        (packComponents Format.binary64 s (BitVec.ofNat 11 biased) (BitVec.ofNat 52 m)) =
      .finite s m (biased - 1075) positive := by
  have exponent : (BitVec.ofNat 11 biased).toNat = biased := by
    rw [BitVec.toNat_ofNat]
    omega
  have bounded : BitVec.ofNat 11 biased ≠ -1#_ := by
    intro filled
    have h := congrArg BitVec.toNat filled
    rw [exponent] at h
    have h : biased = 2 ^ 11 - 1 := h
    omega
  have nonzero : BitVec.ofNat 11 biased ≠ 0#_ := by
    intro none
    have h := congrArg BitVec.toNat none
    rw [exponent] at h
    have h : biased = 0 := h
    omega
  have mantissa : (1#1 ++ BitVec.ofNat 52 m).toNat = m := by
    rw [BitVec.toNat_append, ← Nat.shiftLeft_add_eq_or_of_lt (BitVec.isLt _), BitVec.toNat_ofNat]
    change 1 <<< 52 + m % 2 ^ 52 = m
    omega
  unfold UnpackedFloat.unpack
  simp only [unpackMantissa_packComponents, unpackExponent_packComponents,
    unpackSign_packComponents, ofBitVec_toBitVec]
  rw [if_neg bounded, if_neg nonzero, UnpackedFloat.finite.injEq]
  refine ⟨rfl, mantissa, ?_⟩
  rw [exponent]
  rfl

private theorem unpack_subnormal {s : Sign} {m : ℕ} (positive : 0 < m) (digits : m < 2 ^ 52) :
    UnpackedFloat.unpack Format.binary64
        (packComponents Format.binary64 s 0#_ (BitVec.ofNat 52 m)) =
      .finite s m (-1074) positive := by
  have mantissa : (BitVec.ofNat 52 m).toNat = m := by
    rw [BitVec.toNat_ofNat]
    omega
  have nonzero : BitVec.ofNat 52 m ≠ 0#_ := by
    intro none
    have h := congrArg BitVec.toNat none
    rw [mantissa] at h
    exact positive.ne' h
  unfold UnpackedFloat.unpack
  simp only [unpackMantissa_packComponents, unpackExponent_packComponents,
    unpackSign_packComponents, ofBitVec_toBitVec]
  rw [if_neg (by decide), if_pos trivial, dif_neg nonzero, UnpackedFloat.finite.injEq]
  exact ⟨rfl, mantissa, rfl⟩

theorem unpack_pack {s : Sign} {m : ℕ} {e : Int} (positive : 0 < m) (canonical : Canonical m e)
    (small : e ≤ 971) :
    (Float.Model.pack (.finite s m e positive)).unpack = .finite s m e positive := by
  obtain ⟨digits, least, full⟩ := canonical
  have nonzero := positive.ne'
  change UnpackedFloat.unpack Format.binary64
    (UnpackedFloat.pack Format.binary64 (.finite s m e positive)) = _
  unfold UnpackedFloat.pack
  dsimp only
  have biased : (e + Format.binary64.exponentBias + (52 : ℕ)).toNat = (e + 1075).toNat :=
    congrArg Int.toNat (by change e + 1023 + 52 = e + 1075; omega)
  rw [biased, if_neg (by omega)]
  by_cases leading : 2 ^ 52 ≤ m
  · have long : m.log2 + 1 = Format.binary64.mantissaBits := by
      change m.log2 + 1 = 53
      have lower := (Nat.le_log2 nonzero).mpr leading
      have upper := (Nat.log2_lt nonzero).mpr digits
      omega
    rw [if_pos long, unpack_normal positive digits leading (by omega) (by omega),
      UnpackedFloat.finite.injEq]
    exact ⟨rfl, rfl, by omega⟩
  · have short : ¬m.log2 + 1 = Format.binary64.mantissaBits := by
      change ¬m.log2 + 1 = 53
      have upper := (Nat.log2_lt nonzero).mpr (not_le.mp leading)
      omega
    rw [if_neg short, unpack_subnormal positive (not_le.mp leading), UnpackedFloat.finite.injEq]
    exact ⟨rfl, rfl, (full.resolve_right leading).symm⟩

theorem unpack_pack_infinity (s : Sign) :
    (Float.Model.pack (.infinity s)).unpack = .infinity s := by
  cases s <;> rfl

theorem unpack_pack_zero (s : Sign) : (Float.Model.pack (.zero s)).unpack = .zero s := by
  cases s <;> rfl

theorem unpack_pack_large {s : Sign} {m : ℕ} {e : Int} (positive : 0 < m) (large : 972 ≤ e) :
    (Float.Model.pack (.finite s m e positive)).unpack = .infinity s := by
  have beyond : 2 ^ 11 ≤ (e + Format.binary64.exponentBias + (52 : ℕ)).toNat + 1 := by
    change 2 ^ 11 ≤ (e + 1023 + 52).toNat + 1
    omega
  have packed : UnpackedFloat.pack Format.binary64 (.finite s m e positive) =
      packedInfinity Format.binary64 s := by
    unfold UnpackedFloat.pack
    exact if_pos beyond
  rw [← unpack_pack_infinity s]
  unfold Float.Model.pack
  congr 3

section Order

variable {a b : Float}

/-- What finite numbers are unpacked into: a zero, or a canonical number that can be packed. -/
inductive Packed : UnpackedFloat → Prop
  | zero (s : Sign) : Packed (.zero s)
  | finite (s : Sign) {m : ℕ} {e : ℤ} (positive : 0 < m) (canonical : Canonical m e)
      (small : e ≤ 971) : Packed (.finite s m e positive)

theorem packed_unpack (finite : a.isFinite = true) : Packed a.toModel.unpack := by
  change a.toModel.unpack.isFinite = true at finite
  cases h : a.toModel.unpack with
  | zero s => exact .zero s
  | infinity s =>
    rw [h] at finite
    cases finite
  | notANumber =>
    rw [h] at finite
    cases finite
  | finite s m e positive =>
    exact .finite s positive (canonical_unpack h).1 (canonical_unpack h).2

theorem Canonical.lt_of_exponent_lt {m m' : ℕ} {e e' : ℤ} (h : Canonical m e)
    (h' : Canonical m' e') (less : e < e') : (m : ℚ) * 2 ^ e < m' * 2 ^ e' := by
  have leading : (2 : ℚ) ^ 52 ≤ m' := by
    have least := h.least
    have full : 2 ^ 52 ≤ m' := h'.full.resolve_left (by omega)
    exact_mod_cast full
  have digits : (m : ℚ) < 2 ^ 53 := by exact_mod_cast h.digits
  have power : (0 : ℚ) < 2 ^ e := by positivity
  have doubled : (2 : ℚ) * 2 ^ e ≤ 2 ^ e' := by
    rw [← zpow_one_add₀ two_ne_zero]
    exact zpow_le_zpow_right₀ one_le_two (by omega)
  calc (m : ℚ) * 2 ^ e < 2 ^ 53 * 2 ^ e := mul_lt_mul_of_pos_right digits power
    _ = 2 ^ 52 * (2 * 2 ^ e) := by ring
    _ ≤ m' * 2 ^ e' := mul_le_mul leading doubled (by positivity) (by positivity)

theorem Canonical.compare_eq {m m' : ℕ} {e e' : ℤ} (h : Canonical m e) (h' : Canonical m' e') :
    (compare e e').then (compare m m') = compare ((m : ℚ) * 2 ^ e) (m' * 2 ^ e') := by
  rcases lt_trichotomy e e' with less | rfl | greater
  · have lower := h.lt_of_exponent_lt h' less
    rw [compare_lt_iff_lt.mpr less, compare_lt_iff_lt.mpr lower]
    rfl
  · have power : (0 : ℚ) < 2 ^ e := by positivity
    have same : compare e e = .eq := compare_eq_iff_eq.mpr rfl
    rw [same, Ordering.eq_then]
    rcases lt_trichotomy m m' with less | rfl | greater
    · have lower : (m : ℚ) * 2 ^ e < m' * 2 ^ e :=
        mul_lt_mul_of_pos_right (by exact_mod_cast less) power
      rw [compare_lt_iff_lt.mpr less, compare_lt_iff_lt.mpr lower]
    · rw [compare_eq_iff_eq.mpr rfl, compare_eq_iff_eq.mpr rfl]
    · have upper : (m' : ℚ) * 2 ^ e < m * 2 ^ e :=
        mul_lt_mul_of_pos_right (by exact_mod_cast greater) power
      rw [compare_gt_iff_gt.mpr greater, compare_gt_iff_gt.mpr upper]
  · have upper := h'.lt_of_exponent_lt h greater
    rw [compare_gt_iff_gt.mpr greater, compare_gt_iff_gt.mpr upper]
    rfl

private theorem swap_compare (x y : ℚ) : (compare x y).swap = compare (-x) (-y) := by
  rcases lt_trichotomy x y with less | rfl | greater
  · rw [compare_lt_iff_lt.mpr less, compare_gt_iff_gt.mpr (neg_lt_neg less)]
    rfl
  · rw [compare_eq_iff_eq.mpr rfl, compare_eq_iff_eq.mpr rfl]
    rfl
  · rw [compare_gt_iff_gt.mpr greater, compare_lt_iff_lt.mpr (neg_lt_neg greater)]
    rfl

/-- Finite numbers are compared as the numbers that they stand for. -/
theorem Packed.compare_eq {u v : UnpackedFloat} (hu : Packed u) (hv : Packed v) :
    u.compare v = some (compare (valueOf u) (valueOf v)) := by
  have above {m : ℕ} {e : ℤ} (positive : 0 < m) : (0 : ℚ) < m * 2 ^ e := by positivity
  cases hu with
  | zero s =>
    cases hv with
    | zero t => exact congrArg some (compare_eq_iff_eq.mpr rfl).symm
    | @finite t m' e' positive' =>
      have high := above (e := e') positive'
      cases t
      · refine congrArg some (compare_gt_iff_gt.mpr ?_).symm
        simpa [valueOf, unit] using high
      · refine congrArg some (compare_lt_iff_lt.mpr ?_).symm
        simpa [valueOf, unit] using high
  | @finite s m e positive canonical =>
    have high := above (e := e) positive
    cases hv with
    | zero t =>
      cases s
      · refine congrArg some (compare_lt_iff_lt.mpr ?_).symm
        simpa [valueOf, unit] using high
      · refine congrArg some (compare_gt_iff_gt.mpr ?_).symm
        simpa [valueOf, unit] using high
    | @finite t m' e' positive' canonical' =>
      have high' := above (e := e') positive'
      -- Of two numbers of one sign, the greater exponent decides, and after it the mantissa.
      cases s <;> cases t
      · refine congrArg some ?_
        rw [canonical.compare_eq canonical', swap_compare]
        simp only [valueOf, unit, neg_one_mul]
      · refine congrArg some (compare_lt_iff_lt.mpr ?_).symm
        simp only [valueOf, unit]
        linarith
      · refine congrArg some (compare_gt_iff_gt.mpr ?_).symm
        simp only [valueOf, unit]
        linarith
      · refine congrArg some ?_
        rw [canonical.compare_eq canonical']
        simp only [valueOf, unit, one_mul]

theorem compare_eq (ha : a.isFinite = true) (hb : b.isFinite = true) :
    a.toModel.unpack.compare b.toModel.unpack = some (compare (value a) (value b)) :=
  (packed_unpack ha).compare_eq (packed_unpack hb)

theorem le_iff_value (ha : a.isFinite = true) (hb : b.isFinite = true) :
    a ≤ b ↔ value a ≤ value b := by
  change decide ((a.toModel.unpack.compare b.toModel.unpack).any (·.isLE) = true) = true ↔ _
  rw [compare_eq ha hb, Option.any_some, decide_eq_true_eq, Ordering.isLE_iff_ne_gt,
    ← ne_eq, compare_le_iff_le]

theorem lt_iff_value (ha : a.isFinite = true) (hb : b.isFinite = true) :
    a < b ↔ value a < value b := by
  change decide ((a.toModel.unpack.compare b.toModel.unpack == some .lt) = true) = true ↔ _
  rw [compare_eq ha hb, decide_eq_true_eq, beq_iff_eq, Option.some_inj, compare_lt_iff_lt]

theorem Packed.unpack_pack {u : UnpackedFloat} (h : Packed u) :
    (Float.Model.pack u).unpack = u := by
  cases h with
  | zero s => exact unpack_pack_zero s
  | finite s positive canonical small => exact Binary.unpack_pack positive canonical small

theorem Packed.isFinite {u : UnpackedFloat} (h : Packed u) :
    (Float.ofModel (Float.Model.pack u)).isFinite = true := by
  refine isFinite_pack ?_
  cases h with
  | zero s => exact .zero s
  | finite s positive canonical small => exact .finite s positive small

theorem unit_neg (s : Sign) : unit (-s) = -unit s := by
  cases s
  · exact (neg_neg (1 : ℚ)).symm
  · rfl

theorem Packed.neg {u : UnpackedFloat} (h : Packed u) :
    Packed u.neg ∧ valueOf u.neg = -valueOf u := by
  cases h with
  | zero s => exact ⟨.zero (-s), neg_zero.symm⟩
  | @finite s m e positive canonical small =>
    refine ⟨.finite (-s) positive canonical small, ?_⟩
    change unit (-s) * (m * 2 ^ e) = -(unit s * (m * 2 ^ e))
    rw [unit_neg, neg_mul]

theorem Packed.abs {u : UnpackedFloat} (h : Packed u) :
    Packed u.abs ∧ valueOf u.abs = |valueOf u| := by
  cases h with
  | zero s => exact ⟨.zero .positive, abs_zero.symm⟩
  | @finite s m e positive canonical small =>
    refine ⟨.finite .positive positive canonical small, ?_⟩
    have high : (0 : ℚ) ≤ m * 2 ^ e := by positivity
    change unit .positive * (m * 2 ^ e) = |unit s * (m * 2 ^ e)|
    cases s <;> simp [unit, abs_of_nonneg high]

theorem value_neg (finite : a.isFinite = true) : value (-a) = -value a := by
  obtain ⟨packed, opposite⟩ := (packed_unpack finite).neg
  change valueOf (Float.Model.pack a.toModel.unpack.neg).unpack = _
  rw [packed.unpack_pack, opposite]
  rfl

theorem value_abs (finite : a.isFinite = true) :
    a.abs.isFinite = true ∧ value a.abs = |value a| := by
  obtain ⟨packed, size⟩ := (packed_unpack finite).abs
  refine ⟨packed.isFinite, ?_⟩
  change valueOf (Float.Model.pack a.toModel.unpack.abs).unpack = _
  rw [packed.unpack_pack, size]
  rfl

end Order

end RuleConsensus.Binary
