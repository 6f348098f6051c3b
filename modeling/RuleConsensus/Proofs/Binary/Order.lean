import Mathlib.Order.Compare
import RuleConsensus.Scalar

set_option autoImplicit false
set_option relaxedAutoImplicit false

namespace RuleConsensus.Binary

open Float.Model (UnpackedFloat)

/-- Where a defined number lies: by its kind first, then by its exponent and its mantissa, both of
which count backwards below zero. -/
private def place : UnpackedFloat → Int × Int × Int
  | .infinity .negative => (-2, 0, 0)
  | .finite .negative m e _ => (-1, -e, -m)
  | .zero _ | .notANumber => (0, 0, 0)
  | .finite .positive m e _ => (1, e, m)
  | .infinity .positive => (2, 0, 0)

private def comparePlaces : Int × Int × Int → Int × Int × Int → Ordering :=
  compareLex (compareOn (·.1)) (compareLex (compareOn (·.2.1)) (compareOn (·.2.2)))

private instance : Std.TransCmp comparePlaces :=
  inferInstanceAs (Std.TransCmp (compareLex _ (compareLex _ _)))

private theorem compare_neg (i j : Int) : compare (-i) (-j) = (compare i j).swap := by
  rw [Int.compare_swap]
  simp only [compare, compareOfLessAndEq]
  grind

private theorem compare_cast (m n : Nat) : compare (m : Int) (n : Int) = compare m n := by
  simp only [compare, compareOfLessAndEq]
  grind

private theorem compare_eq_comparePlaces {u v : UnpackedFloat} (hu : u.isNaN = false)
    (hv : v.isNaN = false) : u.compare v = some (comparePlaces (place u) (place v)) := by
  rcases u with s | _ | _ | ⟨s, m, e, _⟩
  case notANumber => cases hu
  all_goals rcases v with t | _ | _ | ⟨t, m', e', _⟩
  case infinity.notANumber | zero.notANumber | finite.notANumber => cases hv
  case finite.finite =>
    -- Of two numbers of one sign, the exponents decide, and after them the mantissas.
    cases s <;> cases t
    · refine congrArg some ?_
      change ((compare e e').then (compare m m')).swap =
        (compare (-e) (-e')).then (compare (-(m : Int)) (-(m' : Int)))
      rw [compare_neg, compare_neg, compare_cast, Ordering.swap_then]
    · rfl
    · rfl
    · refine congrArg some ?_
      change (compare e e').then (compare m m') = (compare e e').then (compare (m : Int) (m' : Int))
      rw [compare_cast]
  case infinity.infinity | infinity.finite | finite.infinity => cases s <;> cases t <;> rfl
  case infinity.zero | finite.zero => cases s <;> rfl
  case zero.infinity | zero.finite => cases t <;> rfl
  case zero.zero => rfl

variable {a b c : Float}

private def order (a b : Float) : Ordering :=
  comparePlaces (place a.toModel.unpack) (place b.toModel.unpack)

private instance : Std.TransCmp order where
  eq_swap {a _} := @Std.OrientedCmp.eq_swap _ comparePlaces _ (place a.toModel.unpack) _
  isLE_trans {_ _ _} first second := @Std.TransCmp.isLE_trans _ comparePlaces _ _ _ _ first second

private theorem le_iff (ha : a.isNaN = false) (hb : b.isNaN = false) :
    a ≤ b ↔ (order a b).isLE = true := by
  have compared : a.toModel.unpack.compare b.toModel.unpack = some (order a b) :=
    compare_eq_comparePlaces ha hb
  change decide ((a.toModel.unpack.compare b.toModel.unpack).any (·.isLE) = true) = true ↔ _
  simp [compared]

private theorem lt_iff (ha : a.isNaN = false) (hb : b.isNaN = false) :
    a < b ↔ order a b = .lt := by
  have compared : a.toModel.unpack.compare b.toModel.unpack = some (order a b) :=
    compare_eq_comparePlaces ha hb
  change decide ((a.toModel.unpack.compare b.toModel.unpack == some .lt) = true) = true ↔ _
  simp [compared]

theorem not_le_iff (ha : a.isNaN = false) (hb : b.isNaN = false) : ¬a ≤ b ↔ b < a := by
  have swapped : order a b = (order b a).swap := Std.OrientedCmp.eq_swap
  rw [le_iff ha hb, lt_iff hb ha, swapped]
  cases order b a <;> simp

theorem not_lt_iff (ha : a.isNaN = false) (hb : b.isNaN = false) : ¬a < b ↔ b ≤ a := by
  rw [← not_le_iff hb ha, Decidable.not_not]

theorem defined_of_le (h : a ≤ b) : a.isNaN = false ∧ b.isNaN = false := by
  change decide ((a.toModel.unpack.compare b.toModel.unpack).any (·.isLE) = true) = true at h
  change a.toModel.unpack.isNaN = false ∧ b.toModel.unpack.isNaN = false
  cases hu : a.toModel.unpack with
  | notANumber =>
    rw [hu] at h
    cases h
  | infinity | zero | finite =>
    cases hv : b.toModel.unpack with
    | notANumber =>
      rw [hu, hv] at h
      cases h
    | infinity | zero | finite => exact ⟨rfl, rfl⟩

theorem le_of_lt (h : a < b) : a ≤ b := by
  change decide ((a.toModel.unpack.compare b.toModel.unpack == some .lt) = true) = true at h
  have compared : a.toModel.unpack.compare b.toModel.unpack = some .lt :=
    eq_of_beq (of_decide_eq_true h)
  change decide ((a.toModel.unpack.compare b.toModel.unpack).any (·.isLE) = true) = true
  rw [compared]
  rfl

theorem le_refl (h : a.isNaN = false) : a ≤ a := by
  have same : order a a = .eq := Std.ReflCmp.compare_self
  rw [le_iff h h, same]
  rfl

theorem le_trans (first : a ≤ b) (second : b ≤ c) : a ≤ c := by
  obtain ⟨ha, hb⟩ := defined_of_le first
  have hc := (defined_of_le second).2
  exact (le_iff ha hc).mpr
    (Std.TransCmp.isLE_trans ((le_iff ha hb).mp first) ((le_iff hb hc).mp second))

theorem isNaN_of_isFinite (finite : a.isFinite = true) : a.isNaN = false := by
  change a.toModel.unpack.isFinite = true at finite
  change a.toModel.unpack.isNaN = false
  cases hu : a.toModel.unpack with
  | notANumber =>
    rw [hu] at finite
    exact absurd finite Bool.false_ne_true
  | infinity _ => rfl
  | zero _ => rfl
  | finite _ _ _ _ => rfl

end RuleConsensus.Binary
