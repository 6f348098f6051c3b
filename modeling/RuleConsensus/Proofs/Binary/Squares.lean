import Mathlib.Data.Rat.Lemmas
import RuleConsensus.Proofs.Binary.Drift

/-!
Sums of what is not negative. Such a sum is not negative either, and it is zero only if all its
addends are, in whatever order they are added. So the computed square of the length of a vector is
zero exactly if the square of every entry is too small to be told from zero.
-/

set_option autoImplicit false
set_option relaxedAutoImplicit false

namespace RuleConsensus.Binary

open Float.Model Float.Model.UnpackedFloat

variable {a b c : Float} {x : List Float}

/-- A zero of either sign. -/
def Vanishes (a : Float) : Prop := a.isFinite = true ∧ value a = 0

/-- Infinity, or a number that is not below zero. -/
inductive Nonneg (a : Float) : Prop
  | infinite (unpacked : a.toModel.unpack = .infinity .positive)
  | finite (finite : a.isFinite = true) (sign : 0 ≤ value a)

theorem beq_iff_value (hb : b.isFinite = true) :
    (a == b) = true ↔ a.isFinite = true ∧ value a = value b := by
  change (a.toModel.unpack.compare b.toModel.unpack == some .eq) = true ↔ _
  by_cases ha : a.isFinite = true
  · rw [compare_eq ha hb, beq_iff_eq, Option.some_inj, compare_eq_iff_eq, and_iff_right ha]
  · refine iff_of_false ?_ fun h => ha h.1
    -- Nothing that is not finite compares equal to what is.
    change ¬a.toModel.unpack.isFinite = true at ha
    change b.toModel.unpack.isFinite = true at hb
    cases hu : a.toModel.unpack with
    | zero s =>
      rw [hu] at ha
      exact absurd rfl ha
    | finite s =>
      rw [hu] at ha
      exact absurd rfl ha
    | notANumber => exact Bool.false_ne_true
    | infinity s =>
      cases hv : b.toModel.unpack with
      | zero t => cases s <;> exact Bool.false_ne_true
      | finite t => cases s <;> exact Bool.false_ne_true
      | _ =>
        rw [hv] at hb
        cases hb

theorem beq_zero_iff : (a == 0) = true ↔ Vanishes a := by
  rw [beq_iff_value isFinite_zero, value_zero, Vanishes]

theorem Vanishes.mul_left (hc : c.isFinite = true) (h : Vanishes a) : Vanishes (c * a) := by
  have rounds := rounds_mul hc h.1
  rw [h.2, mul_zero] at rounds
  exact rounds.exact grid_zero (abs_zero.trans_lt overflow_pos)

theorem Vanishes.mul_right (h : Vanishes a) (hc : c.isFinite = true) : Vanishes (a * c) := by
  have rounds := rounds_mul h.1 hc
  rw [h.2, zero_mul] at rounds
  exact rounds.exact grid_zero (abs_zero.trans_lt overflow_pos)

theorem Vanishes.div (h : Vanishes a) (hc : c.isFinite = true) (nonzero : value c ≠ 0) :
    Vanishes (a / c) := by
  have rounds := rounds_div h.1 hc nonzero
  rw [h.2, zero_div] at rounds
  exact rounds.exact grid_zero (abs_zero.trans_lt overflow_pos)

/-- Zero times a number is a number only if the other factor is finite. -/
theorem Vanishes.isFinite_mul (h : Vanishes a) : (a * c).isFinite = c.isFinite := by
  refine Bool.eq_iff_iff.mpr ⟨fun product => (isFinite_of_mul product).2, fun hc => ?_⟩
  exact (h.mul_right hc).1

theorem Nonneg.of_vanishes (h : Vanishes a) : Nonneg a := .finite h.1 h.2.ge

theorem Nonneg.sign (h : Nonneg a) (finite : a.isFinite = true) : 0 ≤ value a := by
  cases h with
  | infinite unpacked =>
    change a.toModel.unpack.isFinite = true at finite
    rw [unpacked] at finite
    cases finite
  | finite _ sign => exact sign

theorem Rounds.nonneg {x : ℚ} (h : Rounds x a) (sign : 0 ≤ x) : Nonneg a := by
  cases h with
  | finite finite small near => exact .finite finite (near.nonneg sign)
  | infinite s unpacked large =>
    cases s with
    | positive => exact .infinite unpacked
    | negative =>
      have large : overflow ≤ -1 * x := large
      linarith [overflow_pos]

theorem Nonneg.add (ha : Nonneg a) (hb : Nonneg b) : Nonneg (a + b) := by
  have sum : (a + b).toModel.unpack = (Float.Model.pack
    (UnpackedFloat.add Format.binary64 a.toModel.unpack b.toModel.unpack)).unpack := rfl
  cases ha with
  | infinite unpacked =>
    cases hb with
    | infinite unpacked' =>
      refine .infinite ?_
      rw [sum, unpacked, unpacked']
      exact unpack_pack_infinity .positive
    | finite finite' sign' => exact .infinite (infinity_add unpacked finite')
  | finite finite sign =>
    cases hb with
    | infinite unpacked' =>
      refine .infinite ?_
      change a.toModel.unpack.isFinite = true at finite
      rw [sum, unpacked']
      cases hu : a.toModel.unpack with
      | zero s => exact unpack_pack_infinity .positive
      | finite s => exact unpack_pack_infinity .positive
      | _ =>
        rw [hu] at finite
        cases finite
    | finite finite' sign' => exact (rounds_add finite finite').nonneg (add_nonneg sign sign')

theorem Nonneg.add_vanishes_iff (ha : Nonneg a) (hb : Nonneg b) :
    Vanishes (a + b) ↔ Vanishes a ∧ Vanishes b := by
  constructor
  · rintro ⟨finite, none⟩
    obtain ⟨hfa, hfb⟩ := isFinite_of_add finite
    have first := value_le_add finite (hb.sign hfb)
    have second := value_le_add' finite (ha.sign hfa)
    rw [none] at first second
    exact ⟨⟨hfa, first.antisymm (ha.sign hfa)⟩, ⟨hfb, second.antisymm (hb.sign hfb)⟩⟩
  · rintro ⟨⟨hfa, none⟩, ⟨hfb, none'⟩⟩
    have rounds := rounds_add hfa hfb
    rw [none, none', add_zero] at rounds
    exact rounds.exact grid_zero (by simpa using overflow_pos)

section Sums

variable {parts parts' sums sums' : List Float}

/-- Sums that some parts were gathered in: none is negative, and all are zero exactly if all the
parts are. -/
structure Gathers (parts sums : List Float) : Prop where
  nonneg : ∀ a ∈ sums, Nonneg a
  vanish_iff : (∀ a ∈ sums, Vanishes a) ↔ ∀ a ∈ parts, Vanishes a

theorem Gathers.refl (nonneg : ∀ a ∈ parts, Nonneg a) : Gathers parts parts := ⟨nonneg, .rfl⟩

theorem Gathers.trans (h : Gathers parts sums) (h' : Gathers sums sums') : Gathers parts sums' :=
  ⟨h'.nonneg, h'.vanish_iff.trans h.vanish_iff⟩

theorem Gathers.append (h : Gathers parts sums) (h' : Gathers parts' sums') :
    Gathers (parts ++ parts') (sums ++ sums') where
  nonneg := List.forall_mem_append.mpr ⟨h.nonneg, h'.nonneg⟩
  vanish_iff := by
    rw [List.forall_mem_append, List.forall_mem_append, h.vanish_iff, h'.vanish_iff]

theorem gathers_foldl {t : Float} (ht : Nonneg t) (nonneg : ∀ a ∈ sums, Nonneg a) :
    Gathers (t :: sums) [sums.foldl (· + ·) t] := by
  induction sums generalizing t with
  | nil => exact .refl (List.forall_mem_cons.mpr ⟨ht, nonneg⟩)
  | cons b sums ih =>
    obtain ⟨hb, rest⟩ := List.forall_mem_cons.mp nonneg
    obtain ⟨total, vanish_iff⟩ := ih (ht.add hb) rest
    refine ⟨total, vanish_iff.trans ?_⟩
    rw [List.forall_mem_cons, List.forall_mem_cons, List.forall_mem_cons, ht.add_vanishes_iff hb,
      and_assoc]

theorem gathers_add (same : sums.length = sums'.length) (nonneg : ∀ a ∈ sums, Nonneg a)
    (nonneg' : ∀ a ∈ sums', Nonneg a) : Gathers (sums ++ sums') (Vector.add sums sums') := by
  induction sums generalizing sums' with
  | nil =>
    obtain rfl := List.eq_nil_of_length_eq_zero same.symm
    exact .refl nonneg
  | cons a sums ih =>
    cases sums' with
    | nil => cases same
    | cons b sums' =>
      obtain ⟨ha, rest⟩ := List.forall_mem_cons.mp nonneg
      obtain ⟨hb, rest'⟩ := List.forall_mem_cons.mp nonneg'
      obtain ⟨total, vanish_iff⟩ := ih (Nat.succ.inj same) rest rest'
      constructor
      · exact List.forall_mem_cons.mpr ⟨ha.add hb, total⟩
      · have first := ha.add_vanishes_iff hb
        change (∀ t ∈ (a + b) :: Vector.add sums sums', Vanishes t) ↔ _
        simp only [List.forall_mem_append, List.forall_mem_cons] at vanish_iff ⊢
        rw [vanish_iff, first]
        tauto

theorem gathers_runLanes (n : ℕ) {x y lanes : List Float} (eight : lanes.length = 8)
    (nonneg : ∀ a ∈ lanes, Nonneg a) (products : ∀ a ∈ List.zipWith (· * ·) x y, Nonneg a)
    (long : 8 * n ≤ (List.zipWith (· * ·) x y).length) :
    (Vector.runLanes n lanes x y).length = 8 ∧
      Gathers (lanes ++ (List.zipWith (· * ·) x y).take (8 * n)) (Vector.runLanes n lanes x y) := by
  induction n generalizing lanes x y with
  | zero =>
    refine ⟨eight, ?_⟩
    rw [Nat.mul_zero, List.take_zero, List.append_nil]
    exact .refl nonneg
  | succ n ih =>
    have next : Vector.runLanes (n + 1) lanes x y = Vector.runLanes n
        (Vector.add lanes ((List.zipWith (· * ·) x y).take 8)) (x.drop 8) (y.drop 8) := by
      rw [List.take_zipWith]
      rfl
    have full : ((List.zipWith (· * ·) x y).take 8).length = 8 := by
      rw [List.length_take]
      omega
    have block := gathers_add (eight.trans full.symm) nonneg
      fun a ha => products a (List.mem_of_mem_take ha)
    have rest : ∀ a ∈ List.zipWith (· * ·) (x.drop 8) (y.drop 8), Nonneg a := by
      rw [← List.drop_zipWith]
      exact fun a ha => products a (List.mem_of_mem_drop ha)
    obtain ⟨length, total⟩ := ih (by rw [Vector.length_add, eight, full, Nat.min_self])
      block.nonneg rest (by rw [← List.drop_zipWith, List.length_drop]; omega)
    have whole := (block.append (.refl fun a ha => rest a (List.mem_of_mem_take ha))).trans total
    rw [List.append_assoc, ← List.drop_zipWith, ← List.take_add] at whole
    rw [next, Nat.mul_succ, Nat.add_comm _ 8]
    exact ⟨length, whole⟩

theorem gathers_dot {x y : List Float} (same : x.length = y.length)
    (products : ∀ a ∈ List.zipWith (· * ·) x y, Nonneg a) :
    Gathers (List.zipWith (· * ·) x y) [Vector.dot x y] := by
  have zero : Vanishes 0 := ⟨isFinite_zero, value_zero⟩
  have idle : ∀ a ∈ (Vector.zeros 8 : List Float), Vanishes a := by
    intro a ha
    rw [List.eq_of_mem_replicate ha]
    exact zero
  obtain ⟨eight, lanes⟩ := gathers_runLanes (x.length / 8) (Vector.length_zeros 8)
    (fun a ha => .of_vanishes (idle a ha)) products
    (by rw [List.length_zipWith, ← same, Nat.min_self]; omega)
  have four : ((Vector.runLanes (x.length / 8) (Vector.zeros 8) x y).take 4).length =
      ((Vector.runLanes (x.length / 8) (Vector.zeros 8) x y).drop 4).length := by
    rw [List.length_take, List.length_drop, eight]
    rfl
  have joined := gathers_add four (fun a ha => lanes.nonneg a (List.mem_of_mem_take ha))
    fun a ha => lanes.nonneg a (List.mem_of_mem_drop ha)
  rw [List.take_append_drop] at joined
  have start := gathers_foldl (.of_vanishes zero) joined.nonneg
  have rest : ∀ a ∈ List.zipWith (· * ·) (x.drop (8 * (x.length / 8)))
      (y.drop (8 * (x.length / 8))), Nonneg a := by
    rw [← List.drop_zipWith]
    exact fun a ha => products a (List.mem_of_mem_drop ha)
  have whole := gathers_foldl (start.nonneg _ (List.mem_singleton_self _)) rest
  refine ⟨whole.nonneg, whole.vanish_iff.trans ?_⟩
  rw [← List.singleton_append, List.forall_mem_append, start.vanish_iff, List.forall_mem_cons,
    and_iff_right zero, joined.vanish_iff, lanes.vanish_iff, List.forall_mem_append,
    and_iff_right idle, ← List.drop_zipWith, ← List.forall_mem_append, List.take_append_drop]

end Sums

theorem underflow_lt_overflow : underflow < overflow := by
  have small : underflow ≤ 1 := div_le_one_of_le₀ (one_le_pow₀ one_le_two) (by positivity)
  have large : (1 : ℚ) ≤ 2 ^ 1023 := one_le_pow₀ one_le_two
  have room := lt_overflow
  generalize (2 : ℚ) ^ 1023 = power at large room
  linarith

theorem sq_ne_underflow (x : ℚ) : x ^ 2 ≠ underflow := by
  intro h
  have square : (x * 2 ^ 538) * (x * 2 ^ 538) = (2 : ℕ) := by
    have split : (x * 2 ^ 538) * (x * 2 ^ 538) = underflow * 2 ^ 1076 := by
      rw [← h, ← sq, mul_pow, ← pow_mul]
    rw [split, show 1076 = 1075 + 1 from rfl, pow_succ, ← mul_assoc,
      underflow_mul_pow (l := 0) rfl]
    norm_num
  exact Nat.prime_two.not_isSquare (Rat.isSquare_natCast_iff.mp ⟨_, square.symm⟩)

theorem Near.eq_zero {x r : ℚ} (h : Near x r) (grid : Grid r) (sign : 0 ≤ x)
    (small : x < underflow) : r = 0 := by
  obtain ⟨n, rfl⟩ := grid.exists_multiple
  have place : 0 < underflow * 2 := mul_pos underflow_pos two_pos
  have close : n * (underflow * 2) - x ≤ underflow := by
    refine (le_abs_self _).trans ?_
    rcases h.error with part | close
    · rw [abs_of_nonneg sign] at part
      linarith
    · exact close
  have below : (n : ℚ) * (underflow * 2) < 1 * (underflow * 2) := by linarith
  have none : n ≤ 0 := by
    have less : (n : ℚ) < 1 := lt_of_mul_lt_mul_right below place.le
    exact Int.lt_add_one_iff.mp (by exact_mod_cast less)
  refine le_antisymm ?_ (h.nonneg sign)
  exact mul_nonpos_of_nonpos_of_nonneg (by exact_mod_cast none) place.le

theorem vanishes_square_iff (hc : c.isFinite = true) :
    Vanishes (c * c) ↔ value c ^ 2 ≤ underflow := by
  have rounds := rounds_mul hc hc
  rw [← sq] at rounds
  have sign : 0 ≤ value c ^ 2 := sq_nonneg _
  constructor
  · rintro ⟨finite, none⟩
    have error := (rounds.near finite).error
    rw [none, zero_sub, abs_neg, abs_of_nonneg sign] at error
    rcases error with part | small
    · have least := underflow_pos
      linarith
    · exact small
  · intro small
    have less := lt_of_le_of_ne small (sq_ne_underflow _)
    have finite : (c * c).isFinite = true := by
      refine rounds.isFinite_iff.mpr ?_
      rw [abs_of_nonneg sign]
      exact small.trans_lt underflow_lt_overflow
    exact ⟨finite, (rounds.near finite).eq_zero (grid_value finite) sign less⟩

/-- The computed square of a length is not negative, and vanishes exactly if the squares of all
entries are rounded to zero. -/
theorem dot_self (finite : ∀ c ∈ x, c.isFinite = true) :
    Nonneg (Vector.dot x x) ∧
      (Vanishes (Vector.dot x x) ↔ ∀ c ∈ x, value c ^ 2 ≤ underflow) := by
  have squares : ∀ a ∈ List.zipWith (· * ·) x x, Nonneg a := by
    rw [List.zipWith_self, List.forall_mem_map]
    intro c hc
    exact (rounds_mul (finite c hc) (finite c hc)).nonneg (mul_self_nonneg _)
  obtain ⟨nonneg, vanish_iff⟩ := gathers_dot rfl squares
  rw [List.zipWith_self, List.forall_mem_map, List.forall_mem_singleton] at vanish_iff
  refine ⟨nonneg _ (List.mem_singleton_self _), vanish_iff.trans ?_⟩
  exact forall₂_congr fun c hc => vanishes_square_iff (finite c hc)

end RuleConsensus.Binary
