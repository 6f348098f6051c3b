import Mathlib.Algebra.BigOperators.Group.List.Basic
import Mathlib.Algebra.Order.Ring.Abs
import Mathlib.Data.List.Forall2
import RuleConsensus.Proofs.Binary.Arithmetic
import RuleConsensus.Vector

/-!
What many roundings add up to. A number that was computed is compared with the exact one, together
with the size of the parts that both are put together of. Every rounding adds one part of the size,
so the drift depends on how many roundings lie on one way to the result. In an inner product these
are few for its lanes, and one for each product that is left over.
-/

set_option autoImplicit false
set_option relaxedAutoImplicit false

namespace RuleConsensus.Binary

/-- The part of a number that its rounding can change. -/
def digit : ℚ := 1 / 2 ^ 53

/-- The size below which a rounding changes as much as there. -/
def faint : ℚ := underflow * 2 ^ 53

/-- The part of a number that so many roundings can change. -/
def drift (k : ℕ) : ℚ := (1 + digit) ^ k - 1

theorem digit_pos : 0 < digit := one_div_pos.mpr (pow_pos two_pos 53)

theorem faint_pos : 0 < faint := mul_pos underflow_pos (pow_pos two_pos 53)

theorem drift_nonneg (k : ℕ) : 0 ≤ drift k :=
  sub_nonneg.mpr (one_le_pow₀ (le_add_of_nonneg_right digit_pos.le))

theorem drift_succ (k : ℕ) : drift (k + 1) = drift k + digit * (1 + drift k) := by
  rw [drift, drift, pow_succ]
  ring

theorem drift_add (k l : ℕ) : 1 + drift (k + l) = (1 + drift k) * (1 + drift l) := by
  rw [drift, drift, drift, pow_add]
  ring

theorem drift_mono {k l : ℕ} (h : k ≤ l) : drift k ≤ drift l :=
  sub_le_sub_right (pow_le_pow_right₀ (le_add_of_nonneg_right digit_pos.le) h) 1

theorem Near.abs_sub_le_digit {x r : ℚ} (h : Near x r) : |r - x| ≤ digit * (|x| + faint) := by
  have split : digit * (|x| + faint) = |x| / 2 ^ 53 + underflow := by
    rw [digit, faint, mul_add, mul_comm underflow, ← mul_assoc, one_div_mul_cancel (by positivity),
      one_mul, one_div_mul_eq_div]
  rw [split]
  exact h.abs_sub_le

theorem le_of_mul_one_sub_digit_le {x y : ℚ} (positive : 0 ≤ x) (least : x * (1 - digit) ≤ y) :
    x ≤ (1 + drift 2) * y := by
  have room : 1 ≤ (1 + drift 2) * (1 - digit) := by norm_num [drift, digit]
  calc x ≤ x * ((1 + drift 2) * (1 - digit)) := le_mul_of_one_le_right positive room
    _ = (1 + drift 2) * (x * (1 - digit)) := by ring
    _ ≤ (1 + drift 2) * y :=
      mul_le_mul_of_nonneg_left least (add_nonneg zero_le_one (drift_nonneg 2))

theorem Near.abs_le {x r : ℚ} (h : Near x r) : |x| ≤ (1 + drift 2) * (|r| + underflow) := by
  refine le_of_mul_one_sub_digit_le (abs_nonneg x) ?_
  have close := h.abs_sub_le
  have triangle := abs_sub_abs_le_abs_sub x r
  rw [abs_sub_comm] at triangle
  rw [digit]
  linarith

theorem Near.le_of_nonneg {x r : ℚ} (h : Near x r) (positive : 0 ≤ x) :
    x ≤ (1 + drift 2) * (r + underflow) := by
  have size := h.abs_le
  rwa [abs_of_nonneg positive, abs_of_nonneg (h.nonneg positive)] at size

/-- What is taken from a number without moving it is at most the last digit of the number. -/
theorem Near.abs_le_of_unmoved {v d : ℚ} (h : Near (v - d) v) :
    |d| ≤ (1 + drift 2) * (digit * |v| + underflow) := by
  refine le_of_mul_one_sub_digit_le (abs_nonneg d) ?_
  have close := h.abs_sub_le
  have triangle := abs_sub v d
  rw [sub_sub_cancel] at close
  rw [digit]
  linarith

/-- A number that is so many roundings away from an exact one, given with the size of its parts. -/
structure Within (k : ℕ) (t : Float) (p : ℚ × ℚ) : Prop where
  size : |p.1| + faint ≤ p.2
  close : t.isFinite = true → |value t - p.1| ≤ drift k * p.2

/-- What a number stands for, with its size. -/
def point (a : Float) : ℚ × ℚ := (value a, |value a| + faint)

def minus (p q : ℚ × ℚ) : ℚ × ℚ := (p.1 - q.1, p.2 + q.2)

def times (p q : ℚ × ℚ) : ℚ × ℚ := (p.1 * q.1, p.2 * q.2 + faint)

section Operations

variable {k l : ℕ} {a t s : Float} {p q : ℚ × ℚ}

theorem within_point (a : Float) : Within 0 a (point a) where
  size := le_rfl
  close _ := by
    rw [point, sub_self, abs_zero]
    exact mul_nonneg (drift_nonneg 0) (add_nonneg (abs_nonneg _) faint_pos.le)

theorem Within.positive (h : Within k t p) : 0 < p.2 :=
  (add_pos_of_nonneg_of_pos (abs_nonneg _) faint_pos).trans_le h.size

theorem Within.mono (h : Within k t p) (more : k ≤ l) : Within l t p where
  size := h.size
  close finite := (h.close finite).trans
    (mul_le_mul_of_nonneg_right (drift_mono more) h.positive.le)

theorem Within.abs_value_le (h : Within k t p) (finite : t.isFinite = true) :
    |value t| + faint ≤ (1 + drift k) * p.2 := by
  have triangle := abs_sub_abs_le_abs_sub (value t) p.1
  have close := h.close finite
  have size := h.size
  linarith

private theorem rounded_sum {x y r : ℚ} (h : Within k t p) (h' : Within k s q)
    (ht : t.isFinite = true) (hs : s.isFinite = true) (near : Near (x + y) r)
    (hx : |x| = |value t|) (hy : |y| = |value s|) {exact : ℚ}
    (apart : |x + y - exact| ≤ |value t - p.1| + |value s - q.1|) :
    |r - exact| ≤ drift (k + 1) * (p.2 + q.2) := by
  have whole : |x + y| + faint ≤ (1 + drift k) * (p.2 + q.2) := by
    have triangle := abs_add_le x y
    have first := h.abs_value_le ht
    have second := h'.abs_value_le hs
    rw [hx, hy] at triangle
    linarith [faint_pos]
  have rounded := near.abs_sub_le_digit.trans (mul_le_mul_of_nonneg_left whole digit_pos.le)
  have triangle := abs_sub_le r (x + y) exact
  have first := h.close ht
  have second := h'.close hs
  rw [drift_succ]
  linarith

theorem Within.add (h : Within k t p) (h' : Within k s q) : Within (k + 1) (t + s) (p + q) where
  size := by
    have triangle := abs_add_le p.1 q.1
    rw [Prod.fst_add, Prod.snd_add]
    linarith [h.size, h'.size, faint_pos]
  close finite := by
    obtain ⟨ht, hs⟩ := isFinite_of_add finite
    refine rounded_sum h h' ht hs ((rounds_add ht hs).near finite) rfl rfl ?_
    rw [Prod.fst_add, add_sub_add_comm]
    exact abs_add_le _ _

theorem Within.sub (h : Within k t p) (h' : Within k s q) :
    Within (k + 1) (t - s) (minus p q) where
  size := by
    have triangle := abs_sub p.1 q.1
    rw [minus]
    linarith [h.size, h'.size, faint_pos]
  close finite := by
    obtain ⟨ht, hs⟩ := isFinite_of_sub finite
    have near := (rounds_sub ht hs).near finite
    rw [sub_eq_add_neg] at near
    refine rounded_sum h h' ht hs near rfl (abs_neg _) ?_
    rw [minus, ← sub_eq_add_neg, sub_sub_sub_comm]
    exact abs_sub _ _

theorem Within.mul (h : Within k t p) (h' : Within l s q) :
    Within (k + l + 1) (t * s) (times p q) where
  size := by
    have product : |p.1| * |q.1| ≤ p.2 * q.2 :=
      mul_le_mul (by linarith [h.size, faint_pos]) (by linarith [h'.size, faint_pos])
        (abs_nonneg _) h.positive.le
    rw [times, abs_mul]
    linarith
  close finite := by
    obtain ⟨ht, hs⟩ := isFinite_of_mul finite
    have first := h.close ht
    have second := h'.close hs
    have least := faint_pos
    have large : |value t| ≤ (1 + drift k) * p.2 := by linarith [h.abs_value_le ht]
    have large' : |value s| ≤ (1 + drift l) * q.2 := by linarith [h'.abs_value_le hs]
    have grown : 0 ≤ (1 + drift k) * p.2 := (abs_nonneg _).trans large
    have product : |value t * value s| ≤ (1 + drift (k + l)) * (p.2 * q.2) := by
      rw [abs_mul, drift_add]
      linarith [mul_le_mul large large' (abs_nonneg _) grown]
    have apart : |value t * value s - p.1 * q.1| ≤ drift (k + l) * (p.2 * q.2) := by
      have split : value t * value s - p.1 * q.1 =
          value t * (value s - q.1) + (value t - p.1) * q.1 := by ring
      have ahead : |value t * (value s - q.1)| ≤ (1 + drift k) * p.2 * (drift l * q.2) := by
        rw [abs_mul]
        exact mul_le_mul large second (abs_nonneg _) grown
      have behind : |(value t - p.1) * q.1| ≤ drift k * p.2 * q.2 := by
        rw [abs_mul]
        exact mul_le_mul first (by linarith [h'.size]) (abs_nonneg _)
          ((abs_nonneg _).trans first)
      have joined := drift_add k l
      have both : drift (k + l) * (p.2 * q.2) =
          (1 + drift k) * p.2 * (drift l * q.2) + drift k * p.2 * q.2 := by
        rw [show drift (k + l) = (1 + drift k) * (1 + drift l) - 1 by linarith]
        ring
      rw [split, both]
      exact (abs_add_le _ _).trans (add_le_add ahead behind)
    have rounded := ((rounds_mul ht hs).near finite).abs_sub_le_digit
    have scaled : digit * (|value t * value s| + faint) ≤
        digit * ((1 + drift (k + l)) * (p.2 * q.2) + faint) :=
      mul_le_mul_of_nonneg_left (add_le_add_left product _) digit_pos.le
    have triangle := abs_sub_le (value (t * s)) (value t * value s) (p.1 * q.1)
    have rest : 0 ≤ (drift (k + l) + digit * drift (k + l)) * faint :=
      mul_nonneg (add_nonneg (drift_nonneg _) (mul_nonneg digit_pos.le (drift_nonneg _))) least.le
    rw [times, drift_succ]
    linarith

theorem within_div (ha : value s ≠ 0) (hs : s.isFinite = true) (t : Float) :
    Within 1 (t / s) (value t / value s, |value t / value s| + faint) where
  size := le_rfl
  close finite := by
    have ht := isFinite_of_div finite hs
    have one : drift 1 = digit := by rw [drift, pow_one, add_sub_cancel_left]
    rw [one]
    exact ((rounds_div ht hs ha).near finite).abs_sub_le_digit

theorem Within.times_zero (h : Within k 0 p) (a : Float) : Within k 0 (times (point a) p) where
  size := ((within_point a).mul h).size
  close finite := by
    have part := h.close finite
    rw [value_zero, zero_sub, abs_neg] at part ⊢
    have drifts := drift_nonneg k
    have product : |value a| * |p.1| ≤ |value a| * (drift k * p.2) :=
      mul_le_mul_of_nonneg_left part (abs_nonneg _)
    have rest : 0 ≤ drift k * (faint * p.2 + faint) :=
      mul_nonneg drifts (add_nonneg (mul_nonneg faint_pos.le h.positive.le) faint_pos.le)
    rw [times, point, abs_mul]
    linarith

theorem Within.positivePart (h : Within k t p) (finite : t.isFinite = true) :
    Within k (if 0 < t then t else 0) (max p.1 0, p.2) where
  size := by
    have least : |max p.1 0| ≤ |p.1| := abs_max_le_max_abs_abs.trans (by simp)
    linarith [h.size]
  close _ := by
    have kept : value (if 0 < t then t else 0) = max (value t) 0 := by
      split_ifs with positive
      · have above := (lt_iff_value isFinite_zero finite).mp positive
        rw [value_zero] at above
        exact (max_eq_left above.le).symm
      · have below := mt (lt_iff_value isFinite_zero finite).mpr positive
        rw [value_zero] at below ⊢
        exact (max_eq_right (not_lt.mp below)).symm
    rw [kept]
    exact (abs_max_sub_max_le_abs _ _ _).trans (h.close finite)

end Operations

section Sums

variable {j k : ℕ} {s : Float} {q : ℚ × ℚ} {x y lanes : List Float} {parts products : List (ℚ × ℚ)}

theorem within_foldl (addends : List.Forall₂ (Within k) x parts) (start : Within j s q)
    (fewer : k ≤ j) : Within (j + x.length) (x.foldl (· + ·) s) (q + parts.sum) := by
  induction addends generalizing j s q with
  | nil =>
    rw [List.sum_nil, add_zero]
    exact start
  | @cons a p x parts first _ ih =>
    have next := ih (start.add (first.mono fewer)) (by omega)
    rw [List.sum_cons, ← add_assoc, List.length_cons, ← Nat.add_assoc, Nat.add_right_comm]
    exact next

theorem within_add (h : List.Forall₂ (Within j) x parts) (h' : List.Forall₂ (Within k) y products)
    (fewer : k ≤ j) :
    List.Forall₂ (Within (j + 1)) (Vector.add x y) (List.zipWith (· + ·) parts products) := by
  induction h generalizing y products with
  | nil => exact .nil
  | cons first _ ih =>
    cases h' with
    | nil => exact .nil
    | cons second rest => exact .cons (first.add (second.mono fewer)) (ih rest)

theorem within_products (x y : List Float) :
    List.Forall₂ (Within 1) (List.zipWith (· * ·) x y)
      (List.zipWith (fun a b => times (point a) (point b)) x y) := by
  induction x generalizing y with
  | nil => exact .nil
  | cons a x ih =>
    cases y with
    | nil => exact .nil
    | cons b y => exact .cons ((within_point a).mul (within_point b)) (ih y)

/-- Each block of eight products is one rounding more for every lane. -/
theorem within_runLanes (n : ℕ) (lanesWithin : List.Forall₂ (Within j) lanes parts)
    (eight : parts.length = 8)
    (hp : List.Forall₂ (Within 1) (List.zipWith (· * ·) x y) products) (long : 8 * n ≤ products.length)
    (some : 1 ≤ j) :
    ∃ joined, List.Forall₂ (Within (j + n)) (Vector.runLanes n lanes x y) joined ∧
      joined.length = 8 ∧ joined.sum = parts.sum + (products.take (8 * n)).sum := by
  induction n generalizing j lanes parts x y products with
  | zero => exact ⟨parts, lanesWithin, eight, by simp⟩
  | succ n ih =>
    have block : List.Forall₂ (Within 1) (List.zipWith (· * ·) (x.take 8) (y.take 8))
        (products.take 8) := by
      rw [← List.take_zipWith]
      exact List.forall₂_take 8 hp
    have rest : List.Forall₂ (Within 1) (List.zipWith (· * ·) (x.drop 8) (y.drop 8))
        (products.drop 8) := by
      rw [← List.drop_zipWith]
      exact List.forall₂_drop 8 hp
    have full : (products.take 8).length = 8 := by
      rw [List.length_take]
      omega
    have same := eight.trans full.symm
    obtain ⟨joined, within, length, total⟩ := ih (within_add lanesWithin block some)
      (by rw [List.length_zipWith, eight, full, Nat.min_self]) rest
      (by rw [List.length_drop]; omega) (by omega)
    refine ⟨joined, ?_, length, ?_⟩
    · rw [← Nat.add_assoc, Nat.add_right_comm]
      exact within
    · rw [total, ← List.sum_add_sum_eq_sum_zipWith_of_length_eq _ _ same, add_assoc,
        ← List.sum_append, ← List.take_add, Nat.mul_succ, Nat.add_comm]

/-- An inner product with its size. The lanes start at zero, which has a size, too. -/
def inner (x y : List Float) : ℚ × ℚ :=
  (List.zipWith (fun a b => times (point a) (point b)) x y).sum + 9 • point 0

theorem within_dot (same : x.length = y.length) :
    Within (x.length + 6) (Vector.dot x y) (inner x y) := by
  have products := within_products x y
  have long : (List.zipWith (fun a b => times (point a) (point b)) x y).length = x.length := by
    rw [List.length_zipWith, same, Nat.min_self]
  have idle : List.Forall₂ (Within 1) (Vector.zeros 8 : List Float)
      (List.replicate 8 (point 0)) := by
    have zero : Within 1 0 (point 0) := (within_point 0).mono (by omega)
    exact .cons zero (.cons zero (.cons zero (.cons zero (.cons zero (.cons zero (.cons zero
      (.cons zero .nil)))))))
  obtain ⟨joined, lanes, eight, total⟩ := within_runLanes (x.length / 8) idle List.length_replicate
    products (by omega) le_rfl
  have halves := within_add (List.forall₂_take 4 lanes) (List.forall₂_drop 4 lanes) le_rfl
  have rest := List.forall₂_drop (8 * (x.length / 8)) products
  rw [List.drop_zipWith] at rest
  have zero : Within (1 + x.length / 8 + 1) 0 (point 0) := (within_point 0).mono (by omega)
  have start := within_foldl halves zero le_rfl
  have whole := within_foldl rest start (by omega)
  have number := lanes.length_eq.trans eight
  have depth : 1 + x.length / 8 + 1 + (Vector.add
        ((Vector.runLanes (x.length / 8) (Vector.zeros 8) x y).take 4)
        ((Vector.runLanes (x.length / 8) (Vector.zeros 8) x y).drop 4)).length +
      (List.zipWith (· * ·) (x.drop (8 * (x.length / 8))) (y.drop (8 * (x.length / 8)))).length ≤
        x.length + 6 := by
    rw [Vector.length_add, List.length_take, List.length_drop, number, List.length_zipWith,
      List.length_drop, List.length_drop]
    omega
  have sum : point 0 + (List.zipWith (· + ·) (joined.take 4) (joined.drop 4)).sum +
      ((List.zipWith (fun a b => times (point a) (point b)) x y).drop (8 * (x.length / 8))).sum =
        inner x y := by
    have four : (joined.take 4).length = (joined.drop 4).length := by
      rw [List.length_take, List.length_drop, eight]
      rfl
    rw [← List.sum_add_sum_eq_sum_zipWith_of_length_eq _ _ four, ← List.sum_append,
      List.take_append_drop, total, List.sum_replicate, inner,
      ← List.sum_take_add_sum_drop (List.zipWith _ x y) (8 * (x.length / 8))]
    abel
  rw [sum] at whole
  exact whole.mono depth

end Sums

section Lengths

/-- How long a vector is at most whose length is computed below a bound. -/
def reach (n : ℕ) (bound : ℚ) : ℚ := (1 + drift (2 * (n + 1))) * (bound + (n + 1) / 2 ^ 537)

theorem reach_nonneg (n : ℕ) {bound : ℚ} (sign : 0 ≤ bound) : 0 ≤ reach n bound := by
  have factor := drift_nonneg (2 * (n + 1))
  rw [reach]
  positivity

private theorem sum_sq_le {g : List Float} {s : Float} {e : ℚ} {j : ℕ} (some : 1 ≤ j)
    (finite : ((g.map Scalar.square).foldl (· + ·) s).isFinite = true) (sign : 0 ≤ value s)
    (start : e ≤ (1 + drift (2 * j)) * (value s + 2 * j * underflow)) :
    e + (g.map fun a => value a ^ 2).sum ≤ (1 + drift (2 * (j + g.length))) *
      (value ((g.map Scalar.square).foldl (· + ·) s) + 2 * (j + g.length) * underflow) := by
  induction g generalizing s e j with
  | nil => simpa using start
  | cons a g ih =>
    have next : (s + a * a).isFinite = true := isFinite_of_foldl_add finite
    obtain ⟨hs, product⟩ := isFinite_of_add next
    have ha := (isFinite_of_mul product).1
    have square := ((rounds_mul ha ha).near product).le_of_nonneg (mul_self_nonneg _)
    have positive := value_square_nonneg product
    have total := ((rounds_add hs product).near next).le_of_nonneg (add_nonneg sign positive)
    have least := underflow_pos
    have grown : e + value a ^ 2 ≤
        (1 + drift (2 * (j + 1))) * (value (s + a * a) + 2 * (j + 1 : ℕ) * underflow) := by
      have more : 1 + drift 2 ≤ 1 + drift (2 * j) := by linarith [drift_mono (show 2 ≤ 2 * j by omega)]
      have factor : 0 ≤ 1 + drift (2 * j) := add_nonneg zero_le_one (drift_nonneg _)
      have smaller : 2 * j * underflow + underflow ≤
          (1 + drift 2) * (2 * j * underflow + underflow) :=
        le_mul_of_one_le_left (by positivity) (le_add_of_nonneg_right (drift_nonneg 2))
      have step := drift_add (2 * j) 2
      push_cast
      calc e + value a ^ 2 ≤ (1 + drift (2 * j)) * (value s + 2 * j * underflow) +
            (1 + drift (2 * j)) * (value (a * a) + underflow) := by
            refine add_le_add start ?_
            rw [sq]
            exact square.trans (mul_le_mul_of_nonneg_right more (by linarith))
        _ = (1 + drift (2 * j)) * (value s + value (a * a) + (2 * j * underflow + underflow)) := by
          ring
        _ ≤ (1 + drift (2 * j)) * ((1 + drift 2) * (value (s + a * a) + underflow) +
            (1 + drift 2) * (2 * j * underflow + underflow)) := by
          exact mul_le_mul_of_nonneg_left (add_le_add total smaller) factor
        _ = (1 + drift (2 * (j + 1))) * (value (s + a * a) + 2 * (j + 1) * underflow) := by
          rw [Nat.mul_succ, step]
          ring
    have rest := ih (by omega) finite (sign.trans (value_le_add next positive)) grown
    rw [List.map_cons, List.sum_cons, ← add_assoc, List.length_cons]
    have count : j + (g.length + 1) = j + 1 + g.length := by omega
    rw [count]
    push_cast at rest ⊢
    have count' : (j : ℚ) + (g.length + 1) = j + 1 + g.length := by ring
    rw [count']
    exact rest

/-- What is computed below a bound is not far above it. -/
theorem sum_sq_le_of_norm_lt {g : List Float} {a : Float} (ha : a.isFinite = true)
    (sign : 0 ≤ value a) (small : Vector.norm g < a) :
    (∀ b ∈ g, b.isFinite = true) ∧
      (g.map fun b => value b ^ 2).sum ≤ reach g.length (value a) ^ 2 := by
  obtain ⟨finite, less⟩ := lt_sq_of_sqrt_lt ha small
  have none : value (-(0 : Float)) = 0 := by decide +kernel
  have squares : ∀ t ∈ g.map Scalar.square, t.isFinite = true → 0 ≤ value t := by
    intro t ht square
    obtain ⟨b, _, rfl⟩ := List.mem_map.mp ht
    exact value_square_nonneg square
  have parts := (le_foldl_add finite squares none.ge).2.2
  refine ⟨fun b hb => (isFinite_of_mul (parts _ (List.mem_map_of_mem hb)).1).1, ?_⟩
  have least := underflow_pos
  have start : 0 ≤ (1 + drift (2 * 1)) * (value (-0) + 2 * (1 : ℕ) * underflow) :=
    mul_nonneg (add_nonneg zero_le_one (drift_nonneg _)) (add_nonneg none.ge (by positivity))
  have whole := sum_sq_le le_rfl finite none.ge start
  have factor := drift_nonneg (2 * (g.length + 1))
  have place : (1 / 2 ^ 537 : ℚ) ^ 2 = 2 * underflow := by
    rw [one_div_pow, ← pow_mul, ← underflow_mul_pow (show 1 + 537 * 2 = 1075 from rfl), pow_one,
      mul_comm]
  rw [zero_add, Nat.add_comm 1] at whole
  rw [reach, mul_pow, ← mul_one_div]
  have short : (0 : ℚ) < 1 / 2 ^ 537 := by positivity
  generalize (1 / 2 ^ 537 : ℚ) = tail at place short ⊢
  generalize drift (2 * (g.length + 1)) = part at whole factor ⊢
  have many : (0 : ℚ) ≤ g.length := Nat.cast_nonneg _
  have apart : value a ^ 2 + 2 * ((1 : ℕ) + g.length) * underflow ≤
      (value a + (g.length + 1) * tail) ^ 2 := by
    have cross : 0 ≤ value a * ((g.length + 1) * tail) :=
      mul_nonneg sign (mul_nonneg (by positivity) short.le)
    have more : ((g.length : ℚ) + 1) * (2 * underflow) ≤ (g.length + 1) ^ 2 * tail ^ 2 := by
      rw [place, sq (_ + _)]
      refine mul_le_mul_of_nonneg_right ?_ (by positivity)
      exact le_mul_of_one_le_left (by positivity) (by linarith)
    push_cast
    linarith
  calc (g.map fun b => value b ^ 2).sum ≤ (1 + part) *
        (value a ^ 2 + 2 * ((1 : ℕ) + g.length) * underflow) :=
      whole.trans (mul_le_mul_of_nonneg_left (by linarith) (by linarith))
    _ ≤ (1 + part) ^ 2 * (value a + (g.length + 1) * tail) ^ 2 := by
      refine mul_le_mul ?_ apart (by positivity) (by positivity)
      exact le_self_pow₀ (by linarith) two_ne_zero

end Lengths

end RuleConsensus.Binary
