import Mathlib.Algebra.BigOperators.Fin
import Mathlib.Analysis.Real.Sqrt
import Mathlib.LinearAlgebra.Matrix.DotProduct
import Mathlib.Tactic.Linarith
import RuleConsensus.Vector

/-!
Scalars read as real numbers. In exact arithmetic the order of a sum does not matter, so the inner
product with its eight lanes is the ordinary one. A vector of a known length is a list of
coordinates, and on coordinates every vector operation is the one of the function space.
-/

set_option autoImplicit false
set_option relaxedAutoImplicit false

namespace RuleConsensus

open Matrix

/-- Real numbers as scalars. All of them are finite. No real number is infinite, so the cost of a
broken hard rule is some positive number, of which nothing is used. -/
noncomputable instance exactScalar : Scalar ℝ where
  two := 2
  half := 1 / 2
  slack := 1 / 10 ^ 9
  infinity := 1
  sqrt := Real.sqrt
  abs := fun a => |a|
  isFinite := fun _ => true
  isNaN := fun _ => false
  text := fun _ => ""
  decLt := fun a b => Real.decidableLT a b
  decLe := fun a b => Real.decidableLE a b

namespace Scalar

@[simp] theorem two_real : (two : ℝ) = 2 := rfl

@[simp] theorem beq_real (a b : ℝ) : (a == b) = true ↔ a = b := beq_iff_eq

@[simp] theorem larger_real (a b : ℝ) : larger a b = max a b := by
  change (if b < a then a else if false = true then a else b) = max a b
  by_cases h : b < a
  · rw [if_pos h, max_eq_left h.le]
  · rw [if_neg h, if_neg (by simp), max_eq_right (not_lt.mp h)]

end Scalar

namespace Vector

private theorem sum_foldl (l : List ℝ) (a : ℝ) : l.foldl (· + ·) a = a + l.sum := by
  induction l generalizing a with
  | nil => simp
  | cons b l ih => rw [List.foldl_cons, ih, List.sum_cons, add_assoc]

private theorem sum_add {x y : List ℝ} (h : x.length = y.length) :
    (add x y).sum = x.sum + y.sum := by
  induction x generalizing y with
  | nil =>
    have hy : y = [] := List.length_eq_zero_iff.mp h.symm
    simp [add, hy]
  | cons a x ih =>
    cases y with
    | nil => simp at h
    | cons b y =>
      have hl : x.length = y.length := by simpa using h
      have hs : (List.zipWith (· + ·) x y).sum = x.sum + y.sum := ih hl
      simp only [add, List.zipWith_cons_cons, List.sum_cons, hs]
      ring

private theorem runLanes_spec (n : ℕ) {lanes x y : List ℝ} (hl : lanes.length = 8)
    (hx : 8 * n ≤ x.length) (hy : 8 * n ≤ y.length) :
    (runLanes n lanes x y).length = 8 ∧
      (runLanes n lanes x y).sum =
        lanes.sum + (List.zipWith (· * ·) (x.take (8 * n)) (y.take (8 * n))).sum := by
  induction n generalizing lanes x y with
  | zero => simp [runLanes, hl]
  | succ n ih =>
    let products := List.zipWith (fun a b : ℝ => a * b) (x.take 8) (y.take 8)
    have hp : products.length = 8 := by simp [products]; omega
    have hn : (add lanes products).length = 8 := by simp [hl, hp]
    obtain ⟨hlen, hsum⟩ := ih hn (x := x.drop 8) (y := y.drop 8)
      (by simp; omega) (by simp; omega)
    refine ⟨hlen, ?_⟩
    have hsplit : List.zipWith (fun a b : ℝ => a * b) (x.take (8 * (n + 1)))
        (y.take (8 * (n + 1))) = products ++
          List.zipWith (· * ·) ((x.drop 8).take (8 * n)) ((y.drop 8).take (8 * n)) := by
      rw [show 8 * (n + 1) = 8 + 8 * n by ring, List.take_add, List.take_add,
        List.zipWith_append (by simp; omega)]
    rw [hsplit, List.sum_append, ← add_assoc, ← sum_add (by rw [hl, hp])]
    exact hsum

/-- In exact arithmetic the lanes of an inner product do not show. -/
theorem dot_eq_sum {x y : List ℝ} (h : x.length = y.length) :
    dot x y = (List.zipWith (· * ·) x y).sum := by
  have hn : 8 * (x.length / 8) ≤ x.length := Nat.mul_div_le x.length 8
  obtain ⟨hlen, hsum⟩ := runLanes_spec (x.length / 8)
    (show (zeros 8 : List ℝ).length = 8 by simp) hn (show 8 * (x.length / 8) ≤ y.length by omega)
  have hzero : (zeros 8 : List ℝ).sum = 0 := by simp [zeros]
  rw [hzero, zero_add] at hsum
  have hjoin : (add ((runLanes (x.length / 8) (zeros 8) x y).take 4)
      ((runLanes (x.length / 8) (zeros 8) x y).drop 4)).sum =
        (runLanes (x.length / 8) (zeros 8) x y).sum := by
    rw [sum_add (by simp [hlen]), ← List.sum_append, List.take_append_drop]
  have hall : List.zipWith (fun a b : ℝ => a * b) x y =
      List.zipWith (· * ·) (x.take (8 * (x.length / 8))) (y.take (8 * (x.length / 8))) ++
        List.zipWith (· * ·) (x.drop (8 * (x.length / 8))) (y.drop (8 * (x.length / 8))) := by
    rw [← List.zipWith_append (by simp [h]), List.take_append_drop, List.take_append_drop]
  change (List.zipWith (fun a b : ℝ => a * b) _ _).foldl (fun a b => a + b)
    ((add _ _).foldl (fun a b => a + b) 0) = _
  rw [sum_foldl, sum_foldl, hjoin, hsum, hall, List.sum_append, zero_add]

theorem norm_eq_sqrt (x : List ℝ) : norm x = Real.sqrt (dot x x) := by
  have squares : (x.map Scalar.square).foldl (· + ·) (-0) = dot x x := by
    rw [sum_foldl, neg_zero, zero_add, dot_eq_sum rfl, List.zipWith_self]
    rfl
  rw [norm, squares]
  rfl

def neg (x : List ℝ) : List ℝ := x.map fun a => -a

noncomputable def gap (x y : List ℝ) : ℝ := dot (sub x y) (sub x y)

section Coordinates

variable {n : ℕ}

theorem zipWith_ofFn {α β γ : Type} (op : α → β → γ) (f : Fin n → α) (g : Fin n → β) :
    List.zipWith op (List.ofFn f) (List.ofFn g) = List.ofFn fun i => op (f i) (g i) := by
  apply List.ext_getElem
  · simp
  · intro i hi hj
    simp

theorem coordinates (x : List ℝ) : ∃ (n : ℕ) (f : Fin n → ℝ), x.length = n ∧ x = List.ofFn f :=
  ⟨x.length, x.get, rfl, (List.ofFn_get x).symm⟩

theorem exists_coordinates {α : Type} {x : List α} (h : x.length = n) :
    ∃ f : Fin n → α, x = List.ofFn f := by
  subst h
  exact ⟨x.get, (List.ofFn_get x).symm⟩

@[simp] theorem add_ofFn (f g : Fin n → ℝ) :
    add (List.ofFn f) (List.ofFn g) = List.ofFn (f + g) := zipWith_ofFn (· + ·) f g

@[simp] theorem sub_ofFn (f g : Fin n → ℝ) :
    sub (List.ofFn f) (List.ofFn g) = List.ofFn (f - g) := zipWith_ofFn (· - ·) f g

@[simp] theorem scale_ofFn (f : Fin n → ℝ) (a : ℝ) :
    scale (List.ofFn f) a = List.ofFn (a • f) := by
  apply List.ext_getElem
  · simp
  · intro i hi hj
    simpa [scale] using mul_comm _ a

@[simp] theorem divide_ofFn (f : Fin n → ℝ) (a : ℝ) :
    divide (List.ofFn f) a = List.ofFn (a⁻¹ • f) := by
  apply List.ext_getElem
  · simp
  · intro i hi hj
    simpa [divide] using div_eq_inv_mul _ a

@[simp] theorem zeros_ofFn : (zeros n : List ℝ) = List.ofFn (0 : Fin n → ℝ) := by
  apply List.ext_getElem
  · simp
  · intro i hi hj
    simp [zeros]

@[simp] theorem dot_ofFn (f g : Fin n → ℝ) : dot (List.ofFn f) (List.ofFn g) = f ⬝ᵥ g := by
  rw [dot_eq_sum (by simp), zipWith_ofFn, List.sum_ofFn]
  rfl

private theorem dotProduct_self_nonneg (f : Fin n → ℝ) : 0 ≤ f ⬝ᵥ f :=
  Finset.sum_nonneg fun i _ => mul_self_nonneg (f i)

@[simp] theorem neg_ofFn (f : Fin n → ℝ) : neg (List.ofFn f) = List.ofFn (-f) := List.map_ofFn

@[simp] theorem gap_ofFn (f g : Fin n → ℝ) :
    gap (List.ofFn f) (List.ofFn g) = (f - g) ⬝ᵥ (f - g) := by
  rw [gap, sub_ofFn, dot_ofFn]

theorem dot_sub_sub {x x' y y' : List ℝ} (hx : x.length = n) (hx' : x'.length = n)
    (hy : y.length = n) (hy' : y'.length = n) :
    dot (sub x x') (sub y y') = dot x y - dot x y' - dot x' y + dot x' y' := by
  obtain ⟨f, rfl⟩ := exists_coordinates hx
  obtain ⟨f', rfl⟩ := exists_coordinates hx'
  obtain ⟨g, rfl⟩ := exists_coordinates hy
  obtain ⟨g', rfl⟩ := exists_coordinates hy'
  simp only [sub_ofFn, dot_ofFn, sub_dotProduct, dotProduct_sub]
  ring

theorem dot_self_nonneg (x : List ℝ) : 0 ≤ dot x x := by
  obtain ⟨n, f, _, rfl⟩ := coordinates x
  rw [dot_ofFn]
  exact dotProduct_self_nonneg f

theorem dot_self_eq_zero_iff {x : List ℝ} : dot x x = 0 ↔ ∀ a ∈ x, a = 0 := by
  obtain ⟨n, f, _, rfl⟩ := coordinates x
  rw [dot_ofFn, dotProduct_self_eq_zero, List.forall_mem_ofFn_iff]
  exact funext_iff

theorem gap_nonneg (x y : List ℝ) : 0 ≤ gap x y := dot_self_nonneg _

theorem gap_self (x : List ℝ) : gap x x = 0 := by
  obtain ⟨n, f, _, rfl⟩ := coordinates x
  rw [gap_ofFn, sub_self, zero_dotProduct]

theorem eq_of_gap_nonpos {x y : List ℝ} (h : x.length = y.length) (near : gap x y ≤ 0) :
    x = y := by
  obtain ⟨n, f, hn, rfl⟩ := coordinates x
  obtain ⟨g, rfl⟩ := exists_coordinates (h.symm.trans hn)
  rw [gap_ofFn] at near
  have same : f - g = 0 :=
    dotProduct_self_eq_zero.mp (le_antisymm near (dotProduct_self_nonneg _))
  rw [sub_eq_zero.mp same]

theorem eq_of_mul_gap_nonpos {x y : List ℝ} {r : ℝ} (positive : 0 < r)
    (h : x.length = y.length) (near : r * gap x y ≤ 0) : x = y :=
  eq_of_gap_nonpos h (nonpos_of_mul_nonpos_right near positive)

end Coordinates

end Vector

end RuleConsensus
