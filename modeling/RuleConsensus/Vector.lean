import RuleConsensus.Scalar

/-!
Vectors are lists of numbers. The order of every sum is fixed here once, because rounding makes
it visible: an inner product keeps eight running sums while eight products remain, joins them
crosswise, and then adds what is left one product at a time.
-/

set_option autoImplicit false
set_option relaxedAutoImplicit false

namespace RuleConsensus.Vector

variable {α : Type}

/-- A vector at a length. A single number stands at every position; otherwise the length has to be
that of the vector. -/
def stretch? (n : Nat) (x : List α) : Option (List α) :=
  if x.length = n then some x
  else
    match x with
    | [a] => some (List.replicate n a)
    | _ => none

theorem stretch?_of_length {n : Nat} {x : List α} (long : x.length = n) :
    stretch? n x = some x := by
  unfold stretch?
  rw [if_pos long]

theorem length_of_stretch? {n : Nat} {x y : List α} (found : stretch? n x = some y) :
    (x.length = n ∨ x.length = 1) ∧ y.length = n := by
  unfold stretch? at found
  split at found
  case isTrue long =>
    obtain rfl := Option.some.inj found
    exact ⟨.inl long, long⟩
  case isFalse =>
    split at found
    case h_1 a =>
      obtain rfl := Option.some.inj found
      exact ⟨.inr rfl, List.length_replicate⟩
    case h_2 => cases found

variable [Scalar α]

def add (x y : List α) : List α := List.zipWith (· + ·) x y

def sub (x y : List α) : List α := List.zipWith (· - ·) x y

/-- The difference of two vectors of one length, either of which may be a single number. -/
def sub? (x y : List α) : Option (List α) := do
  let n := if x.length = 1 then y.length else x.length
  let x ← stretch? n x
  let y ← stretch? n y
  pure (sub x y)

/-- Every entry times one number, the number on the right. -/
def scale (x : List α) (a : α) : List α := x.map (· * a)

def divide (x : List α) (a : α) : List α := x.map (· / a)

def zeros (n : Nat) : List α := List.replicate n 0

/-- Run the lanes over a number of blocks of eight products each. -/
def runLanes : Nat → List α → List α → List α → List α
  | 0, lanes, _, _ => lanes
  | n + 1, lanes, x, y =>
    runLanes n (add lanes (List.zipWith (· * ·) (x.take 8) (y.take 8))) (x.drop 8) (y.drop 8)

def dot (x y : List α) : α :=
  let blocks := x.length / 8
  let lanes := runLanes blocks (zeros 8) x y
  let joined := (add (lanes.take 4) (lanes.drop 4)).foldl (· + ·) 0
  (List.zipWith (· * ·) (x.drop (8 * blocks)) (y.drop (8 * blocks))).foldl (· + ·) joined

/-- The Euclidean length, squares summed in index order. The empty sum is minus zero. -/
def norm (x : List α) : α :=
  Scalar.sqrt ((x.map Scalar.square).foldl (· + ·) (-0))

def maxAbs (x : List α) : α :=
  x.foldl (fun m c => Scalar.larger m (Scalar.abs c)) 0

def firstNonFinite? (x : List α) : Option (Nat × α) :=
  (x.zipIdx.find? fun entry => !Scalar.isFinite entry.1).map fun entry => (entry.2, entry.1)

@[simp] theorem length_add (x y : List α) : (add x y).length = min x.length y.length := by
  simp [add]

@[simp] theorem length_sub (x y : List α) : (sub x y).length = min x.length y.length := by
  simp [sub]

theorem sub?_of_length_eq {x y : List α} (same : x.length = y.length) :
    sub? x y = some (sub x y) := by
  have stretched : stretch? y.length x = some x ∧ stretch? y.length y = some y :=
    ⟨stretch?_of_length same, stretch?_of_length rfl⟩
  simp [sub?, same, stretched]

theorem length_of_sub? {x y d : List α} (found : sub? x y = some d) :
    x.length = 1 ∧ d.length = y.length ∨
      x.length ≠ 1 ∧ d.length = x.length ∧ (y.length = x.length ∨ y.length = 1) := by
  simp only [sub?, Option.bind_eq_bind, Option.pure_def, Option.bind_eq_some_iff,
    Option.some.injEq] at found
  obtain ⟨x', hx, y', hy, rfl⟩ := found
  have left := length_of_stretch? hx
  have right := length_of_stretch? hy
  rw [length_sub, left.2, right.2, Nat.min_self]
  split at right
  case isTrue single =>
    rw [if_pos single]
    exact .inl ⟨single, rfl⟩
  case isFalse several =>
    rw [if_neg several]
    exact .inr ⟨several, rfl, right.1⟩

@[simp] theorem length_scale (x : List α) (a : α) : (scale x a).length = x.length := by
  simp [scale]

@[simp] theorem length_divide (x : List α) (a : α) : (divide x a).length = x.length := by
  simp [divide]

@[simp] theorem length_zeros (n : Nat) : (zeros n : List α).length = n := by
  simp [zeros]

theorem firstNonFinite?_eq_none_iff {x : List α} :
    firstNonFinite? x = none ↔ ∀ a ∈ x, Scalar.isFinite a = true := by
  simp only [firstNonFinite?, Option.map_eq_none_iff, List.find?_eq_none]
  constructor
  · intro h a ha
    obtain ⟨i, hi, rfl⟩ := List.getElem_of_mem ha
    have entry : (x[i], i) ∈ x.zipIdx := by
      simp [List.mem_zipIdx_iff_getElem?, hi]
    simpa using h _ entry
  · intro h entry member
    simpa using h entry.1 (List.fst_mem_of_mem_zipIdx member)

theorem firstNonFinite?_eq_some_iff {x : List α} {i : Nat} {a : α} :
    firstNonFinite? x = some (i, a) ↔
      x[i]? = some a ∧ Scalar.isFinite a = false ∧
        ∀ j < i, ∀ b, x[j]? = some b → Scalar.isFinite b = true := by
  simp only [firstNonFinite?, Option.map_eq_some_iff, List.find?_eq_some_iff_getElem, Prod.exists,
    List.getElem_zipIdx, List.length_zipIdx, Prod.mk.injEq]
  constructor
  · rintro ⟨_, _, ⟨broken, k, hk, ⟨rfl, rfl⟩, before⟩, hi, rfl⟩
    obtain rfl : k = i := by omega
    refine ⟨List.getElem?_eq_getElem hk, by simpa using broken, fun j hj b hb => ?_⟩
    obtain ⟨_, rfl⟩ := List.getElem?_eq_some_iff.mp hb
    simpa using before j hj
  · rintro ⟨entry, broken, before⟩
    obtain ⟨hi, rfl⟩ := List.getElem?_eq_some_iff.mp entry
    refine ⟨x[i], i, ⟨by simpa using broken, i, hi, ⟨rfl, by omega⟩, fun j hj => ?_⟩, rfl, rfl⟩
    simpa using before j hj x[j] (List.getElem?_eq_getElem (by omega))

end RuleConsensus.Vector
