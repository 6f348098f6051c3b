import RuleConsensus.Term.Error
import RuleConsensus.Vector

set_option autoImplicit false
set_option relaxedAutoImplicit false

namespace RuleConsensus

variable {α : Type}

def checkArity (arity : Nat) : Except (TermError α) Unit :=
  if arity = 0 then .error .emptyBlock else .ok ()

def checkLength (what : String) (expected found : Nat) : Except (TermError α) Unit :=
  if expected ≠ found then .error (.dimensionMismatch what expected found) else .ok ()

/-- Two entries of an index map that name the same global entry. -/
structure Alias where
  index : Nat
  first : Nat
  second : Nat
  deriving DecidableEq, Repr

/-- The first entry that repeats an earlier one, with the entries before it at hand. -/
def aliasAfter? (seen : List Nat) : List Nat → Option Alias
  | [] => none
  | i :: rest =>
    match seen.idxOf? i with
    | some first => some ⟨i, first, seen.length⟩
    | none => aliasAfter? (seen ++ [i]) rest

def firstAlias? (indices : List Nat) : Option Alias := aliasAfter? [] indices

/-- An index map has one entry for each local variable, all of them different. -/
def checkIndices (indices : List Nat) (arity : Nat) : Except (TermError α) Unit := do
  checkLength "z_indices" arity indices.length
  match firstAlias? indices with
  | some a => throw (.duplicateIndex a.index a.first a.second)
  | none => pure ()

variable [Scalar α]

def checkStepSize (rho : α) : Except (TermError α) Unit :=
  if !Scalar.isFinite rho || rho ≤ 0 then .error (.invalidStepSize rho) else .ok ()

def checkWeight (weight : α) : Except (TermError α) Unit :=
  if Scalar.isNaN weight then .error (.invalidWeight weight "Weight must not be NaN.")
  else if weight < 0 then .error (.invalidWeight weight "Weight must be non-negative.")
  else .ok ()

/-- The weight of a soft rule is also finite. -/
def checkSoftWeight (weight : α) : Except (TermError α) Unit := do
  checkWeight weight
  if Scalar.isFinite weight then pure ()
  else throw (.invalidWeight weight
    "Soft-rule weight must be finite; hard rules use a linear constraint.")

def checkSquaredScale (weight : α) (coefficients : List α) (constant : α) :
    Except (TermError α) Unit :=
  let twice := Scalar.two * weight
  let curvature := twice * Vector.dot coefficients coefficients
  let forcing := twice * Scalar.abs constant * Vector.maxAbs coefficients
  if Scalar.isFinite curvature && Scalar.isFinite forcing then .ok ()
  else .error (.invalidWeight weight
    "Weight is too large: 2w·‖c‖² or 2w·|k|·|c| overflows.")

def checkLinearScale (weight : α) (coefficients : List α) (stepSize : α) :
    Except (TermError α) Unit :=
  if Scalar.isFinite (weight / stepSize * Vector.maxAbs coefficients) then .ok ()
  else .error (.invalidWeight weight "Weight is too large: (w/ρ)·|c| overflows.")

def checkSolution (termId : Nat) (x : List α) : Except (TermError α) Unit :=
  match Vector.firstNonFinite? x with
  | some (index, value) => .error (.nonFiniteSolution termId index value)
  | none => .ok ()

def checkCoefficients (c : List α) : Except (TermError α) Unit :=
  match Vector.firstNonFinite? c with
  | some (index, value) => .error (.invalidCoefficient index value)
  | none => .ok ()

def checkConstant (k : α) : Except (TermError α) Unit :=
  if Scalar.isFinite k then .ok () else .error (.invalidConstant k)

def checkLocalVector (what : String) (v : List α) (expected : Nat) :
    Except (TermError α) Unit := do
  checkLength what expected v.length
  match Vector.firstNonFinite? v with
  | some (index, value) => throw (.nonFiniteInput what index value)
  | none => pure ()

end RuleConsensus
