import RuleConsensus.Decimal.Numeral

/-!
The numbers a local solve works on. One class collects the operations and tests that the
solvers use, so that each solver is written once and can be read both in binary64 and in exact
arithmetic. Nothing is assumed about the operations here.
-/

set_option autoImplicit false
set_option relaxedAutoImplicit false

namespace RuleConsensus

/-- The operations and tests of a number system, without laws. The constants are the ones the
solvers name: two, a half, the slack of a hard rule, and the cost of a broken one. The text is
what messages write. -/
class Scalar (α : Type) extends
    Add α, Sub α, Mul α, Div α, Neg α, Zero α, One α, LT α, LE α, BEq α where
  two : α
  half : α
  slack : α
  infinity : α
  sqrt : α → α
  abs : α → α
  isFinite : α → Bool
  isNaN : α → Bool
  text : α → String
  decLt : (a b : α) → Decidable (a < b)
  decLe : (a b : α) → Decidable (a ≤ b)

namespace Scalar

variable {α : Type} [Scalar α]

instance (a b : α) : Decidable (a < b) := decLt a b

instance (a b : α) : Decidable (a ≤ b) := decLe a b

/-- The larger of two numbers. An undefined operand is ignored. -/
def larger (a b : α) : α :=
  if b < a then a else if isNaN b then a else b

def smaller (a b : α) : α :=
  if a < b then a else if isNaN b then a else b

def square (a : α) : α := a * a

end Scalar

instance : Scalar Float where
  zero := 0.0
  one := 1.0
  two := 2.0
  half := 0.5
  slack := 1e-9
  infinity := Float.ofBits 0x7ff0000000000000
  sqrt := Float.sqrt
  abs := Float.abs
  isFinite := Float.isFinite
  isNaN := Float.isNaN
  text := messageText
  decLt := inferInstance
  decLe := inferInstance

end RuleConsensus
