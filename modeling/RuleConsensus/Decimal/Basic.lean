set_option autoImplicit false
set_option relaxedAutoImplicit false

namespace RuleConsensus

/-- The number `coefficient * 10 ^ exponent`. -/
structure Decimal where
  coefficient : Nat
  exponent : Int
  deriving DecidableEq, Repr

/-- The number `coefficient * 2 ^ exponent`. -/
structure Dyadic where
  coefficient : Nat
  exponent : Int
  deriving DecidableEq, Repr

structure Fraction where
  num : Nat
  den : Nat
  deriving DecidableEq, Repr

namespace Dyadic

/-- The absolute value of a finite binary64 number, read off its bits. -/
def ofFloat (x : Float) : Dyadic :=
  let bits := x.toBits.toNat
  let biased : Nat := bits / Nat.pow 2 52 % Nat.pow 2 11
  let trailing : Nat := bits % Nat.pow 2 52
  if biased = 0 then ⟨trailing, -1074⟩ else ⟨Nat.pow 2 52 + trailing, (biased : Int) - 1075⟩

def toFraction (d : Dyadic) : Fraction :=
  if 0 ≤ d.exponent then ⟨d.coefficient * Nat.pow 2 d.exponent.toNat, 1⟩
  else ⟨d.coefficient, Nat.pow 2 (-d.exponent).toNat⟩

/-- The same number written out in decimal, which is always possible. -/
def toDecimal (d : Dyadic) : Decimal :=
  if 0 ≤ d.exponent then ⟨d.coefficient * Nat.pow 2 d.exponent.toNat, 0⟩
  else ⟨d.coefficient * Nat.pow 5 (-d.exponent).toNat, d.exponent⟩

end Dyadic

namespace Fraction

def overPowerOfTen (v : Fraction) (e : Int) : Fraction :=
  if 0 ≤ e then ⟨v.num, v.den * Nat.pow 10 e.toNat⟩
  else ⟨v.num * Nat.pow 10 (-e).toNat, v.den⟩

/-- The exponent of the greatest power of ten that is at most a positive fraction. -/
def decade (v : Fraction) : Int :=
  if v.den ≤ v.num then ((Nat.toDigits 10 (v.num / v.den)).length : Int) - 1
  else
    let length := (Nat.toDigits 10 (v.den / v.num)).length
    if v.num * Nat.pow 10 (length - 1) = v.den then 1 - (length : Int) else -(length : Int)

/-- The nearest whole number; a half goes to the even neighbour. -/
def round (v : Fraction) : Nat :=
  let below := v.num / v.den
  let rest := 2 * (v.num % v.den)
  if rest < v.den then below
  else if v.den < rest then below + 1
  else below + below % 2

end Fraction

namespace Decimal

/-- The nearest binary64 number, infinity beyond the largest one. -/
def toFloat (d : Decimal) : Float :=
  Float.ofModel (Float.Model.ofScientific d.coefficient d.exponent)

def trimUpTo : Nat → Decimal → Decimal
  | 0, d => d
  | n + 1, d =>
    if d.coefficient % 10 = 0 then trimUpTo n ⟨d.coefficient / 10, d.exponent + 1⟩ else d

/-- The same number with no trailing zero in its coefficient, zero as it is. -/
def trim (d : Decimal) : Decimal :=
  if d.coefficient = 0 then d else trimUpTo (Nat.toDigits 10 d.coefficient).length d

end Decimal

end RuleConsensus
