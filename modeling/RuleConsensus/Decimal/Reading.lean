import RuleConsensus.Decimal.Numeral

/-!
How documents read a number. The leading digits that fit 64 bits are taken as a whole number, which
is then multiplied or divided by a power of ten in binary64 arithmetic. Every step rounds, so that
the result can miss the nearest number by its last places; whole numbers of 64 bits, and short
decimals with a small exponent, are met exactly.
-/

set_option autoImplicit false
set_option relaxedAutoImplicit false

namespace RuleConsensus

/-- Append digits to a number as long as it fits 64 bits. Gives the digits left over too. -/
def appendDigits (n : Nat) : List Char → Nat × List Char
  | [] => (n, [])
  | c :: cs =>
    let next := Nat.ofDigitChars 10 [c] n
    if next < UInt64.size then appendDigits next cs else (n, c :: cs)

/-- The leading digits with the power of ten that they stand for. Whole digits left over raise the
power, digits taken from the fraction lower it. -/
def Numeral.leading (n : Numeral) : Decimal :=
  let (whole, dropped) := appendDigits 0 n.whole
  let (digits, rest) := appendDigits whole n.fraction
  ⟨digits, n.exponentValue + dropped.length - (n.fraction.length - rest.length : Nat)⟩

def powerOfTen (e : Nat) : Float := (⟨1, e⟩ : Decimal).toFloat

/-- Scale a number by a power of ten. A step never goes beyond `10 ^ 308`, the greatest power
of ten there is: a smaller power takes several steps, a greater one is refused unless the number is
zero. -/
def timesPowerOfTen? (x : Float) (e : Int) : Option Float :=
  if 0 ≤ e then
    if e ≤ 308 then
      let y := x * powerOfTen e.toNat
      if y.isFinite then some y else none
    else if x == 0.0 then some x else none
  else if -308 ≤ e then some (x / powerOfTen (-e).toNat)
  else if x == 0.0 then some x
  else timesPowerOfTen? (x / powerOfTen 308) (e + 308)
  termination_by (-e).toNat
  decreasing_by omega

/-- The number that a document means by a numeral, none if it is too large. -/
def Numeral.read? (n : Numeral) : Option Float :=
  (timesPowerOfTen? (⟨n.leading.coefficient, 0⟩ : Decimal).toFloat n.leading.exponent).map fun x =>
    if n.negative then -x else x

end RuleConsensus
