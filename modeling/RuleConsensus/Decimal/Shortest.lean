import RuleConsensus.Decimal.Basic

/-!
The shortest decimal that stands for a given binary number. For one digit, two digits and so on,
the two neighbours of the number on that decimal grid are put to a test; the first grid with a hit
wins, and of two hits the nearer. With reading back as the test, seventeen digits suffice for a
binary64 number. The number written out in full stands behind the grids, so that a test which that
passes is passed by the result.
-/

set_option autoImplicit false
set_option relaxedAutoImplicit false

namespace RuleConsensus.Decimal

/-- Which of two equally near decimals is taken. -/
inductive Tie
  | up | even
  deriving DecidableEq, Repr

/-- Whether the upper neighbour `below + 1` of a fraction on the unit grid is the one to take. -/
def Tie.takesUpper (tie : Tie) (v : Fraction) : Bool :=
  let below := v.num / v.den
  let rest := 2 * (v.num % v.den)
  if rest = v.den then
    match tie with
    | .up => true
    | .even => below % 2 == 1
  else v.den < rest

/-- The neighbours of a fraction with a given number of digits, the nearer one first. -/
def neighbours (tie : Tie) (v : Fraction) (digits : Nat) : List Decimal :=
  let e := v.decade - digits + 1
  let scaled := v.overPowerOfTen e
  let lower := trim ⟨scaled.num / scaled.den, e⟩
  let upper := trim ⟨scaled.num / scaled.den + 1, e⟩
  if tie.takesUpper scaled then [upper, lower] else [lower, upper]

def hit? (tie : Tie) (passes : Decimal → Bool) (v : Fraction) (digits : Nat) : Option Decimal :=
  (neighbours tie v digits).find? passes

/-- The shortest decimal that passes a test, for an exact number. -/
def shortest (tie : Tie) (passes : Decimal → Bool) (exact : Dyadic) : Decimal :=
  let v := exact.toFraction
  ((List.range 17).findSome? fun n => hit? tie passes v (n + 1)).getD exact.toDecimal.trim

/-- The shortest decimal passes a test that the number written out in full passes. -/
theorem passes_shortest {tie : Tie} {passes : Decimal → Bool} {exact : Dyadic}
    (h : passes exact.toDecimal.trim = true) : passes (shortest tie passes exact) = true := by
  cases found : (List.range 17).findSome? fun n => hit? tie passes exact.toFraction (n + 1) with
  | none => simpa [shortest, found] using h
  | some d =>
    obtain ⟨n, -, hit⟩ := List.exists_of_findSome?_eq_some found
    simpa [shortest, found] using List.find?_some hit

end RuleConsensus.Decimal
