import RuleConsensus.Decimal.Basic

set_option autoImplicit false
set_option relaxedAutoImplicit false

namespace RuleConsensus.Decimal

def toPlaces (places : Nat) (x : Float) : Decimal :=
  let v := (Dyadic.ofFloat x).toFraction
  ⟨(v.overPowerOfTen (-(places : Int))).round, -(places : Int)⟩

/-- The absolute value of a finite number to a positive number of leading digits. The coefficient
of a nonzero result has exactly that many digits. -/
def toLeading (digits : Nat) (x : Float) : Decimal :=
  let v := (Dyadic.ofFloat x).toFraction
  if v.num = 0 then ⟨0, 0⟩
  else
    let e := v.decade - digits + 1
    let c := (v.overPowerOfTen e).round
    if c = Nat.pow 10 digits then ⟨Nat.pow 10 (digits - 1), e + 1⟩ else ⟨c, e⟩

end RuleConsensus.Decimal
