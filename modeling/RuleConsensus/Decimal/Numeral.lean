import RuleConsensus.Decimal.Rounded
import RuleConsensus.Decimal.Shortest

/-!
Written numbers. A numeral keeps the digits as they stand, apart from the value they denote; a
layout decides how a number is set down as a numeral. The four layouts at the end are the ones
the program writes: in messages, in answers, in documents, and in its log.
-/

set_option autoImplicit false
set_option relaxedAutoImplicit false

namespace RuleConsensus

inductive ExponentSign
  | none | plus | minus
  deriving DecidableEq, Repr

/-- The digits of a written number: whole part, fraction, and exponent. -/
structure Numeral where
  negative : Bool
  whole : List Char
  fraction : List Char
  exponent : Option (ExponentSign × List Char)
  deriving DecidableEq, Repr

namespace ExponentSign

def chars : ExponentSign → List Char
  | none => []
  | plus => ['+']
  | minus => ['-']

end ExponentSign

namespace Numeral

def chars (n : Numeral) : List Char :=
  (if n.negative then ['-'] else []) ++ n.whole ++
    (if n.fraction.isEmpty then [] else '.' :: n.fraction) ++
    (match n.exponent with
    | some (sign, digits) => 'e' :: (sign.chars ++ digits)
    | none => [])

/-- The written exponent, zero if there is none. -/
def exponentValue (n : Numeral) : Int :=
  match n.exponent with
  | some (.minus, digits) => -(Nat.ofDigitChars 10 digits 0 : Int)
  | some (_, digits) => Nat.ofDigitChars 10 digits 0
  | none => 0

def magnitude (n : Numeral) : Decimal :=
  ⟨Nat.ofDigitChars 10 (n.whole ++ n.fraction) 0, n.exponentValue - n.fraction.length⟩

def toFloat (n : Numeral) : Float :=
  if n.negative then -n.magnitude.toFloat else n.magnitude.toFloat

def isWhole (n : Numeral) : Bool := n.fraction.isEmpty && n.exponent.isNone

def ofNat (n : Nat) : Numeral := ⟨false, Nat.toDigits 10 n, [], none⟩

/-- A decimal set down without an exponent, all its places written. -/
def positional (negative : Bool) (d : Decimal) : Numeral :=
  let digits := Nat.toDigits 10 d.coefficient
  if 0 ≤ d.exponent then
    ⟨negative, if d.coefficient = 0 then ['0']
      else digits ++ List.replicate d.exponent.toNat '0', [], none⟩
  else
    let places := (-d.exponent).toNat
    let padded := List.replicate (places + 1 - digits.length) '0' ++ digits
    ⟨negative, padded.take (padded.length - places), padded.drop (padded.length - places), none⟩

/-- A decimal set down with one digit before the point and an exponent, which carries a sign if it
is negative or if `signed`. -/
def scientific (negative signed : Bool) (d : Decimal) : Numeral :=
  let digits := Nat.toDigits 10 d.coefficient
  let e := d.exponent + digits.length - 1
  let sign := if e < 0 then ExponentSign.minus else if signed then .plus else .none
  ⟨negative, digits.take 1, digits.drop 1, some (sign, Nat.toDigits 10 e.natAbs)⟩

/-- A whole numeral with one zero after the point, any other as it is. -/
def withPoint (n : Numeral) : Numeral :=
  if n.isWhole then { n with fraction := ['0'] } else n

end Numeral

/-- How a number is set down: which leading exponents are written out in places, whether a whole
number keeps a zero after the point, whether every exponent carries a sign, and which of two
equally near shortest decimals is taken. -/
structure Layout where
  places : Int → Bool
  point : Bool
  signedExponent : Bool
  tie : Decimal.Tie

namespace Layout

def setDown (layout : Layout) (negative : Bool) (d : Decimal) : Numeral :=
  let leading := d.exponent + (Nat.toDigits 10 d.coefficient).length - 1
  if d.coefficient = 0 || layout.places leading then
    let n := Numeral.positional negative d
    if layout.point then n.withPoint else n
  else Numeral.scientific negative layout.signedExponent d

/-- Whether a decimal, set down in a layout, reads back as a number that is not negative. -/
def readsBack (layout : Layout) (x : Float) (d : Decimal) : Bool :=
  (layout.setDown false d).toFloat.toBits == x.toBits

/-- The numeral of a finite number with the fewest digits that read back. -/
def numeral (layout : Layout) (x : Float) : Numeral :=
  let exact := Dyadic.ofFloat x
  let d := if exact.coefficient = 0 then ⟨0, 0⟩
    else Decimal.shortest layout.tie (layout.readsBack x.abs) exact
  layout.setDown (x.toBits >>> 63 == 1) d

def text (layout : Layout) (x : Float) : String :=
  if x.isNaN then "NaN"
  else if x.isFinite then String.ofList (layout.numeral x).chars
  else if x < 0 then "-inf" else "inf"

/-- Messages write every number out in places, a whole one without a point. -/
def message : Layout := ⟨fun _ => true, false, false, .up⟩

/-- Answers write numbers from `1e-4` up to `1e16` in places, with a point. -/
def answer : Layout := ⟨fun e => -5 < e && e < 16, true, false, .up⟩

/-- Documents write numbers from `1e-5` up to `1e16` in places, with a point; other exponents
carry a sign. -/
def document : Layout := ⟨fun e => -6 < e && e < 16, true, true, .even⟩

end Layout

def messageText (x : Float) : String := Layout.message.text x

def placesText (places : Nat) (x : Float) : String :=
  if x.isFinite then
    String.ofList (Numeral.positional (x.toBits >>> 63 == 1) (Decimal.toPlaces places x)).chars
  else Layout.message.text x

def scientificText (places : Nat) (x : Float) : String :=
  if x.isFinite then
    let d := Decimal.toLeading (places + 1) x
    let shown : Decimal := if d.coefficient = 0 then ⟨0, 0⟩ else d
    let n := Numeral.scientific (x.toBits >>> 63 == 1) false shown
    String.ofList
      { n with fraction := n.fraction ++ List.replicate (places - n.fraction.length) '0' }.chars
  else Layout.message.text x

end RuleConsensus
