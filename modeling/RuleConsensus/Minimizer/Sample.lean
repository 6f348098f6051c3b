import RuleConsensus.Minimizer.Objective

/-!
Sample objectives to try a minimiser on: separable ones around a centre, a linear one, the banana
function, and a constant. A sample may be walled in, keep its gradient to itself, or give a wrong
one. Sums run from zero in index order, products from left to right.
-/

set_option autoImplicit false
set_option relaxedAutoImplicit false

namespace RuleConsensus.Sample

inductive Shape
  | quadratic (weights centre : List Float)
  | quartic (weights centre : List Float)
  | pseudoHuber (weights centre : List Float)
  | absolute (weights centre : List Float)
  | linear (weights : List Float)
  | banana
  | constant (value : Float)

def sum (xs : List Float) : Float := xs.foldl (· + ·) 0.0

/-- A term for each weight and offset from the centre. -/
def separable (term : Float → Float → Float) (weights centre x : List Float) : List Float :=
  List.zipWith (fun w d => term w d) weights (Vector.sub x centre)

/-- The terms of the banana function, one for each pair of neighbours. -/
def bananaTerms : List Float → List Float
  | x :: y :: rest =>
    let a := 1.0 - x
    let b := y - x * x
    (a * a + 100.0 * b * b) :: bananaTerms (y :: rest)
  | _ => []

def bananaGradient (carried : Float) : List Float → List Float
  | x :: y :: rest =>
    let a := 1.0 - x
    let b := y - x * x
    (carried + (-2.0 * a - 400.0 * x * b)) :: bananaGradient (0.0 + 200.0 * b) (y :: rest)
  | [_] => [carried]
  | [] => []

namespace Shape

def value (x : List Float) : Shape → Float
  | quadratic w c => sum (separable (fun w d => w * d * d) w c x)
  | quartic w c => sum (separable (fun w d => w * d * d * d * d) w c x)
  | pseudoHuber w c => sum (separable (fun w d => w * ((1.0 + d * d).sqrt - 1.0)) w c x)
  | absolute w c => sum (separable (fun w d => w * d.abs) w c x)
  | linear w => sum (List.zipWith (· * ·) w x)
  | banana => sum (bananaTerms x)
  | constant v => v

def gradient (x : List Float) : Shape → List Float
  | quadratic w c => separable (fun w d => 2.0 * w * d) w c x
  | quartic w c => separable (fun w d => 4.0 * w * d * d * d) w c x
  | pseudoHuber w c => separable (fun w d => w * d / (1.0 + d * d).sqrt) w c x
  | absolute w c =>
    separable (fun w d => if 0.0 < d then w else if d < 0.0 then -w else 0.0) w c x
  | linear w => w
  | banana => bananaGradient 0.0 x
  | constant _ => Vector.zeros x.length

end Shape

inductive GradientMode
  | known
  | unknown
  | fixed (g : List Float)
  | failing (text : String)

/-- A box outside of which the value is another one, or fails. -/
structure Wall where
  low : Float
  high : Float
  beyond : Except String Float

def Wall.excludes (wall : Wall) (x : List Float) : Bool :=
  x.any fun v => v < wall.low || wall.high < v

def walled (f : Objective Float) (wall : Option Wall) : Objective Float :=
  match wall with
  | none => f
  | some wall =>
    { f with value := fun x =>
        if wall.excludes x then
          match wall.beyond with
          | .ok v => .ok v
          | .error text => .error (.objectiveFailed text)
        else f.value x }

def withGradient (f : Objective Float) (mode : GradientMode) : Objective Float :=
  { f with gradient := fun x =>
      match mode with
      | .known => f.gradient x
      | .unknown => .error .gradientNotImplemented
      | .fixed g => .ok g
      | .failing text => .error (.objectiveFailed text) }

def unchecked (f : Objective Float) : Objective Float := { f with check := fun _ => .ok () }

def Shape.objective (shape : Shape) : Objective Float :=
  ⟨fun x => .ok (shape.value x), fun x => .ok (shape.gradient x), Objective.checkSeed⟩

end RuleConsensus.Sample
