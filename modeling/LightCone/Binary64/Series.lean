import LightCone.Binary64.Basic

/-!
Values known past the digits of a number.

Sines, cosines and inverse sines of a few chosen values are summed as power series on a
fixed-point grid with 192 bits below the point, far finer than the last digit of a number.
This file

1. sums the series, as integers that count steps of the grid (`sineOnGrid`, `cosineOnGrid`,
   `inverseSineOnGrid`);
2. takes values off the grid, as the nearest number (`ofGrid`) or as a number and a correction
   to it (`Split`).
-/
namespace LightCone.Binary64

-- A power of naturals is the one of the core library, whatever else is in scope.
attribute [local instance (high)] instPowNat

/-- The bits below the point of the grid. -/
def gridBits : Nat := 192

def gridOne : Nat := 2 ^ gridBits

/-! ## Series -/

/-- The alternating sum `term - term·x²/(n+1)(n+2) + …`, until a term vanishes. -/
def alternatingSum (xSquared : Nat) : Nat → Nat → Nat → Int
  | 0, _, _ => 0
  | steps + 1, n, term =>
    if term = 0 then 0
    else term - alternatingSum xSquared steps (n + 2)
      (term * xSquared / (gridOne * gridOne) / ((n + 1) * (n + 2)))

def sineOnGrid (x : Nat) : Nat := (alternatingSum (x * x) 64 1 x).toNat

def cosineOnGrid (x : Nat) : Nat := (alternatingSum (x * x) 64 0 gridOne).toNat

/-- The sum `term + term·(2n/(2n+1))·w + …`, until a term vanishes. -/
def risingSum (w : Nat) : Nat → Nat → Nat → Nat
  | 0, _, _ => 0
  | steps + 1, n, term =>
    if term = 0 then 0
    else term + risingSum w steps (n + 1) (term * w * (2 * n) / (2 * n + 1) / gridOne)

def otherLeg (y : Nat) : Nat := floorSqrt (gridOne * gridOne - y * y)

/-- The inverse sine. With `c` the cosine of the result, the series in `w = (1 - c) / 2` has
    terms at least halving, up to the argument one. -/
def inverseSineOnGrid (y : Nat) : Nat := risingSum ((gridOne - otherLeg y) / 2) 256 1 y

/-! ## Off the grid -/

def ofGrid (steps : Int) : Binary64 :=
  ofRatio (steps < 0) (steps.natAbs * one) gridOne

/-- A number, and a correction that is small beside it. -/
structure Split where
  high : Binary64
  low : Binary64

/-- The number nearest to a count of steps, and the number nearest to what it leaves out. -/
def Split.ofGrid (steps : Nat) : Split :=
  let high := Binary64.ofGrid steps
  let rest := (steps * one : Int) - (high.magnitude * gridOne : Int)
  ⟨high, ofRatio (rest < 0) rest.natAbs gridOne⟩

def Split.abs (a : Split) : Split :=
  if a.high < 0 then ⟨-a.high, -a.low⟩ else a

/-- A quarter of a turn. -/
def rightAngle : Split := ⟨1.5707963267948966, 6.123233995736766e-17⟩

end LightCone.Binary64
