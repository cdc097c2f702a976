import LightCone.Binary64.Series

/-!
Inverse sines of binary64 numbers.

Three ways to the result share the interval from zero to one:

1. below 1/8 a polynomial of degree thirteen (`asinNearZero`);
2. from there up to 31/32 the value at a mark, and the rise from the mark to the argument
   (`asinFromMark`). Marks are the odd multiples of 1/512;
3. near one the way down from a right angle, with twice the inverse sine of a root
   (`asinNearOne`).

The last steps of each are operations on numbers, so a result is the nearest number or one next
to it. It is never let out of the quarter turns on both sides of zero.
-/
namespace LightCone.Binary64

-- A power of naturals is the one of the core library, whatever else is in scope.
attribute [local instance (high)] instPowNat

/-- The terms of `asin y = y + y³ · p(y²)` for `y` up to 1/8. -/
def asinTerms : List Binary64 := [0.018138290340456505, 0.022355121102652562,
  0.03038212685821193, 0.044642856142105974, 0.07500000000261227, 0.1666666666666641]

def asinNearZero (x : Binary64) : Binary64 :=
  (polynomial (x * x) asinTerms).mulAdd (x * x * x) x

/-- The inverse sine from 1/8 up to 31/32: with `m` the nearest mark, it is
    `asin m + (slope · (x - m) + rest)`, where `asin m` keeps 51 bits below the point and `rest`
    is all that the other terms leave out. -/
def asinFromMark (x : Binary64) : Binary64 :=
  let y := x.magnitude * gridOne / one
  let mark := (2 * (256 * y / gridOne) + 1) * gridOne / 512
  let last := 2 ^ (gridBits - 51)
  let value := roundHalfEven (inverseSineOnGrid mark) last * last
  let slope := gridOne * gridOne / otherLeg mark
  let way : Int := y - mark
  let rest : Int := inverseSineOnGrid y - value - slope * way / gridOne
  ofGrid value + (ofGrid way).mulAdd (ofGrid slope) (ofGrid rest)

/-- The inverse sine below one: a right angle less twice the inverse sine of `√z`, where
    `z = (1 - x) / 2`. The root is held as `y`, short enough for an exact square, and what is
    missing to it. -/
def asinNearOne (x : Binary64) : Binary64 :=
  let z := (1 - x) * 0.5
  let root := z.sqrt
  let y := (root + 16777216) - 16777216
  let missing := (-y).mulAdd y z / (root + y)
  let cube := polynomial z asinTerms * z
  let double := (y + missing) + (y + missing)
  (-double).mulAdd cube ((-2 : Binary64).mulAdd missing rightAngle.low)
    + (-2 : Binary64).mulAdd y rightAngle.high

def asinOf (x : Binary64) : Binary64 :=
  if x < 1.4901161193847656e-8 then x
  else if x < 0.125 then asinNearZero x
  else if x < 0.96875 then asinFromMark x
  else if x < 1 then asinNearOne x
  else rightAngle.high

/-- The inverse sine; past one there is none. -/
def asin : Binary64 → Binary64
  | .finite negative units fits =>
    if one < units then .nan
    else ((asinOf (.finite false units fits)).held rightAngle.high).negIf negative
  | _ => .nan

end LightCone.Binary64
