import LightCone.Binary64.Series

/-!
Sines and cosines of binary64 angles, in radians and at most one turn.

An angle and the values read off for it are held in two parts, a number and a correction far
below its last digit (`Split`). This file

1. gives the sine and the cosine of every multiple of 1/128 in two parts (`Mark.near`), from
   their power series;
2. carries them from the nearest such multiple to any angle up to an eighth of a turn, by the
   sum formulas and short polynomials in what is left (`Split.sine`, `Split.cosine`). Angles
   below 0.126 need no multiple;
3. takes right angles off larger angles first (`Split.pastRightAngles`).

Every step is one operation on numbers. The results are thus not always the nearest numbers,
but those next to them at the furthest. The sign of an angle is set aside first and no result
is let out of `[-1, 1]`, so the sine is odd, the cosine even, and both are bounded, for every
argument.
-/
namespace LightCone.Binary64

-- A power of naturals is the one of the core library, whatever else is in scope.
attribute [local instance (high)] instPowNat

/-! ## Marks at the multiples of 1/128 -/

/-- An angle whose sine and cosine are known past the digits of a number. -/
structure Mark where
  angle : Binary64
  sine : Split
  cosine : Split

/-- The mark nearest to an angle. -/
def Mark.near (angle : Binary64) : Mark :=
  let steps := roundHalfEven (128 * angle.magnitude) one
  let x := steps * gridOne / 128
  { angle := ofRatio false (steps * one) 128
    sine := .ofGrid (sineOnGrid x)
    cosine := .ofGrid (cosineOnGrid x) }

/-! ## Angles up to about an eighth of a turn -/

/-- The sine of an angle below 0.126, by a polynomial of degree eleven. -/
def Split.sineNearZero (a : Split) : Binary64 :=
  let square := a.high * a.high
  let slope := polynomial square [-2.5022014848318398e-8, 2.755729806860771e-6,
    -0.00019841269834414642, 0.008333333333332329, -0.16666666666666666]
  a.high + square.mulAdd (slope.mulAdd a.high (-(0.5 * a.low))) a.low

/-- The terms of `sin y = y + y³ · p(y²)` for `y` up to 1/256. -/
def sineTerms : List Binary64 := [0.008333332142857223, -0.16666666666666488]

/-- The terms of `cos y = 1 - y² · p(y²)` for `y` up to 1/256. -/
def cosineTerms : List Binary64 := [0.001388888740079376, -0.04166666666666644, 0.5]

/-- The sine of an angle up to an eighth of a turn: with `y` the way from its mark `m`, it is
    `sin m + (sin y · cos m - (1 - cos y) · sin m)`. -/
def Split.sine (angle : Split) : Binary64 :=
  if angle.high.abs < 0.126 then angle.sineNearZero
  else
    let a := angle.abs
    let mark := Mark.near a.high
    let y := a.high - mark.angle
    let square := y * y
    let s := y + (y * square).mulAdd (polynomial square sineTerms) a.low
    let c := y.mulAdd a.low (square * polynomial square cosineTerms)
    let rise := s.mulAdd mark.cosine.high
      ((-c).mulAdd mark.sine.high (s.mulAdd mark.cosine.low mark.sine.low))
    (mark.sine.high + rise).negIf (angle.high < 0)

/-- The cosine of an angle up to an eighth of a turn: with `y` the way from its mark `m`, it is
    `cos m - (sin y · sin m + (1 - cos y) · cos m)`. -/
def Split.cosine (angle : Split) : Binary64 :=
  let a := angle.abs
  let mark := Mark.near a.high
  let y := (a.high - mark.angle) + a.low
  let square := y * y
  let s := (y * square).mulAdd (polynomial square sineTerms) y
  let c := square * polynomial square cosineTerms
  let fall := (-s).mulAdd mark.sine.high
    ((-c).mulAdd mark.cosine.high ((-s).mulAdd mark.sine.low mark.cosine.low))
  mark.cosine.high + fall

/-! ## Angles up to a turn -/

def Split.sinePast (rightAngles : Nat) (a : Split) : Binary64 :=
  match rightAngles % 4 with
  | 0 => a.sine
  | 1 => a.cosine
  | 2 => -a.sine
  | _ => -a.cosine

/-- The right angles nearest to an angle, and the rest of the angle. The right angle is taken
    off in four parts, the first three short enough for exact products. -/
def Split.pastRightAngles (x : Binary64) : Nat × Split :=
  let count := roundHalfEven (x.magnitude * magnitude 0.6366197723675814) (one * one)
  let n := ofNat count
  let near := (-n).mulAdd (-1.3909067564377153e-8) ((-n).mulAdd 1.5707963407039642 x)
  let nearer := (-n).mulAdd (-4.97899623147991e-17) near
  let lost := (-n).mulAdd (-4.97899623147991e-17) (near - nearer)
  let high := (-n).mulAdd (-1.9034889620193266e-25) nearer
  (count, ⟨high, lost + (-n).mulAdd (-1.9034889620193266e-25) (nearer - high)⟩)

/-- The sine of an angle that is not negative. From about an eighth of a turn to three eighths it
    is the cosine of the way to the right angle. -/
def sineOf (x : Binary64) : Binary64 :=
  if x < 1.4901161193847656e-8 then x
  else if x < 0.85546875 then Split.sine ⟨x, 0⟩
  else if x < 2.4262638092041016 then Split.cosine ⟨rightAngle.high - x, rightAngle.low⟩
  else
    let (n, rest) := Split.pastRightAngles x
    rest.sinePast n

def cosineOf (x : Binary64) : Binary64 :=
  if x < 0.85546875 then Split.cosine ⟨x, 0⟩
  else if x < 2.4262638092041016 then
    let way := rightAngle.high - x
    let high := way + rightAngle.low
    Split.sine ⟨high, (way - high) + rightAngle.low⟩
  else
    let (n, rest) := Split.pastRightAngles x
    rest.sinePast (n + 1)

/-- The sine of an angle of at most one turn. -/
def sin : Binary64 → Binary64
  | .finite negative units fits => ((sineOf (.finite false units fits)).held 1).negIf negative
  | _ => .nan

def cos : Binary64 → Binary64
  | .finite _ units fits => (cosineOf (.finite false units fits)).held 1
  | _ => .nan

/-! ## Laws of signs -/

theorem sin_finite (negative : Bool) (units : Nat) (fits : Fits units) :
    sin (.finite negative units fits) = ((sineOf (.finite false units fits)).held 1).negIf negative :=
  rfl

theorem sin_neg (x : Binary64) : x.neg.sin = x.sin.neg := by
  cases x with
  | nan => rfl
  | infinity s => rfl
  | finite s u f => rw [neg, sin_finite, sin_finite, negIf_not]

theorem cos_neg (x : Binary64) : x.neg.cos = x.cos := by
  cases x <;> rfl

end LightCone.Binary64
