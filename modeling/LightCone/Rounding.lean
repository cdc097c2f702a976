/-!
Integers nearest to exact values.

This file

1. rounds a quotient of naturals to the nearest integer, a half going to the even
   neighbour (`roundHalfEven`), and bounds the result on both sides;
2. does the same with a half going up (`roundHalfUp`), for texts that break ties so;
3. takes the integer part of a square root by repeated division (`floorSqrt`).

The numbers and the texts of the library are rounded by these rules alone.
-/
namespace LightCone

-- A power of naturals is the one of the core library, whatever else is in scope.
attribute [local instance (high)] instPowNat

/-- The integer nearest to `num / den`; of two nearest ones the even one. -/
def roundHalfEven (num den : Nat) : Nat :=
  let q := num / den
  let r := num % den
  if 2 * r < den then q
  else if den < 2 * r then q + 1
  else q + q % 2

theorem roundHalfEven_zero (den : Nat) : roundHalfEven 0 den = 0 := by
  simp [roundHalfEven]

/-- A whole quotient is its own nearest integer. -/
theorem roundHalfEven_mul (k : Nat) {den : Nat} (h : 0 < den) : roundHalfEven (k * den) den = k := by
  simp [roundHalfEven, Nat.mul_mod_left, Nat.mul_div_cancel k h, h]

theorem div_le_roundHalfEven (num den : Nat) : num / den ≤ roundHalfEven num den := by
  simp only [roundHalfEven]
  split
  · exact Nat.le_refl _
  · split <;> omega

theorem roundHalfEven_le_div_succ (num den : Nat) : roundHalfEven num den ≤ num / den + 1 := by
  simp only [roundHalfEven]
  split
  · omega
  · split <;> omega

/-- The integer nearest to `num / den`; of two nearest ones the larger one. -/
def roundHalfUp (num den : Nat) : Nat :=
  num / den + if den ≤ 2 * (num % den) then 1 else 0

/-! ## Square roots -/

/-- Halves the distance between `guess` and the root until dividing gives no smaller guess. -/
def floorSqrtFrom (n : Nat) : Nat → Nat → Nat
  | 0, guess => guess
  | steps + 1, guess =>
    let next := (guess + n / guess) / 2
    if next < guess then floorSqrtFrom n steps next else guess

/-- The integer part of the square root of `n`. -/
def floorSqrt (n : Nat) : Nat :=
  if n = 0 then 0 else floorSqrtFrom n (n.log2 + 2) (2 ^ (n.log2 / 2 + 1))

end LightCone
