import LightCone.Proofs.Elementary

/-!
The distance between two positions is the same in both directions, to the last bit.

A difference taken the other way round changes its sign only, and the sign is lost where sines
are squared and where altitudes are compared. This file

1. carries signs through differences, products, quotients and squares of numbers;
2. concludes for the distance over any functions of which the sine is odd
   (`Elementary.distance_comm`), and so for the library's own (`Position.distance_comm`).
-/
namespace LightCone.Binary64

/-! ## Signs -/

theorem mul_comm (a b : Binary64) : a * b = b * a := by
  show a.mul b = b.mul a
  cases a <;> cases b <;> simp [mul, Bool.xor_comm, Nat.mul_comm]

theorem neg_ofRatio (negative : Bool) (num den : Nat) :
    (ofRatio negative num den).neg = ofRatio (!negative) num den := by
  rw [ofRatio_not]
  cases ofRatio negative num den <;> rfl

theorem neg_mul (x y : Binary64) : x.neg * y = (x * y).neg := by
  show x.neg.mul y = (x.mul y).neg
  cases x with
  | nan => rfl
  | infinity s =>
    cases y with
    | nan => rfl
    | infinity t => simp [neg, mul]
    | finite t v g =>
      simp only [neg, mul]
      split <;> simp
  | finite s u f =>
    cases y with
    | nan => rfl
    | infinity t =>
      simp only [neg, mul]
      split <;> simp
    | finite t v g =>
      simp only [neg, mul]
      rw [Bool.not_xor, ← neg_ofRatio]
      exact neg.eq_def _

theorem neg_div (x y : Binary64) : x.neg / y = (x / y).neg := by
  show x.neg.div y = (x.div y).neg
  cases x with
  | nan => rfl
  | infinity s => cases y <;> simp [neg, div]
  | finite s u f =>
    cases y with
    | nan => rfl
    | infinity t => simp [neg, div, zero]
    | finite t v g =>
      simp only [neg, div]
      split
      · split <;> simp
      · rw [Bool.not_xor, ← neg_ofRatio]
        exact neg.eq_def _

/-- A difference taken the other way round is the same or the opposite number. The same, where
    equal numbers leave zero. -/
theorem sub_swap (x y : Binary64) : y - x = x - y ∨ y - x = (x - y).neg := by
  show y.sub x = x.sub y ∨ y.sub x = (x.sub y).neg
  cases x with
  | nan => cases y <;> exact .inl rfl
  | infinity s =>
    cases y with
    | nan => exact .inl rfl
    | infinity t => cases s <;> cases t <;> simp [sub, neg, add]
    | finite t v g => right; simp [sub, neg, add]
  | finite s u f =>
    cases y with
    | nan => exact .inl rfl
    | infinity t => right; simp [sub, neg, add]
    | finite t v g =>
      -- Swapped, the sum of the signed magnitudes changes its sign.
      have hsum : signed t v + signed (!s) u = -(signed s u + signed (!t) v) := by
        unfold signed
        cases s <;> cases t <;> simp only [Bool.not_true, Bool.not_false, Bool.false_eq_true, if_true,
          if_false] <;> omega
      simp only [sub, neg, add, hsum]
      generalize signed s u + signed (!t) v = sum
      by_cases hzero : sum = 0
      · simp only [hzero, Int.neg_zero, if_true]
        cases s <;> cases t <;> simp [zero]
      · have hneg : decide (-sum < 0) = !decide (sum < 0) := by
          rcases Int.lt_or_gt_of_ne hzero with h | h
          · rw [decide_eq_false (by omega : ¬ -sum < 0), decide_eq_true h]; rfl
          · rw [decide_eq_true (by omega : -sum < 0), decide_eq_false (by omega : ¬ sum < 0)]; rfl
        rw [if_neg hzero, if_neg (by omega), hneg, Int.natAbs_neg, ← neg_ofRatio]
        right
        cases ofRatio (decide (sum < 0)) sum.natAbs 1 <;> rfl

theorem square_neg (x : Binary64) : x.neg.square = x.square := by
  unfold square
  rw [neg_mul, mul_comm, neg_mul, neg_neg]

theorem abs_neg (x : Binary64) : x.neg.abs = x.abs := by
  cases x <;> rfl

theorem abs_sub_comm (x y : Binary64) : (x - y).abs = (y - x).abs := by
  rcases sub_swap x y with h | h
  · rw [h]
  · rw [h, abs_neg]

end LightCone.Binary64

namespace LightCone

/-! ## Both directions -/

namespace Elementary

open Binary64

variable {E : Elementary}

/-- The squared sine of half an angle does not depend on the direction of the angle. -/
theorem square_sin_half_neg (hodd : ∀ x, E.sin (-x) = -E.sin x) (x : Binary64) :
    (E.sin (x.neg / 2)).square = (E.sin (x / 2)).square := by
  have hneg : E.sin (x / 2).neg = (E.sin (x / 2)).neg := hodd (x / 2)
  rw [neg_div, hneg, square_neg]

theorem haversine_comm (hodd : ∀ x, E.sin (-x) = -E.sin x) (a b : Position) :
    E.haversine a b = E.haversine b a := by
  have hlat :
      (E.sin ((b.latitude * radiansPerDegree - a.latitude * radiansPerDegree) / 2)).square =
      (E.sin ((a.latitude * radiansPerDegree - b.latitude * radiansPerDegree) / 2)).square := by
    rcases sub_swap (a.latitude * radiansPerDegree) (b.latitude * radiansPerDegree) with h | h
    · rw [h]
    · rw [h, square_sin_half_neg hodd]
  have hlon : (E.sin ((b.longitude - a.longitude) * radiansPerDegree / 2)).square =
      (E.sin ((a.longitude - b.longitude) * radiansPerDegree / 2)).square := by
    rcases sub_swap a.longitude b.longitude with h | h
    · rw [h]
    · rw [h, Binary64.neg_mul, square_sin_half_neg hodd]
  simp only [haversine]
  rw [hlat, hlon, Binary64.mul_comm (E.cos (a.latitude * radiansPerDegree))]

/-- The distance is the same number in both directions. -/
theorem distance_comm (hodd : ∀ x, E.sin (-x) = -E.sin x) (a b : Position) :
    E.distance a b = E.distance b a := by
  unfold distance surfaceDistance
  rw [haversine_comm hodd, abs_sub_comm]

theorem own_sin_neg (x : Binary64) : own.sin (-x) = -own.sin x := Binary64.sin_neg x

end Elementary

theorem Position.distance_comm (a b : Position) : a.distance b = b.distance a :=
  Elementary.distance_comm Elementary.own_sin_neg a b

end LightCone
