import LightCone.Position

/-!
Distances over any elementary functions.

A distance is arithmetic on sines, cosines, inverse sines, roots and lengths of vectors. What is
proved of distances should not hang on the way in which these are computed. This file

1. takes the five functions as given (`Elementary`), and measures the distance of two positions over
   them in the same steps (`Elementary.distance`);
2. states what may be asked of them: that they leave zero alone (`Elementary.KeepsZero`), and that they
   keep to their ranges (`Elementary.Bounded`);
3. names the library's own functions (`Elementary.own`), over which this is its own distance
   (`Elementary.distance_own`).
-/
namespace LightCone

/-- Functions for angles, roots, and lengths of vectors. -/
structure Elementary where
  sin : Binary64 → Binary64
  cos : Binary64 → Binary64
  asin : Binary64 → Binary64
  sqrt : Binary64 → Binary64
  hypot : Binary64 → Binary64 → Binary64

namespace Elementary

variable (E : Elementary)

def haversine (a b : Position) : Binary64 :=
  let latA := a.latitude * radiansPerDegree
  let latB := b.latitude * radiansPerDegree
  let dLat := latB - latA
  let dLon := (b.longitude - a.longitude) * radiansPerDegree
  (E.sin (dLat / 2)).square + E.cos latA * E.cos latB * (E.sin (dLon / 2)).square

def surfaceDistance (a b : Position) : Binary64 :=
  2 * earthRadius * E.asin ((E.sqrt (E.haversine a b)).smaller 1)

def distance (a b : Position) : Binary64 :=
  E.hypot (E.surfaceDistance a b) (a.altitude - b.altitude).abs

/-! ## What is asked of the functions -/

/-- Zero is its own sine, inverse sine, root and length. The cosine of an angle has a finite square, since
    a product of zero and an infinity is not a number, and such a root would be taken for one. -/
structure KeepsZero : Prop where
  sin_zero : E.sin 0 = 0
  asin_zero : E.asin 0 = 0
  sqrt_zero : E.sqrt 0 = 0
  hypot_zero : E.hypot 0 0 = 0
  cos_square : ∀ x, x.isFinite = true → (E.cos x * E.cos x).isFinite = true

/-- No root is below zero; between zero and one, inverse sines are at most a right angle to either side;
    and lengths lie between each leg and the sum of both. -/
structure Bounded : Prop where
  sqrt_nonneg : ∀ x, ¬ E.sqrt x < 0
  asin_mem : ∀ x, 0 ≤ x → x ≤ 1 →
    -Binary64.rightAngle.high ≤ E.asin x ∧ E.asin x ≤ Binary64.rightAngle.high
  hypot_mem : ∀ x y, x.isFinite = true → y.isFinite = true →
    x.abs ≤ E.hypot x y ∧ y.abs ≤ E.hypot x y ∧ E.hypot x y ≤ x.abs + y.abs

/-! ## The functions of the library -/

/-- The library's own functions. -/
def own : Elementary := ⟨Binary64.sin, Binary64.cos, Binary64.asin, Binary64.sqrt, Binary64.hypot⟩

/-- Over its own functions, the distance is that of the library. -/
theorem distance_own (a b : Position) : own.distance a b = a.distance b := rfl

end Elementary
end LightCone
