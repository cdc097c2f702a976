import LightCone.Proofs.Elementary
import LightCone.Proofs.Overflow

/-!
Every two positions are a finite number of meters apart, and not less than none.

The way over the surface is bounded by half the way round the earth, and a difference of altitudes by
the largest number, next to which that way is too little to be noticed. This file

1. shows that lengths of vectors which are rounded once lie between each leg and the sum of both
   (`Elementary.hypot_mem_of_roundsLengths`), and so do those of the library (`hypot_mem`);
2. bounds the roots and the inverse sines of the library (`not_sqrt_lt_zero`, `asin_mem`), whose functions
   keep to their ranges therefore (`Elementary.bounded_own`);
3. bounds the way over the surface for any functions that do
   (`Elementary.Bounded.exists_hasValue_surfaceDistance`);
4. concludes for the distance of any two positions (`Elementary.Bounded.distance_mem`,
   `Position.isFinite_distance`).
-/
namespace LightCone

namespace Binary64

variable {x y : Binary64} {p q : ℚ}

/-! ## Lengths of vectors -/

/-- Without its sign a number has the magnitude of its value. -/
theorem hasValue_finite_false {negative : Bool} {units : Nat} {fits : Fits units}
    (h : q * one = signed negative units) : HasValue (.finite false units fits) |q| := by
  refine ⟨rfl, ?_⟩
  show (signed false units / one : ℚ) = _
  rw [div_eq_iff one_pos_rat.ne', abs_mul_one_of_signed h]
  rfl

protected theorem HasValue.abs (h : HasValue x q) : HasValue x.abs |q| := by
  obtain ⟨s, u, f, rfl, hq⟩ := h.eq_finite
  exact hasValue_finite_false hq

protected theorem HasValue.exists_negIf (h : HasValue x q) (negative : Bool) :
    ∃ r, HasValue (x.negIf negative) r ∧ |r| = |q| := by
  cases negative with
  | false => exact ⟨q, h, rfl⟩
  | true => exact ⟨-q, h.neg, abs_eq_abs.mpr (.inr rfl)⟩

theorem add_comm (a b : Binary64) : a + b = b + a := by
  show a.add b = b.add a
  cases a with
  | nan => cases b <;> rfl
  | infinity s =>
    cases b with
    | nan => rfl
    | infinity t => cases s <;> cases t <;> rfl
    | finite t v g => rfl
  | finite s u f =>
    cases b with
    | nan => rfl
    | infinity t => rfl
    | finite t v g => simp only [add, Int.add_comm, Bool.and_comm]

/-- A length that is not let out of the range from one leg to the sum of both is in it. -/
theorem heldLength_mem {a b : Binary64} (ha : HasValue a p) (hb : HasValue b q) (hq : 0 ≤ q)
    (length : Binary64) :
    a ≤ (if length < a then a else length.smaller (a + b)) ∧
      (if length < a then a else length.smaller (a + b)) ≤ a + b := by
  have hsum := ha.rounds_add hb
  have hleg : a ≤ a + b := ha.rounds.le hsum (le_add_of_nonneg_right hq)
  split
  · exact ⟨ha.rounds.le ha.rounds le_rfl, hleg⟩
  · next hle =>
    unfold smaller
    split
    · exact ⟨hleg, hsum.le hsum le_rfl⟩
    · next hge =>
      rw [Bool.or_eq_true, decide_eq_true_eq, not_or, Bool.not_eq_true] at hge
      exact ⟨Binary64.le_of_not_lt ha.rounds.number hge.2 hle,
        Binary64.le_of_not_lt hge.2 hsum.number hge.1⟩

theorem hypot_mem (hx : HasValue x p) (hy : HasValue y q) :
    x.abs ≤ x.hypot y ∧ y.abs ≤ x.hypot y ∧ x.hypot y ≤ x.abs + y.abs := by
  obtain ⟨s, u, f, rfl, hp⟩ := hx.eq_finite
  obtain ⟨t, v, g, rfl, hq⟩ := hy.eq_finite
  have hx' : HasValue (.finite false u f) |p| := hasValue_finite_false hp
  have hy' : HasValue (.finite false v g) |q| := hasValue_finite_false hq
  have horder {u v : Nat} {f : Fits u} {g : Fits v} (h : u ≤ v) :
      (finite false u f : Binary64) ≤ .finite false v g :=
    le_iff_rank.mpr ⟨_, _, rfl, rfl, Int.ofNat_le.mpr h⟩
  simp only [hypot, abs]
  by_cases hless : u < v
  · simp only [if_pos hless]
    obtain ⟨hleg, hsum⟩ := heldLength_mem hy' hx' (abs_nonneg p)
      (longestSideScaled (.finite false v g) (.finite false u f))
    refine ⟨Binary64.le_trans (horder hless.le) hleg, hleg, ?_⟩
    rwa [add_comm (.finite false u f)]
  · simp only [if_neg hless]
    obtain ⟨hleg, hsum⟩ := heldLength_mem hx' hy' (abs_nonneg q)
      (longestSideScaled (.finite false u f) (.finite false v g))
    exact ⟨hleg, Binary64.le_trans (horder (not_lt.mp hless)) hleg, hsum⟩

/-! ## Roots -/

theorem rank_ofRatio_nonneg {num den : Nat} {r : Int} (h : (ofRatio false num den).rank = some r) :
    0 ≤ r := by
  unfold ofRatio at h
  split at h <;> cases h <;> exact Int.natCast_nonneg _

theorem not_sqrt_lt_zero (x : Binary64) : ¬ x.sqrt < 0 := by
  have hzero : (0 : Binary64).rank = some 0 := by decide +kernel
  intro h
  obtain ⟨r, t, hr, ht, hless⟩ := lt_iff_rank.mp h
  rw [hzero] at ht
  cases ht
  cases x with
  | nan => cases hr
  | infinity s =>
    cases s with
    | true => cases hr
    | false =>
      cases hr
      exact absurd hless (not_lt.mpr (Int.natCast_nonneg _))
  | finite s u f =>
    unfold sqrt at hr
    simp only at hr
    split at hr
    · next hu =>
      cases hr
      rw [hu, signed_zero] at hless
      exact lt_irrefl _ hless
    · split at hr
      · cases hr
      · exact absurd hless (not_lt.mpr (rank_ofRatio_nonneg hr))

/-- A root held to one is a number from zero to one. -/
theorem exists_hasValue_smaller_one {root : Binary64} (hnonneg : ¬ root < 0) :
    ∃ q, HasValue (root.smaller 1) q ∧ 0 ≤ q ∧ q ≤ 1 := by
  unfold smaller
  split
  · exact ⟨1, hasValue_one, zero_le_one, le_rfl⟩
  · next hge =>
    rw [Bool.or_eq_true, decide_eq_true_eq, not_or, Bool.not_eq_true] at hge
    have hroot : HasValue root root.toRat :=
      ⟨isFinite_of_between hasValue_zero.finite hasValue_one.finite hge.2 hnonneg hge.1, rfl⟩
    rw [hroot.lt_iff hasValue_zero, not_lt] at hnonneg
    rw [hasValue_one.lt_iff hroot, not_lt] at hge
    exact ⟨_, hroot, hnonneg, hge.1⟩

/-! ## Inverse sines -/

/-- A number held to a limit is not past it. -/
theorem exists_hasValue_held {limit : Binary64} (h : HasValue limit q) (x : Binary64) :
    ∃ p, HasValue (x.held limit) p ∧ |p| ≤ |q| := by
  obtain ⟨t, v, g, rfl, hq⟩ := h.eq_finite
  cases x with
  | nan => exact ⟨0, hasValue_signedZero false, abs_zero.trans_le (abs_nonneg q)⟩
  | infinity s => exact ⟨0, hasValue_signedZero false, abs_zero.trans_le (abs_nonneg q)⟩
  | finite s u f =>
    unfold held
    simp only
    split
    · next hle =>
      refine ⟨_, ⟨rfl, rfl⟩, ?_⟩
      have hself : ((finite s u f).toRat * one : ℚ) = signed s u := div_mul_cancel₀ _ one_pos_rat.ne'
      rw [← mul_le_mul_iff_of_pos_right one_pos_rat, abs_mul_one_of_signed hself,
        abs_mul_one_of_signed hq]
      exact Nat.cast_le.mpr hle
    · cases s with
      | false => exact ⟨q, h, le_rfl⟩
      | true => exact ⟨-q, h.neg, (abs_eq_abs.mpr (.inr rfl)).le⟩

theorem exists_hasValue_rightAngle : ∃ q, HasValue rightAngle.high q ∧ 0 ≤ q ∧ q ≤ 2 := by
  have hfinite : rightAngle.high.isFinite = true := by decide +kernel
  have hnonneg : 0 ≤ rightAngle.high := by decide +kernel
  have htwo : rightAngle.high ≤ 2 := by decide +kernel
  have hangle : HasValue rightAngle.high rightAngle.high.toRat := ⟨hfinite, rfl⟩
  exact ⟨_, hangle, (hasValue_zero.le_iff hangle).mp hnonneg, (hangle.le_iff hasValue_two).mp htwo⟩

theorem asin_mem (hx : HasValue x q) (hq : |q| ≤ 1) :
    -rightAngle.high ≤ x.asin ∧ x.asin ≤ rightAngle.high := by
  obtain ⟨s, u, f, rfl, hunits⟩ := hx.eq_finite
  have hle : ¬ one < u := by
    rw [← mul_le_mul_iff_of_pos_right one_pos_rat, abs_mul_one_of_signed hunits, one_mul] at hq
    exact not_lt.mpr (by exact_mod_cast hq)
  obtain ⟨angle, hangle, hangle₀, -⟩ := exists_hasValue_rightAngle
  obtain ⟨p, hp, hbound⟩ := exists_hasValue_held hangle (asinOf (.finite false u f))
  have hasin : (finite s u f).asin = ((asinOf (finite false u f)).held rightAngle.high).negIf s := by
    rw [asin, if_neg hle]
  obtain ⟨r, hr, hsame⟩ := hp.exists_negIf s
  rw [← hsame, abs_of_nonneg hangle₀, abs_le] at hbound
  rw [hasin]
  exact ⟨(hangle.neg.le_iff hr).mpr hbound.1, (hr.le_iff hangle).mpr hbound.2⟩

end Binary64

open Binary64 (HasValue Rounds nearest)

/-! ## Functions that keep to their ranges -/

namespace Elementary

variable {E : Elementary}

/-- Lengths are rounded once: a number rounded from what is no more, or no less, than the root of the sum
    of squares is itself no more, or no less, than the length. -/
def RoundsLengths (E : Elementary) : Prop :=
  ∀ {x y z : Binary64} {p q t : ℚ}, HasValue x p → HasValue y q → Rounds z t → 0 ≤ t →
    (t ^ 2 ≤ p ^ 2 + q ^ 2 → z ≤ E.hypot x y) ∧ (p ^ 2 + q ^ 2 ≤ t ^ 2 → E.hypot x y ≤ z)

/-- Such lengths lie between each leg and the sum of both. -/
theorem hypot_mem_of_roundsLengths (h : E.RoundsLengths) (x y : Binary64) (hx : x.isFinite = true)
    (hy : y.isFinite = true) :
    x.abs ≤ E.hypot x y ∧ y.abs ≤ E.hypot x y ∧ E.hypot x y ≤ x.abs + y.abs := by
  have hx' : HasValue x x.toRat := ⟨hx, rfl⟩
  have hy' : HasValue y y.toRat := ⟨hy, rfl⟩
  have hp := abs_nonneg x.toRat
  have hq := abs_nonneg y.toRat
  refine ⟨(h hx' hy' hx'.abs.rounds hp).1 ?_, (h hx' hy' hy'.abs.rounds hq).1 ?_,
    (h hx' hy' (hx'.abs.rounds_add hy'.abs) (add_nonneg hp hq)).2 ?_⟩
  · rw [sq_abs]
    exact le_add_of_nonneg_right (sq_nonneg _)
  · rw [sq_abs]
    exact le_add_of_nonneg_left (sq_nonneg _)
  · rw [add_sq, sq_abs, sq_abs]
    linarith [mul_nonneg hp hq]

theorem bounded_own : own.Bounded where
  sqrt_nonneg := Binary64.not_sqrt_lt_zero
  asin_mem x hnonneg hle := by
    have hvalue : HasValue x x.toRat := ⟨Binary64.isFinite_of_mem Binary64.hasValue_zero.finite
      Binary64.hasValue_one.finite hnonneg hle, rfl⟩
    rw [Binary64.hasValue_zero.le_iff hvalue] at hnonneg
    rw [hvalue.le_iff Binary64.hasValue_one] at hle
    exact Binary64.asin_mem hvalue ((abs_of_nonneg hnonneg).trans_le hle)
  hypot_mem _ _ hx hy := Binary64.hypot_mem ⟨hx, rfl⟩ ⟨hy, rfl⟩

/-! ## Distances -/

theorem hasValue_twice_earthRadius : HasValue (2 * earthRadius) 12742000 := by
  have hvalue : HasValue 12742000 ((12742000 : Nat) : ℚ) := Binary64.hasValue_natCast (by decide)
  have hsame : (2 * earthRadius : Binary64) = 12742000 := by decide +kernel
  rw [hsame]
  exact_mod_cast hvalue

/-- The way over the surface is a number of meters far below the largest one. -/
theorem Bounded.exists_hasValue_surfaceDistance (hE : E.Bounded) (a b : Position) :
    ∃ p, HasValue (E.surfaceDistance a b) p ∧ |p| ≤ 2 ^ 26 := by
  obtain ⟨root, hroot, hroot₀, hroot₁⟩ :=
    Binary64.exists_hasValue_smaller_one (hE.sqrt_nonneg (E.haversine a b))
  obtain ⟨hlow, hhigh⟩ := hE.asin_mem _ ((Binary64.hasValue_zero.le_iff hroot).mpr hroot₀)
    ((hroot.le_iff Binary64.hasValue_one).mpr hroot₁)
  obtain ⟨limit, hlimit, -, htwo⟩ := Binary64.exists_hasValue_rightAngle
  have hangle : HasValue (E.asin ((E.sqrt (E.haversine a b)).smaller 1))
      (E.asin ((E.sqrt (E.haversine a b)).smaller 1)).toRat :=
    ⟨Binary64.isFinite_of_mem hlimit.neg.finite hlimit.finite hlow hhigh, rfl⟩
  rw [hangle.le_iff hlimit] at hhigh
  have hlow' := (hlimit.neg.le_iff hangle).mp hlow
  generalize (E.asin ((E.sqrt (E.haversine a b)).smaller 1)).toRat = angle at hangle hhigh hlow'
  have hproduct : |12742000 * angle| < 2 ^ 25 := abs_lt.mpr ⟨by linarith, by linarith⟩
  have hclose := Binary64.abs_nearest_sub_le_of_lt (by omega) hproduct
  refine ⟨_, hasValue_twice_earthRadius.mul hangle
    (hproduct.le.trans (Binary64.two_pow_le_sight (by omega))), ?_⟩
  rw [abs_lt] at hproduct
  rw [abs_le] at hclose ⊢
  constructor <;> linarith

end Elementary

theorem Position.altitude_nonneg (a : Position) : ∃ q, HasValue a.altitude q ∧ 0 ≤ q := by
  have hok := a.altitude_ok
  rw [Binary64.isMagnitude, Bool.and_eq_true, decide_eq_true_eq] at hok
  have hvalue : HasValue a.altitude a.altitude.toRat := ⟨hok.1, rfl⟩
  exact ⟨_, hvalue, (Binary64.hasValue_zero.le_iff hvalue).mp hok.2⟩

/-- The difference of two altitudes is a number. -/
theorem Position.exists_hasValue_climb (a b : Position) :
    ∃ q, HasValue (a.altitude - b.altitude).abs q ∧ |q| ≤ Binary64.largest := by
  obtain ⟨p, hp, hp₀⟩ := altitude_nonneg a
  obtain ⟨q, hq, hq₀⟩ := altitude_nonneg b
  have hless : |p - q| < Binary64.overflowPoint := by
    have hp₁ := hp.abs_lt_overflowPoint
    have hq₁ := hq.abs_lt_overflowPoint
    rw [abs_of_nonneg hp₀] at hp₁
    rw [abs_of_nonneg hq₀] at hq₁
    exact abs_lt.mpr ⟨by linarith, by linarith⟩
  have hclimb := ((hp.rounds_sub hq).hasValue_of_lt hless).abs
  exact ⟨_, hclimb, hclimb.abs_le_largest⟩

/-- Over functions that keep to their ranges, every distance is a number, and not below zero. -/
theorem Elementary.Bounded.distance_mem {E : Elementary} (hE : E.Bounded) (a b : Position) :
    (E.distance a b).isFinite = true ∧ 0 ≤ E.distance a b := by
  obtain ⟨way, hway, hway₁⟩ := hE.exists_hasValue_surfaceDistance a b
  obtain ⟨climb, hclimb, hclimb₁⟩ := a.exists_hasValue_climb b
  obtain ⟨hleg, hleg', hsum⟩ := hE.hypot_mem _ _ hway.finite hclimb.finite
  have hless : |(|way| + |climb|)| < Binary64.overflowPoint := by
    have hlargest := Binary64.largest_add_lt
    have hsmall : (2 ^ 26 : ℚ) ≤ 2 ^ 100 := pow_le_pow_right₀ (by norm_num) (by omega)
    rw [abs_of_nonneg (add_nonneg (abs_nonneg _) (abs_nonneg _))]
    linarith
  have hfinite := (hway.abs.rounds_add hclimb.abs).isFinite_iff.mpr hless
  have hnonneg := (Binary64.hasValue_zero.le_iff hclimb.abs).mpr (abs_nonneg _)
  exact ⟨Binary64.isFinite_of_mem hway.abs.finite hfinite hleg hsum, Binary64.le_trans hnonneg hleg'⟩

namespace Position

theorem isFinite_distance (a b : Position) : (a.distance b).isFinite = true := by
  rw [← Elementary.distance_own]
  exact (Elementary.bounded_own.distance_mem a b).1

theorem distance_nonneg (a b : Position) : 0 ≤ a.distance b := by
  rw [← Elementary.distance_own]
  exact (Elementary.bounded_own.distance_mem a b).2

end Position
end LightCone
