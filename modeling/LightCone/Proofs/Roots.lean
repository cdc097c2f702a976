import LightCone.Proofs.Nearest
import Mathlib.Data.Nat.Sqrt

/-!
Square roots.

The integer part of a root is found by repeated division, for a number of steps that is fixed
beforehand. This file

1. shows that these steps are enough: the result is the integer part of the root (`floorSqrt_eq_sqrt`);
2. concludes that the root of a number from zero to one is such a number too
   (`exists_hasValue_sqrt`).
-/
namespace LightCone

-- A power of naturals is the one of the core library, whatever else is in scope.
attribute [local instance (high)] instPowNat

/-! ## Integer parts of roots -/

section Integers

variable {n guess steps : Nat}

/-- The mean of a guess and what it divides `n` into is not below the root. -/
theorem sqrt_le_mean (hguess : 0 < guess) : n.sqrt ≤ (guess + n / guess) / 2 := by
  rw [Nat.le_div_iff_mul_le Nat.two_pos]
  by_contra hless
  have hgap : n / guess < 2 * n.sqrt - guess := by omega
  rw [Nat.div_lt_iff_lt_mul hguess] at hgap
  have hroot := Nat.sqrt_le n
  have hquotient := Nat.zero_le (n / guess)
  obtain ⟨rest, hrest⟩ : ∃ rest, 2 * n.sqrt = guess + rest := ⟨2 * n.sqrt - guess, by omega⟩
  rw [hrest, Nat.add_sub_cancel_left] at hgap
  nlinarith [sq_nonneg ((guess : ℤ) - rest)]

/-- A guess above the root divides `n` into the root at most. -/
theorem div_le_sqrt (h : n.sqrt < guess) : n / guess ≤ n.sqrt := by
  have hguess : 0 < guess := Nat.zero_lt_of_lt h
  rw [← Nat.lt_succ_iff, Nat.div_lt_iff_lt_mul hguess]
  calc n < n.sqrt.succ * n.sqrt.succ := Nat.lt_succ_sqrt n
    _ ≤ n.sqrt.succ * guess := Nat.mul_le_mul_left _ h

/-- Each step halves the distance to the root, so a guess that is near enough comes to it. -/
theorem floorSqrtFrom_eq_sqrt (hn : 0 < n) (hle : n.sqrt ≤ guess) (hnear : guess < n.sqrt + 2 ^ steps) :
    floorSqrtFrom n steps guess = n.sqrt := by
  induction steps generalizing guess with
  | zero =>
    rw [Nat.pow_zero] at hnear
    exact Nat.le_antisymm (Nat.lt_succ_iff.mp hnear) hle
  | succ steps ih =>
    have hguess : 0 < guess := (Nat.sqrt_pos.mpr hn).trans_le hle
    have hmean := sqrt_le_mean (n := n) hguess
    simp only [floorSqrtFrom]
    split
    · next hless =>
      have hdiv := div_le_sqrt (hmean.trans_lt hless)
      rw [Nat.pow_succ] at hnear
      exact ih hmean (by omega)
    · next hmore =>
      have hself : guess * guess ≤ n := by
        rw [← Nat.le_div_iff_mul_le hguess]
        omega
      exact Nat.le_antisymm (Nat.le_sqrt.mpr hself) hle

theorem floorSqrt_eq_sqrt (n : Nat) : floorSqrt n = n.sqrt := by
  unfold floorSqrt
  split
  · next hzero => rw [hzero, Nat.sqrt_zero]
  · next hsome =>
    have hstart : n.sqrt < 2 ^ (n.log2 / 2 + 1) := by
      rw [Nat.sqrt_lt, ← Nat.pow_add]
      exact Nat.lt_log2_self.trans_le (Nat.pow_le_pow_right Nat.two_pos (by omega))
    have hsteps : 2 ^ (n.log2 / 2 + 1) < 2 ^ (n.log2 + 2) :=
      Nat.pow_lt_pow_right Nat.one_lt_two (by omega)
    exact floorSqrtFrom_eq_sqrt (Nat.pos_of_ne_zero hsome) hstart.le (by omega)

end Integers

/-! ## Roots of numbers up to one -/

namespace Binary64

variable {x : Binary64} {q : ℚ}

/-- The root of a square of at most `m` units is counted to `m` units at most. -/
theorem two_mul_floorSqrt_le {n m : Nat} (h : n ≤ m * m) :
    2 * floorSqrt (4 * n) + (if floorSqrt (4 * n) * floorSqrt (4 * n) = 4 * n then 0 else 1) ≤
      4 * m := by
  have hroot := Nat.sqrt_le (4 * n)
  rw [floorSqrt_eq_sqrt]
  generalize (4 * n).sqrt = root at hroot
  have hle : root ≤ 2 * m := by
    by_contra hmore
    have hsquare := Nat.mul_le_mul (Nat.not_le.mp hmore) (Nat.not_le.mp hmore)
    nlinarith
  split
  · omega
  · next hrest =>
    have hne : root ≠ 2 * m := by
      rintro rfl
      exact hrest (by nlinarith)
    omega

/-- A number of square units up to one has a root from zero to one. -/
theorem exists_hasValue_ofSquare {n : Nat} (h : n ≤ one * one) :
    ∃ r, HasValue (ofSquare n) r ∧ 0 ≤ r ∧ r ≤ 1 := by
  have hcount := two_mul_floorSqrt_le h
  unfold ofSquare
  simp only
  generalize 2 * floorSqrt (4 * n) + _ = num at hcount ⊢
  obtain ⟨r, hr⟩ : ∃ r : ℚ, r * one = num / (4 : Nat) :=
    ⟨num / (4 : Nat) / one, div_mul_cancel₀ _ one_pos_rat.ne'⟩
  have hr₀ : 0 ≤ r := by
    refine nonneg_of_mul_nonneg_left ?_ one_pos_rat
    rw [hr]
    positivity
  have hr₁ : r ≤ 1 := by
    have hnum : (num : ℚ) ≤ 4 * one := by exact_mod_cast hcount
    rw [← mul_le_mul_iff_of_pos_right one_pos_rat, hr, div_le_iff₀ (by norm_num)]
    push_cast
    linarith
  have hrounds : Rounds (ofRatio false num 4) r :=
    rounds_ofRatio (by decide) (by rw [hr]; simp [signed])
  have hsight : |r| ≤ sight := by
    rw [abs_of_nonneg hr₀]
    exact hr₁.trans (by simpa using two_pow_le_sight (k := 0) (by omega))
  refine ⟨nearest r, hrounds.hasValue_of_sight hsight, nearest_nonneg hr₀, ?_⟩
  calc nearest r ≤ nearest (1 : Nat) := nearest_mono (by exact_mod_cast hr₁)
    _ = 1 := by rw [nearest_natCast (by decide), Nat.cast_one]

/-- The root of a number from zero to one is from zero to one. -/
theorem exists_hasValue_sqrt (hx : HasValue x q) (hnonneg : 0 ≤ q) (hle : q ≤ 1) :
    ∃ r, HasValue x.sqrt r ∧ 0 ≤ r ∧ r ≤ 1 := by
  obtain ⟨s, u, f, rfl, hq⟩ := hx.eq_finite
  by_cases hzero : u = 0
  · refine ⟨q, ?_, hnonneg, hle⟩
    rw [sqrt, if_pos hzero]
    exact hx
  have hsign : s = false := by
    cases s with
    | false => rfl
    | true =>
      have hpos : (0 : ℚ) < u := Nat.cast_pos.mpr (Nat.pos_of_ne_zero hzero)
      have hmul := mul_nonneg hnonneg one_pos_rat.le
      simp only [hq, signed, if_true, Int.cast_neg, Int.cast_natCast] at hmul
      linarith
  subst hsign
  have hunits : u ≤ one := by
    have hmul := mul_le_mul_of_nonneg_right hle one_pos_rat.le
    simp only [hq, signed, Bool.false_eq_true, if_false, Int.cast_natCast, one_mul] at hmul
    exact_mod_cast hmul
  rw [sqrt, if_neg hzero, if_neg (by decide)]
  exact exists_hasValue_ofSquare (Nat.mul_le_mul_right one hunits)

end Binary64
end LightCone
