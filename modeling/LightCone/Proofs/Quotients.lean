import LightCone.Proofs.Nearest

/-!
Quotients of numbers by counts.

A count is rounded to a number first, and past all numbers it is an infinity. This file

1. tells the two cases apart (`Binary64.ofNat_cases`), and shows that rounding the count changes a quotient
   by little (`abs_div_nearest_sub_le`);
2. concludes how far a quotient of numbers is from the exact one (`exists_hasValue_div`).
-/
namespace LightCone

open Binary64 (HasValue nearest sight)

variable {x : Binary64} {p : ℚ} {n : Nat}

/-- Counts past all sight may be infinite as numbers. -/
theorem Binary64.ofNat_cases (n : Nat) :
    Binary64.ofNat n = .infinity false ∧ (2 ^ 200 : ℚ) ≤ n ∨ HasValue (.ofNat n) (nearest n) := by
  rcases le_or_gt (n : ℚ) (2 ^ 200) with hle | hlt
  · exact .inr (hasValue_ofNat (hle.trans (two_pow_le_sight (by omega))))
  · by_cases hfinite : roundUnits (n * 2 ^ unitBits) 1 < overflow
    · right
      refine hasValue_ofRatio Nat.one_pos ?_ hfinite
      simp [signed, one]
    · left
      refine ⟨?_, hlt.le⟩
      unfold ofNat ofRatio
      rw [dif_neg hfinite]

theorem le_nearest {k : Nat} (hk : k < 2 ^ 53) (h : k ≤ n) : (k : ℚ) ≤ nearest n := by
  calc (k : ℚ) = nearest k := (Binary64.nearest_natCast hk).symm
    _ ≤ nearest n := Binary64.nearest_mono (Nat.cast_le.mpr h)

theorem one_le_nearest (hn : 0 < n) : 1 ≤ nearest (n : ℚ) := by
  simpa using le_nearest (k := 1) (by omega) hn

/-- What is divided by a count past all sight is next to nothing. -/
theorem abs_div_le_of_large {m : ℚ} (hp : |p| ≤ 2 ^ 66) (hm : 2 ^ 200 ≤ m) : |p / m| ≤ 1 / 2 ^ 134 := by
  have hpos : 0 < m := by linarith [show (0 : ℚ) < 2 ^ 200 by positivity]
  rw [abs_div, abs_of_pos hpos, div_le_iff₀ hpos]
  linarith

/-- Dividing by a rounded count changes a quotient by little. -/
theorem abs_div_nearest_sub_le (hp : |p| ≤ 2 ^ 66) (hn : 0 < n) :
    |p / nearest n - p / n| ≤ |p| / n / 2 ^ 52 + 1 / 2 ^ 132 := by
  have hn' : (0 : ℚ) < n := Nat.cast_pos.mpr hn
  have hm : 0 < nearest (n : ℚ) := by linarith [one_le_nearest hn]
  have hfrac : 0 ≤ |p| / n / 2 ^ 52 := by positivity
  rcases le_or_gt (n : ℚ) (2 ^ 200) with hle | hlt
  · have hclose : |nearest n - (n : ℚ)| ≤ n / 2 ^ 53 :=
      Binary64.abs_nearest_natCast_sub_le (hle.trans (Binary64.two_pow_le_sight (by omega)))
    have hhalf : (n : ℚ) / 2 ≤ nearest n := by linarith [(abs_le.mp hclose).1]
    have heq : p / nearest n - p / n = p * (n - nearest n) / (nearest n * n) := by
      field_simp
    rw [heq, abs_div, abs_mul, abs_of_pos (mul_pos hm hn'), div_le_iff₀ (mul_pos hm hn')]
    have hflip : |(n : ℚ) - nearest n| ≤ n / 2 ^ 53 := by rwa [abs_sub_comm]
    calc |p| * |(n : ℚ) - nearest n| ≤ |p| * (n / 2 ^ 53) :=
          mul_le_mul_of_nonneg_left hflip (abs_nonneg p)
      _ = |p| / n / 2 ^ 52 * (n / 2 * n) := by
          field_simp
      _ ≤ (|p| / n / 2 ^ 52 + 1 / 2 ^ 132) * (nearest n * n) := by
          refine mul_le_mul (by linarith [show (0 : ℚ) ≤ 1 / 2 ^ 132 by positivity])
            (mul_le_mul_of_nonneg_right hhalf hn'.le) (by positivity) (by positivity)
  · have hlarge : (2 ^ 200 : ℚ) ≤ nearest n := by
      rw [← Binary64.nearest_two_pow (k := 200) (by omega)]
      exact Binary64.nearest_mono hlt.le
    have hsmall := abs_div_le_of_large hp hlarge
    have hsmall' := abs_div_le_of_large hp hlt.le
    calc |p / nearest n - p / n| ≤ |p / nearest n| + |p / n| := abs_sub _ _
      _ ≤ |p| / n / 2 ^ 52 + 1 / 2 ^ 132 := by linarith

theorem abs_div_nearest_le (hn : 0 < n) : |p / nearest n| ≤ |p| := by
  have hm := one_le_nearest hn
  have hpos : 0 < nearest (n : ℚ) := by linarith
  rw [abs_div, abs_of_pos hpos]
  exact div_le_self (abs_nonneg p) hm

/-- And rounding the quotient by little more. -/
theorem abs_nearest_div_sub_le (hp : |p| ≤ 2 ^ 66) (hn : 0 < n) :
    |nearest (p / nearest n) - p / n| ≤ |p| / n / 2 ^ 51 + 1 / 2 ^ 130 := by
  have hfrac : 0 ≤ |p| / n / 2 ^ 51 := by positivity
  have hclose := abs_div_nearest_sub_le hp hn
  have hsight : |p / nearest n| ≤ sight :=
    ((abs_div_nearest_le hn).trans hp).trans (Binary64.two_pow_le_sight (by omega))
  have hround := Binary64.abs_nearest_sub_le hsight
  have hunit := Binary64.half_unit_le
  have hsize : |p / nearest n| ≤ |p| / n + (|p| / n / 2 ^ 52 + 1 / 2 ^ 132) := by
    have hself : |p / n| = |p| / n := by rw [abs_div, Nat.abs_cast]
    calc |p / nearest n| = |p / n + (p / nearest n - p / n)| := by rw [add_sub_cancel]
      _ ≤ |p / n| + |p / nearest n - p / n| := abs_add_le _ _
      _ ≤ |p| / n + (|p| / n / 2 ^ 52 + 1 / 2 ^ 132) := by linarith
  calc |nearest (p / nearest n) - p / n|
      = |(nearest (p / nearest n) - p / nearest n) + (p / nearest n - p / n)| := by
        rw [sub_add_sub_cancel]
    _ ≤ |nearest (p / nearest n) - p / nearest n| + |p / nearest n - p / n| := abs_add_le _ _
    _ ≤ |p| / n / 2 ^ 51 + 1 / 2 ^ 130 := by linarith

/-- The number that a number divided by a count gives. -/
theorem exists_hasValue_div (hx : HasValue x p) (hp : |p| ≤ 2 ^ 66) (hn : 0 < n) :
    ∃ q, HasValue (x / .ofNat n) q ∧ |q - p / n| ≤ |p| / n / 2 ^ 51 + 1 / 2 ^ 130 ∧
      (p ≤ 0 → q ≤ 0) ∧
      (0 ≤ p → ∀ k, 0 < k → k ≤ n → k < 2 ^ 53 → q ≤ nearest (p / k)) := by
  rcases Binary64.ofNat_cases n with ⟨hinfinite, hlarge⟩ | hvalue
  · refine ⟨0, ?_, ?_, fun _ => le_rfl, fun h k _ _ _ => Binary64.nearest_nonneg (by positivity)⟩
    · obtain ⟨s, u, f, rfl, -⟩ := hx.eq_finite
      rw [hinfinite]
      exact Binary64.hasValue_signedZero (s ^^ false)
    · have hsmall := abs_div_le_of_large hp hlarge
      have hfrac : 0 ≤ |p| / n / 2 ^ 51 := by positivity
      rw [zero_sub, abs_neg]
      linarith
  · have hpos : 0 < nearest (n : ℚ) := by linarith [one_le_nearest hn]
    have hsight : |p / nearest n| ≤ sight :=
      ((abs_div_nearest_le hn).trans hp).trans (Binary64.two_pow_le_sight (by omega))
    refine ⟨nearest (p / nearest n), hx.div hvalue hpos.ne' hsight, abs_nearest_div_sub_le hp hn,
      fun h => ?_, fun h k hk hkn hlt => ?_⟩
    · calc nearest (p / nearest n) ≤ nearest 0 :=
            Binary64.nearest_mono (div_nonpos_of_nonpos_of_nonneg h hpos.le)
        _ = 0 := Binary64.nearest_zero
    · exact Binary64.nearest_mono
        (div_le_div_of_nonneg_left h (Nat.cast_pos.mpr hk) (le_nearest hlt hkn))

end LightCone
