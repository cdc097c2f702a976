import LightCone.ClockOffset
import LightCone.Proofs.Overflow
import LightCone.Proofs.Quotients

/-!
The weights of measurements.

A clock offset is a mean weighted by confidence, and there is none without any weight. This file

1. shows that every measurement weighs between a sixteenth and one, whatever distance and delay it has
   (`Measurement.weighs_of`);
2. adds weights up: the sum of a list that is not empty is at least a sixteenth, and rounding keeps it
   at `2 ^ 54` or less (`exists_hasValue_weight`);
3. concludes that only the empty list has no weighted mean, and that the mean confidence of all others is
   at most one, and positive for lists of up to `2 ^ 64` measurements (`weightedHalfDelay_of_ne_nil`).
-/
namespace LightCone

open Binary64 (HasValue nearest sight hasValue_zero hasValue_one hasValue_two)

/-! ## Weights -/

/-- From a sixteenth to one. -/
def Weighs (x : Binary64) : Prop := ∃ q, HasValue x q ∧ 1 / 16 ≤ q ∧ q ≤ 1

/-- Each part of a confidence is at least about a tenth. -/
theorem exists_hasValue_partConfidence (ratio : Binary64) :
    ∃ q, HasValue (partConfidence ratio) q ∧ 3 / 32 ≤ q ∧ q ≤ 1 := by
  obtain ⟨tenth, htenth, -, hclose⟩ := Binary64.exists_hasValue_decimal 1 1 (by decide)
  obtain ⟨hclose₁, hclose₂⟩ := abs_le.mp hclose
  unfold partConfidence
  split
  · next hfinite =>
    have hrest : Binary64.Rounds (1 - ratio) (1 - ratio.toRat) :=
      hasValue_one.rounds_sub ⟨hfinite, rfl⟩
    obtain ⟨q, hq, hlow, hhigh⟩ := Binary64.exists_hasValue_clamp hrest.number htenth hasValue_one
      (by linarith)
    exact ⟨q, hq, by linarith, hhigh⟩
  · exact ⟨tenth, htenth, by linarith, by linarith⟩

theorem Weighs.clamp {x : Binary64} (h : Weighs x) : Weighs (x.clamp 0 1) := by
  obtain ⟨q, hq, hlow, hhigh⟩ := h
  have hclamp := hq.clamp hasValue_zero hasValue_one zero_le_one
  rw [min_eq_left hhigh, max_eq_right (by linarith)] at hclamp
  exact ⟨q, hclamp, hlow, hhigh⟩

theorem weighs_measurementConfidence (distance seconds : Binary64) :
    Weighs (measurementConfidence distance seconds) := by
  obtain ⟨p, hp, hp₁, hp₂⟩ := exists_hasValue_partConfidence (distance / 20000000)
  obtain ⟨q, hq, hq₁, hq₂⟩ := exists_hasValue_partConfidence (seconds / 0.5)
  refine Weighs.clamp ?_
  have hsum : |p + q| < 2 ^ 2 := by
    rw [abs_of_nonneg (by linarith)]
    linarith
  have hsum₁ := hp.add hq (hsum.le.trans (Binary64.two_pow_le_sight (by omega)))
  have hclose := abs_le.mp (Binary64.abs_nearest_sub_le_of_lt (by omega) hsum)
  have htwo : nearest (p + q) ≤ 2 := by
    calc nearest (p + q) ≤ nearest 2 := Binary64.nearest_mono (by linarith)
      _ = 2 := hasValue_two.nearest_eq
  generalize nearest (p + q) = sum at hsum₁ hclose htwo
  have hhalf : |sum / 2| < 2 ^ 1 := by
    rw [abs_of_nonneg (by linarith)]
    linarith
  have hclose' := abs_le.mp (Binary64.abs_nearest_sub_le_of_lt (by omega) hhalf)
  refine ⟨_, hsum₁.div hasValue_two two_ne_zero
    (hhalf.le.trans (Binary64.two_pow_le_sight (by omega))), by linarith, ?_⟩
  calc nearest (sum / 2) ≤ nearest 1 := Binary64.nearest_mono (by linarith)
    _ = 1 := hasValue_one.nearest_eq

/-- Every measurement has some weight. -/
theorem Measurement.weighs_of (distance : Binary64) (delay : Duration) :
    Weighs (Measurement.of distance delay).confidence := by
  have hweighs := weighs_measurementConfidence distance delay.asSeconds
  obtain ⟨q, hq, -⟩ := id hweighs
  show Weighs (if (measurementConfidence distance delay.asSeconds).isFinite then _ else _)
  rw [if_pos hq.finite]
  exact hweighs.clamp

/-! ## Sums of weights -/

theorem weight_append (ms : List Measurement) (m : Measurement) :
    (sumHalfDelays (ms ++ [m])).weight = (sumHalfDelays ms).weight + m.confidence := by
  simp only [sumHalfDelays, List.foldl_append, List.foldl_cons, List.foldl_nil]

/-- Weights add up to at least a sixteenth. The sum stops growing at `2 ^ 54`, where one more is rounded
    away. -/
theorem exists_hasValue_weight {ms : List Measurement} (h : ∀ m ∈ ms, Weighs m.confidence) :
    ∃ w, HasValue (sumHalfDelays ms).weight w ∧ 0 ≤ w ∧ w ≤ 2 ^ 54 ∧ (ms ≠ [] → 1 / 16 ≤ w) := by
  induction ms using List.reverseRecOn with
  | nil => exact ⟨0, hasValue_zero, le_rfl, by positivity, fun hsome => absurd rfl hsome⟩
  | append_singleton ms m ih =>
    obtain ⟨w, hw, hnonneg, hlimit, -⟩ := ih fun m hm => h m (List.mem_append_left _ hm)
    obtain ⟨q, hq, hlow, hhigh⟩ := h m (List.mem_append_right _ List.mem_cons_self)
    have hsight : (2 ^ 54 : ℚ) + 1 ≤ sight :=
      (by norm_num : (2 ^ 54 : ℚ) + 1 ≤ 2 ^ 100).trans (Binary64.two_pow_le_sight (by omega))
    have hsum := hw.add hq (by
      rw [abs_of_nonneg (by linarith)]
      linarith)
    have hgrows : 1 / 16 ≤ nearest (w + q) := by
      calc 1 / 16 ≤ q := hlow
        _ = nearest q := hq.nearest_eq.symm
        _ ≤ nearest (w + q) := Binary64.nearest_mono (by linarith)
    have hstops : nearest (w + q) ≤ 2 ^ 54 := by
      calc nearest (w + q) ≤ nearest (2 ^ 54 + 1) := Binary64.nearest_mono (by linarith)
        _ = 2 ^ 54 := Binary64.nearest_add_of_lt_two_pow (k := 1)
          (Binary64.hasValue_two_pow (by omega)) le_rfl zero_le_one (by norm_num) hsight
    rw [weight_append]
    exact ⟨_, hsum, by linarith, hstops, fun _ => hgrows⟩

/-! ## Means -/

/-- The mean of a weight over a count is at most one, and positive for counts of up to 64 bits. -/
theorem exists_hasValue_mean {x : Binary64} {w : ℚ} (hx : HasValue x w) (hlow : 1 / 16 ≤ w)
    (hhigh : w ≤ 2 ^ 54) {n : Nat} (hn : 0 < n) :
    ∃ c, HasValue ((x / .ofNat n).clamp 0 1) c ∧ c ≤ 1 ∧ (n ≤ 2 ^ 64 → 0 < c) := by
  have habs : |w| = w := abs_of_nonneg (by linarith)
  obtain ⟨mean, hmean, hclose, -⟩ := exists_hasValue_div hx (by linarith) hn
  refine ⟨_, hmean.clamp hasValue_zero hasValue_one zero_le_one,
    max_le zero_le_one (min_le_right _ _), ?_⟩
  intro hlimit
  have hpos : (0 : ℚ) < n := Nat.cast_pos.mpr hn
  have hmany : (n : ℚ) ≤ 2 ^ 64 := by exact_mod_cast hlimit
  have hleast : 1 / 2 ^ 68 ≤ w / n := by
    rw [le_div_iff₀ hpos]
    linarith
  rw [habs] at hclose
  have hsome : 0 < mean := by linarith [(abs_le.mp hclose).1]
  exact lt_max_of_lt_right (lt_min hsome one_pos)

/-- Measurements that weigh something have a weighted mean if there are any, and then a mean confidence
    of at most one, positive for all lists that a machine can hold. -/
theorem weightedHalfDelay_of_ne_nil {ms : List Measurement} (h : ∀ m ∈ ms, Weighs m.confidence)
    (hsome : ms ≠ []) : ∃ offset confidence, weightedHalfDelay ms = some (offset, confidence) ∧
      confidence ≤ 1 ∧ (ms.length ≤ 2 ^ 64 → 0 < confidence) := by
  obtain ⟨w, hw, -, hhigh, hlow⟩ := exists_hasValue_weight h
  obtain ⟨c, hc, hone, hpos⟩ := exists_hasValue_mean hw (hlow hsome) hhigh
    (List.length_pos_iff.mpr hsome)
  have hweight : ¬ (sumHalfDelays ms).weight ≤ 0 := by
    rw [hw.le_iff hasValue_zero, not_le]
    linarith [hlow hsome]
  refine ⟨_, _, if_neg hweight, (hc.le_iff hasValue_one).mpr hone, ?_⟩
  intro hlimit
  exact (hasValue_zero.lt_iff hc).mpr (hpos hlimit)

end LightCone
