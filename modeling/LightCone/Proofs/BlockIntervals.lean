import LightCone.Proofs.DerivedTiming
import LightCone.Proofs.Overflow
import LightCone.Proofs.Seconds
import LightCone.Proofs.TimingCover

/-!
Block intervals under load.

A block interval is the block time, scaled by way of binary64 seconds and raised to a floor. This file

1. shows that a duration below `2 ^ 23` seconds comes back from seconds as it was
   (`Duration.ofSeconds_asSeconds`), and bounds a duration that is scaled down (`scale_le`);
2. gives loads and their factors values, and shows that a higher load has no larger factor
   (`loadScale_antitone`, `loadShare_mono`);
3. concludes for the block intervals of every set that has a timing (`blockInterval_bounded`), and gives
   settings and loads for which an interval is above the block time, or above that of a lower load.
-/
namespace LightCone

open Binary64 (HasValue nearest hasValue_zero hasValue_one)

/-! ## Durations by way of seconds -/

namespace Duration

variable {d d' : Duration} {x y : Binary64} {p q : ℚ}

/-- Below `2 ^ 23` seconds, the seconds of a duration are off by less than half a nanosecond. -/
theorem abs_asRat_sub_lt (h : d < ofSecs (2 ^ 23)) :
    |d.asRat - d.seconds| < 1 / 2000000000 := by
  have hsecs : d.secs + 1 ≤ 2 ^ 23 := by
    have hlimit : d.nanos < 2 ^ 23 * nanosPerSecond := h
    exact (Nat.div_lt_iff_lt_mul (by decide)).mpr hlimit
  have hwhole : nearest d.secs = d.secs := Binary64.nearest_natCast (by omega)
  have hless : (d.secs : ℚ) + 1 ≤ 2 ^ 23 := by exact_mod_cast hsecs
  have hfraction := Binary64.abs_nearest_sub_le_of_lt (q := d.fraction) (k := 0) (by omega) (by
    rw [abs_of_nonneg d.fraction_nonneg, pow_zero]
    linarith [d.fraction_le])
  have hsum := Binary64.abs_nearest_sub_le_of_lt (q := d.secs + nearest d.fraction) (k := 23) (by omega) (by
    rw [abs_of_nonneg (add_nonneg (Nat.cast_nonneg _) d.nearest_fraction_nonneg)]
    linarith [d.nearest_fraction_lt_one])
  obtain ⟨hfraction₁, hfraction₂⟩ := abs_le.mp hfraction
  obtain ⟨hsum₁, hsum₂⟩ := abs_le.mp hsum
  rw [seconds_eq, abs_lt]
  unfold asRat
  rw [hwhole]
  constructor <;> linarith

theorem seconds_mul_nanosPerSecond (d : Duration) : d.seconds * nanosPerSecond = d.nanos :=
  div_mul_cancel₀ _ nanosPerSecond_pos.ne'

/-- Such a duration comes back from seconds as it was. -/
theorem ofSeconds_asSeconds (h : d < ofSecs (2 ^ 23)) (hx : HasValue x d.asRat) :
    ofSeconds x = d := by
  have hlongest : (d.nanos : ℚ) ≤ longest.nanos := Nat.cast_le.mpr d.le_longest
  have hback := abs_nanos_ofSeconds_sub_le hx (t := d.nanos) (Nat.cast_nonneg _) hlongest
  have hclose := abs_asRat_sub_lt h
  have hscaled : |d.asRat * nanosPerSecond - d.nanos| < 1 / 2 := by
    rw [← d.seconds_mul_nanosPerSecond, ← sub_mul, abs_mul, abs_of_pos nanosPerSecond_pos]
    unfold nanosPerSecond
    push_cast
    linarith
  have hless : |((ofSeconds x).nanos - d.nanos : Int)| < 1 := by
    have hcast : |((ofSeconds x).nanos : ℚ) - d.nanos| < 1 := by linarith
    exact_mod_cast hcast
  rw [Int.abs_lt_one_iff] at hless
  exact Duration.ext (by omega)

/-- By way of seconds, no duration is off by more than one part in `2 ^ 51` and half a nanosecond. -/
theorem nanos_ofSeconds_asRat_le (hx : HasValue x d.asRat) :
    ((ofSeconds x).nanos : ℚ) ≤ d.nanos + d.nanos / 2 ^ 51 + 1 / 2 := by
  have hlongest : (d.nanos : ℚ) ≤ longest.nanos := Nat.cast_le.mpr d.le_longest
  have hback := abs_nanos_ofSeconds_sub_le hx (t := d.nanos) (Nat.cast_nonneg _) hlongest
  have hscaled : |d.asRat * nanosPerSecond - d.nanos| ≤ d.nanos / 2 ^ 51 := by
    have hclose := mul_le_mul_of_nonneg_right d.abs_asRat_sub_le nanosPerSecond_pos.le
    rwa [← abs_of_pos nanosPerSecond_pos, ← abs_mul, abs_of_pos nanosPerSecond_pos, sub_mul,
      div_mul_eq_mul_div, seconds_mul_nanosPerSecond] at hclose
  linarith [(abs_le.mp hback).2]

/-- Scaled by up to one, seconds stay numbers. -/
theorem hasValue_asSeconds_mul (d : Duration) (hx : HasValue x p) (hp : 0 ≤ p) (hle : p ≤ 1) :
    HasValue (d.asSeconds * x) (nearest (d.asRat * p)) := by
  refine d.hasValue_asSeconds.mul hx (le_sight ?_)
  rw [abs_of_nonneg (mul_nonneg d.asRat_nonneg hp)]
  have hmul : d.asRat * p ≤ d.asRat := mul_le_of_le_one_right d.asRat_nonneg hle
  linarith [d.asRat_le]

/-- A smaller factor up to one gives no longer duration. -/
theorem scale_le_scale (d : Duration) (hx : HasValue x p) (hy : HasValue y q) (hp : 0 ≤ p)
    (h : p ≤ q) (hle : q ≤ 1) : d.scale x ≤ d.scale y :=
  ofSeconds_mono (d.hasValue_asSeconds_mul hx hp (h.trans hle))
    (d.hasValue_asSeconds_mul hy (hp.trans h) hle)
    (Binary64.nearest_mono (mul_le_mul_of_nonneg_left h d.asRat_nonneg))

/-- A factor well below one makes up for all rounding. -/
theorem scale_le (d : Duration) (hx : HasValue x p) (hp : 0 ≤ p) (hle : p ≤ 7 / 8) :
    d.scale x ≤ d := by
  refine nanos_ofSeconds_le (d.hasValue_asSeconds_mul hx hp (by linarith)) ?_
  rw [← d.seconds_mul_nanosPerSecond]
  refine mul_le_mul_of_nonneg_right ?_ nanosPerSecond_pos.le
  rcases Nat.eq_zero_or_pos d.nanos with hzero | hpos
  · rw [asRat_eq_zero hzero, zero_mul, Binary64.nearest_zero]
    exact d.seconds_nonneg
  · have hleast : 1 / 1000000000 ≤ d.seconds := by
      have hone : (1 : ℚ) ≤ d.nanos := by exact_mod_cast hpos
      unfold seconds nanosPerSecond
      push_cast
      linarith
    have hproduct : d.asRat * p ≤ d.asRat * (7 / 8) := mul_le_mul_of_nonneg_left hle d.asRat_nonneg
    have hnonneg : 0 ≤ d.asRat * p := mul_nonneg d.asRat_nonneg hp
    have hround := Binary64.abs_nearest_sub_le (q := d.asRat * p) (le_sight (by
      rw [abs_of_nonneg hnonneg]
      linarith [d.asRat_le, d.asRat_nonneg]))
    have hunit := Binary64.half_unit_le
    rw [abs_of_nonneg hnonneg] at hround
    have hclose := (abs_le.mp d.abs_asRat_sub_le).2
    linarith [(abs_le.mp hround).2]

end Duration

/-! ## Loads -/

section Loads

variable {load load' : Binary64} {q : ℚ}

theorem hasValue_loadShare (h : HasValue load q) : HasValue (loadShare load) (max 0 (min q 1)) := by
  unfold loadShare
  rw [if_pos h.finite]
  exact h.clamp hasValue_zero hasValue_one zero_le_one

theorem loadShare_of_not_finite (h : load.isFinite ≠ true) : loadShare load = 0 := if_neg h

theorem exists_hasValue_loadShare (load : Binary64) : ∃ q, HasValue (loadShare load) q ∧ 0 ≤ q := by
  by_cases h : load.isFinite = true
  · exact ⟨_, hasValue_loadShare ⟨h, rfl⟩, le_max_left _ _⟩
  · rw [loadShare_of_not_finite h]
    exact ⟨0, hasValue_zero, le_rfl⟩

theorem le_minusInfinity (h : load ≤ .infinity true) : load = .infinity true := by
  obtain ⟨x, y, hx, hy, hle⟩ := Binary64.le_iff_rank.mp h
  cases load with
  | nan => cases hx
  | infinity negative =>
    cases negative with
    | true => rfl
    | false =>
      cases hx
      cases hy
      have hpos : 0 < Binary64.overflow := by
        rw [Binary64.overflow_eq]
        exact Nat.two_pow_pos _
      simp only [Binary64.signed, Bool.false_eq_true, if_true, if_false] at hle
      omega
  | finite negative units fits =>
    cases hx
    cases hy
    have hless := fits.1
    cases negative <;> simp only [Binary64.signed, Bool.false_eq_true, if_true, if_false] at hle <;> omega

/-- A higher load is no smaller share, unless it is infinite and counts as none. -/
theorem loadShare_mono (h : load ≤ load') (hinfinite : load' ≠ .infinity false) :
    loadShare load ≤ loadShare load' := by
  obtain ⟨q, hq, hnonneg⟩ := exists_hasValue_loadShare load'
  by_cases hfinite : load.isFinite = true
  · have hload : HasValue load load.toRat := ⟨hfinite, rfl⟩
    cases load' with
    | nan =>
      obtain ⟨_, _, _, hnone, _⟩ := Binary64.le_iff_rank.mp h
      cases hnone
    | infinity negative =>
      cases negative with
      | false => exact absurd rfl hinfinite
      | true =>
        rw [le_minusInfinity h] at hfinite
        cases hfinite
    | finite negative units fits =>
      have hload' : HasValue (.finite negative units fits) _ := ⟨rfl, rfl⟩
      rw [hload.le_iff hload'] at h
      rw [(hasValue_loadShare hload).le_iff (hasValue_loadShare hload')]
      exact max_le_max_left 0 (min_le_min_right 1 h)
  · rw [loadShare_of_not_finite hfinite, hasValue_zero.le_iff hq]
    exact hnonneg

/-- The two thresholds and the three factors, in their order. -/
theorem constants_ordered :
    (0.5 : Binary64).isFinite = true ∧ (0.5 : Binary64) < 1 ∧ (0.5 : Binary64) ≤ 0.8 ∧
    (0.7 : Binary64) ≤ 0.7 ∧ (0.7 : Binary64) ≤ 0.85 ∧ (0.7 : Binary64) ≤ 1 ∧
    (0.85 : Binary64) ≤ 0.85 ∧ (0.85 : Binary64) ≤ 1 ∧ (1 : Binary64) ≤ 1 := by decide +kernel

theorem half_lt_loadShare (hfinite : load.isFinite = true) (h : 0.5 < load) :
    0.5 < loadShare load := by
  have hload : HasValue load load.toRat := ⟨hfinite, rfl⟩
  have hhalf : HasValue 0.5 (Binary64.toRat 0.5) := ⟨constants_ordered.1, rfl⟩
  have hless := (hhalf.lt_iff hasValue_one).mp constants_ordered.2.1
  rw [hhalf.lt_iff hload] at h
  rw [hhalf.lt_iff (hasValue_loadShare hload)]
  exact lt_max_of_lt_right (lt_min h hless)

/-- The factor of a load is up to one, and well below it above one half. -/
theorem exists_hasValue_loadScale (load : Binary64) :
    ∃ p, HasValue (loadScale load) p ∧ 0 ≤ p ∧ p ≤ 1 ∧ (0.5 < load → p ≤ 7 / 8) := by
  unfold loadScale
  split
  · obtain ⟨p, hp, hnonneg, hclose⟩ :=
      Binary64.exists_hasValue_decimal 7 1 (by decide)
    have hless := (abs_le.mp hclose).2
    exact ⟨p, hp, hnonneg, by linarith, fun _ => by linarith⟩
  · split
    · obtain ⟨p, hp, hnonneg, hclose⟩ :=
        Binary64.exists_hasValue_decimal 85 2 (by decide)
      have hless := (abs_le.mp hclose).2
      exact ⟨p, hp, hnonneg, by linarith, fun _ => by linarith⟩
    · next h => exact ⟨1, hasValue_one, zero_le_one, le_rfl, fun hhalf => absurd hhalf h⟩

theorem loadScale_antitone (h : load ≤ load') : loadScale load' ≤ loadScale load := by
  obtain ⟨-, -, -, hlow, hmiddle, hhigh, hmiddle', hhigh', hone⟩ := constants_ordered
  unfold loadScale
  by_cases hload : 0.8 < load
  · rwa [if_pos hload, if_pos (Binary64.lt_of_lt_of_le hload h)]
  · rw [if_neg hload]
    by_cases hhalf : 0.5 < load
    · rw [if_pos hhalf, if_pos (Binary64.lt_of_lt_of_le hhalf h)]
      split <;> assumption
    · rw [if_neg hhalf]
      split
      · assumption
      · split <;> assumption

theorem loadScale_of_not_half_lt (h : ¬ 0.5 < load) : loadScale load = 1 := by
  have hhigh : ¬ 0.8 < load := fun hlt => h (Binary64.lt_of_le_of_lt constants_ordered.2.2.1 hlt)
  rw [loadScale, if_neg hhigh, if_neg h]

end Loads

/-! ## Block intervals -/

section Intervals

variable {blockTime floor : Duration} {load load' : Binary64}

/-- Up to one half, a block time only goes to seconds and back. -/
theorem hasValue_of_not_half_lt (blockTime : Duration) (h : ¬ 0.5 < load) :
    HasValue (blockTime.asSeconds * loadScale load) blockTime.asRat := by
  have hvalue := blockTime.hasValue_asSeconds_mul hasValue_one zero_le_one le_rfl
  rwa [mul_one, blockTime.hasValue_asSeconds.nearest_eq, ← loadScale_of_not_half_lt h] at hvalue

theorem scale_loadScale_le (h : 0.5 < load ∨ blockTime < .ofSecs (2 ^ 23)) :
    blockTime.scale (loadScale load) ≤ blockTime := by
  by_cases hhalf : 0.5 < load
  · obtain ⟨p, hp, hnonneg, -, hle⟩ := exists_hasValue_loadScale load
    exact blockTime.scale_le hp hnonneg (hle hhalf)
  · have hsame := Duration.ofSeconds_asSeconds (h.resolve_left hhalf)
      (hasValue_of_not_half_lt blockTime hhalf)
    exact Nat.le_of_eq (congrArg Duration.nanos hsame)

theorem nanos_scale_loadScale_le (blockTime : Duration) (load : Binary64) :
    ((blockTime.scale (loadScale load)).nanos : ℚ) ≤
      blockTime.nanos + blockTime.nanos / 2 ^ 51 + 1 / 2 := by
  by_cases hhalf : 0.5 < load
  · have hle : ((blockTime.scale (loadScale load)).nanos : ℚ) ≤ blockTime.nanos :=
      Nat.cast_le.mpr (scale_loadScale_le (.inl hhalf))
    have hlost : (0 : ℚ) ≤ blockTime.nanos / 2 ^ 51 := by positivity
    linarith
  · exact Duration.nanos_ofSeconds_asRat_le (hasValue_of_not_half_lt blockTime hhalf)

/-- A block interval is no shorter than its floor, and no longer than the longer one of floor and block
    time, for a load above one half, and for a block time that comes back from seconds as it was. Any
    other block time it exceeds by no more than is lost in seconds. -/
structure IntervalBounds (floor blockTime : Duration) (load : Binary64) (interval : Duration) :
    Prop where
  floor_le : floor ≤ interval
  le_longer : load.isFinite = true ∧ 0.5 < load ∨ blockTime < .ofSecs (2 ^ 23) →
    interval ≤ blockTime.longer floor
  le_rounded : interval ≤ floor ∨
    (interval.nanos : ℚ) ≤ blockTime.nanos + blockTime.nanos / 2 ^ 51 + 1 / 2

theorem intervalBounds_blockInterval (blockTime : Duration) (load : Binary64) (floor : Duration) :
    IntervalBounds floor blockTime load (blockInterval blockTime (loadShare load) floor) := by
  have hnanos : (blockInterval blockTime (loadShare load) floor).nanos =
      max (blockTime.scale (loadScale (loadShare load))).nanos floor.nanos := Duration.nanos_longer _ _
  refine ⟨?_, ?_, ?_⟩
  · show floor.nanos ≤ _
    omega
  · intro h
    refine Duration.longer_mono (scale_loadScale_le ?_) (Nat.le_refl _)
    exact h.imp_left fun ⟨hfinite, hhalf⟩ => half_lt_loadShare hfinite hhalf
  · rcases max_choice (blockTime.scale (loadScale (loadShare load))).nanos floor.nanos with hmax | hmax
    · right
      rw [hnanos, hmax]
      exact nanos_scale_loadScale_le blockTime (loadShare load)
    · left
      exact Nat.le_of_eq (hnanos.trans hmax)

/-- A higher load gives no longer block interval, unless it is infinite and counts as none. -/
theorem blockInterval_antitone (blockTime floor : Duration) (h : load ≤ load')
    (hinfinite : load' ≠ .infinity false) :
    blockInterval blockTime (loadShare load') floor ≤ blockInterval blockTime (loadShare load) floor := by
  obtain ⟨p, hp, -, hle, -⟩ := exists_hasValue_loadScale (loadShare load)
  obtain ⟨q, hq, hnonneg, -⟩ := exists_hasValue_loadScale (loadShare load')
  have hfactor := loadScale_antitone (loadShare_mono h hinfinite)
  rw [hq.le_iff hp] at hfactor
  exact Duration.longer_mono (blockTime.scale_le_scale hq hp hnonneg hfactor hle) (Nat.le_refl _)

end Intervals

/-! ## Intervals of sets -/

theorem Service.blockInterval_of_ok {s : Service} {ids : List String} {timing : ConsensusTiming}
    (htiming : (s.consensusTiming ids).1 = .ok timing) (load : Binary64) :
    (s.blockInterval ids load).1 = .ok (LightCone.blockInterval timing.blockTime (loadShare load)
      s.settings.consensus.minBlockInterval) := by
  have hsettings : (s.consensusTiming ids).2.settings = s.settings := by
    rw [settings, env_consensusTiming]
    rfl
  rw [blockInterval, fromTiming_of_ok _ htiming, hsettings]

/-- A set that has a timing has a block interval for every load, within its bounds. Of two loads the
    higher one has no longer interval, unless it is infinite: that has the interval of no load. -/
theorem Service.blockInterval_bounded {s : Service} {ids : List String} {timing : ConsensusTiming}
    (htiming : (s.consensusTiming ids).1 = .ok timing) :
    (∀ load, ∃ interval, (s.blockInterval ids load).1 = .ok interval ∧
      IntervalBounds s.settings.consensus.minBlockInterval timing.blockTime load interval) ∧
    (∀ load load' interval interval', load ≤ load' → load' ≠ .infinity false →
      (s.blockInterval ids load).1 = .ok interval → (s.blockInterval ids load').1 = .ok interval' →
      interval' ≤ interval) ∧
    (s.blockInterval ids (.infinity false)).1 = (s.blockInterval ids 0).1 := by
  refine ⟨?_, ?_, ?_⟩
  · intro load
    exact ⟨_, blockInterval_of_ok htiming load, intervalBounds_blockInterval _ _ _⟩
  · intro load load' interval interval' hle hinfinite hinterval hinterval'
    rw [blockInterval_of_ok htiming] at hinterval hinterval'
    cases hinterval
    cases hinterval'
    exact blockInterval_antitone _ _ hle hinfinite
  · have hshare : loadShare (.infinity false) = loadShare 0 := by decide +kernel
    rw [blockInterval_of_ok htiming, blockInterval_of_ok htiming, hshare]

/-! ## The two nodes -/

open TwoNodes

/-- Settings with one block time for all delays, and a floor. -/
def steady (blockTime floor : Duration) : Settings :=
  { consensus :=
      { minBlockTime := blockTime, maxBlockTime := blockTime, minBlockInterval := floor } }

theorem check_steady (blockTime floor : Duration) : (steady blockTime floor).check = .ok () := by
  have haccepted := Settings.check_eq_ok_iff.mp check_defaults
  exact Settings.check_eq_ok_iff.mpr { haccepted with blockTime := Nat.le_refl _ }

theorem clamp_self (d bound : Duration) : d.clamp bound bound = bound := by
  apply Duration.ext
  rw [Duration.nanos_clamp]
  omega

/-- A service with such settings, over two nodes 20000 km apart. -/
def steadyService (blockTime floor : Duration) : Service :=
  tuned (steady blockTime floor) 20000000 high_ok

/-- There the two nodes have a timing with that block time, and block intervals by it. -/
theorem blockInterval_steady (blockTime floor : Duration) : ∃ timing,
    ((steadyService blockTime floor).consensusTiming ["a", "b"]).1 = .ok timing ∧
    timing.blockTime = blockTime ∧
    ∀ load, ((steadyService blockTime floor).blockInterval ["a", "b"] load).1 =
      .ok (blockInterval blockTime (loadShare load) floor) := by
  have htiming := consensusTiming_tuned (steady blockTime floor) finite_high
  generalize htiming' : ConsensusTiming.derive _ 2 (fingerprint ["a", "b"]) .epoch
    (steady blockTime floor).consensus = timing at htiming
  have hblock : timing.blockTime = blockTime := by
    rw [← htiming']
    exact clamp_self _ _
  refine ⟨timing, htiming, hblock, ?_⟩
  intro load
  rw [steadyService, Service.blockInterval_of_ok htiming, hblock]
  rfl

/-- A load of 0.9 shortens a block time of ten seconds to seven. -/
theorem blockInterval_bounded_high : ∃ interval,
    ((steadyService (.ofSecs 10) (.ofSecs 1)).blockInterval ["a", "b"] 0.9).1 = .ok interval ∧
    IntervalBounds (.ofSecs 1) (.ofSecs 10) 0.9 interval ∧ interval = .ofSecs 7 := by
  obtain ⟨timing, htiming, hblock, hinterval⟩ := blockInterval_steady (.ofSecs 10) (.ofSecs 1)
  obtain ⟨interval, hok, hbounds⟩ := (Service.blockInterval_bounded htiming).1 0.9
  rw [hblock] at hbounds
  refine ⟨interval, hok, hbounds, ?_⟩
  rw [hinterval] at hok
  cases hok
  decide +kernel

/-- A block interval is longer than the block time where the floor is, and where a long block time is
    rounded up in seconds; and an infinite load has a longer one than a load of 0.9. -/
theorem blockInterval_exceeds :
    (∃ timing interval, (steady (.ofSecs 2) (.ofSecs 5)).check = .ok () ∧
      ((steadyService (.ofSecs 2) (.ofSecs 5)).consensusTiming ["a", "b"]).1 = .ok timing ∧
      ((steadyService (.ofSecs 2) (.ofSecs 5)).blockInterval ["a", "b"] 0).1 = .ok interval ∧
      ¬ interval ≤ timing.blockTime) ∧
    (∃ timing interval, (steady (.ofNanos 8388608000000001) (.ofSecs 1)).check = .ok () ∧
      ((steadyService (.ofNanos 8388608000000001) (.ofSecs 1)).consensusTiming ["a", "b"]).1 =
        .ok timing ∧
      ((steadyService (.ofNanos 8388608000000001) (.ofSecs 1)).blockInterval ["a", "b"] 0).1 =
        .ok interval ∧
      .ofSecs 1 ≤ timing.blockTime ∧ ¬ interval ≤ timing.blockTime) ∧
    ∃ interval interval', (steady (.ofSecs 10) (.ofSecs 1)).check = .ok () ∧
      (0.9 : Binary64) ≤ .infinity false ∧
      ((steadyService (.ofSecs 10) (.ofSecs 1)).blockInterval ["a", "b"] 0.9).1 = .ok interval ∧
      ((steadyService (.ofSecs 10) (.ofSecs 1)).blockInterval ["a", "b"] (.infinity false)).1 =
        .ok interval' ∧
      ¬ interval' ≤ interval := by
  refine ⟨?_, ?_, ?_⟩
  · obtain ⟨timing, htiming, hblock, hinterval⟩ := blockInterval_steady (.ofSecs 2) (.ofSecs 5)
    refine ⟨timing, _, check_steady _ _, htiming, hinterval 0, ?_⟩
    rw [hblock]
    decide +kernel
  · obtain ⟨timing, htiming, hblock, hinterval⟩ :=
      blockInterval_steady (.ofNanos 8388608000000001) (.ofSecs 1)
    refine ⟨timing, _, check_steady _ _, htiming, hinterval 0, ?_, ?_⟩
    · rw [hblock]
      decide +kernel
    · rw [hblock]
      decide +kernel
  · obtain ⟨-, -, -, hinterval⟩ := blockInterval_steady (.ofSecs 10) (.ofSecs 1)
    exact ⟨_, _, check_steady _ _, by decide +kernel, hinterval 0.9, hinterval (.infinity false),
      by decide +kernel⟩

end LightCone
