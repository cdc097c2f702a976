import LightCone.Proofs.Nearest
import LightCone.Time.Duration
import Mathlib.Algebra.Order.Field.Basic

/-!
Durations in binary64 seconds, and back.

A duration is rounded twice on its way to seconds, and once on its way back. This file

1. gives the value of a duration in seconds (`Duration.hasValue_asSeconds`), shows that longer
   durations have no smaller ones (`asRat_mono`), and that they are off by one part in `2 ^ 51` at
   most (`abs_asRat_sub_le`);
2. shows that the way back is off by half a nanosecond at most, durations past the longest one
   aside, and keeps the order too (`abs_nanos_ofSeconds_sub_le`, `nanos_ofSeconds_le`,
   `ofSeconds_mono`).
-/
namespace LightCone.Duration

open Binary64 (HasValue nearest sight one)

variable {d d' : Duration} {x y : Binary64} {p q : ℚ}

/-! ## Seconds of durations -/

/-- A duration in seconds. -/
def seconds (d : Duration) : ℚ := d.nanos / nanosPerSecond

/-- The fraction of a second that a duration has past its last whole one. -/
def fraction (d : Duration) : ℚ := d.subsecNanos / nanosPerSecond

/-- The value of a duration in seconds: its whole seconds and its fraction are rounded each, and
    then their sum. -/
def asRat (d : Duration) : ℚ := nearest (nearest d.secs + nearest d.fraction)

theorem nanosPerSecond_pos : (0 : ℚ) < nanosPerSecond := by
  norm_num [nanosPerSecond]

theorem seconds_eq (d : Duration) : d.seconds = d.secs + d.fraction := by
  have hsplit := Nat.div_add_mod d.nanos nanosPerSecond
  have hpos := nanosPerSecond_pos.ne'
  unfold seconds fraction secs subsecNanos
  rw [eq_comm, ← mul_right_cancel_iff_of_pos nanosPerSecond_pos, add_mul, div_mul_cancel₀ _ hpos,
    div_mul_cancel₀ _ hpos, mul_comm]
  exact_mod_cast hsplit

theorem fraction_nonneg (d : Duration) : 0 ≤ d.fraction := by
  unfold fraction
  positivity

theorem subsecNanos_lt (d : Duration) : d.subsecNanos < nanosPerSecond :=
  Nat.mod_lt _ (by decide)

theorem fraction_le (d : Duration) : d.fraction ≤ 999999999 / 1000000000 := by
  have hlt := d.subsecNanos_lt
  have hle : (d.subsecNanos : ℚ) ≤ 999999999 := by
    exact_mod_cast (by unfold nanosPerSecond at hlt; omega : d.subsecNanos ≤ 999999999)
  unfold fraction nanosPerSecond
  push_cast
  linarith

theorem secs_lt (d : Duration) : d.secs < 2 ^ 64 := by
  have hlimit := d.lt_limit
  unfold secs
  rw [Nat.div_lt_iff_lt_mul (by decide)]
  exact hlimit

theorem secs_le (d : Duration) : (d.secs : ℚ) ≤ 2 ^ 64 := by
  exact_mod_cast d.secs_lt.le

theorem le_sight (h : q ≤ 2 ^ 100) : q ≤ sight := h.trans (Binary64.two_pow_le_sight (by omega))

theorem hasValue_nanosPerSecond : HasValue 1000000000 nanosPerSecond :=
  Binary64.hasValue_natCast (by decide)

/-- A fraction of a second is large enough to keep 53 bits. -/
theorem abs_nearest_fraction_sub_le (d : Duration) :
    |nearest d.fraction - d.fraction| ≤ d.fraction / 2 ^ 52 := by
  have hnonneg := d.fraction_nonneg
  have habs := abs_of_nonneg hnonneg
  rcases Nat.eq_zero_or_pos d.subsecNanos with hzero | hpos
  · have hfraction : d.fraction = 0 := by
      unfold fraction
      rw [hzero, Nat.cast_zero, zero_div]
    rw [hfraction, Binary64.nearest_zero]
    norm_num
  · have hlarge : 2 ^ 52 ≤ |d.fraction| * one := by
      have hone : (2 ^ 100 : ℚ) ≤ one := Binary64.two_pow_le_one (by omega)
      have hle : (1 / 1000000000 : ℚ) ≤ d.fraction := by
        have hnanos : (1 : ℚ) ≤ d.subsecNanos := by exact_mod_cast hpos
        unfold fraction nanosPerSecond
        push_cast
        linarith
      rw [habs]
      calc (2 ^ 52 : ℚ) ≤ 1 / 1000000000 * 2 ^ 100 := by norm_num
        _ ≤ d.fraction * one := mul_le_mul hle hone (by positivity) hnonneg
    have hbound := Binary64.abs_nearest_sub_le_of_large hlarge
      (le_sight (by rw [habs]; linarith [d.fraction_le]))
    rwa [habs] at hbound

theorem nearest_fraction_nonneg (d : Duration) : 0 ≤ nearest d.fraction :=
  Binary64.nearest_nonneg d.fraction_nonneg

theorem nearest_fraction_lt_one (d : Duration) : nearest d.fraction < 1 := by
  linarith [d.fraction_le, (abs_le.mp d.abs_nearest_fraction_sub_le).2]

theorem nearest_secs_nonneg (d : Duration) : 0 ≤ nearest (d.secs : ℚ) :=
  Binary64.nearest_nonneg (Nat.cast_nonneg _)

theorem nearest_secs_le (d : Duration) : nearest (d.secs : ℚ) ≤ 2 ^ 64 := by
  calc nearest (d.secs : ℚ) ≤ nearest (2 ^ 64) := Binary64.nearest_mono d.secs_le
    _ = 2 ^ 64 := Binary64.nearest_two_pow (by omega)

theorem hasValue_secs (d : Duration) : HasValue (.ofNat d.secs) (nearest d.secs) :=
  Binary64.hasValue_ofNat (le_sight (by linarith [d.secs_le]))

theorem hasValue_fraction (d : Duration) :
    HasValue (Binary64.ofNat d.subsecNanos / 1000000000) (nearest d.fraction) := by
  have hlt := d.subsecNanos_lt
  have hnanos := Binary64.hasValue_ofNat (n := d.subsecNanos) (le_sight (by
    have hle : (d.subsecNanos : ℚ) ≤ nanosPerSecond := by exact_mod_cast hlt.le
    exact hle.trans (by norm_num [nanosPerSecond])))
  rw [Binary64.nearest_natCast (hlt.trans (by decide))] at hnanos
  refine hnanos.div hasValue_nanosPerSecond nanosPerSecond_pos.ne' (le_sight ?_)
  show |d.fraction| ≤ _
  rw [abs_of_nonneg d.fraction_nonneg]
  linarith [d.fraction_le]

theorem hasValue_asSeconds (d : Duration) : HasValue d.asSeconds d.asRat := by
  refine d.hasValue_secs.add d.hasValue_fraction (le_sight ?_)
  rw [abs_of_nonneg (add_nonneg d.nearest_secs_nonneg d.nearest_fraction_nonneg)]
  linarith [d.nearest_secs_le, d.nearest_fraction_lt_one]

/-! ### Order -/

theorem asRat_nonneg (d : Duration) : 0 ≤ d.asRat :=
  Binary64.nearest_nonneg (add_nonneg d.nearest_secs_nonneg d.nearest_fraction_nonneg)

theorem nearest_secs_le_asRat (d : Duration) : nearest (d.secs : ℚ) ≤ d.asRat := by
  have hself := d.hasValue_secs.nearest_eq
  calc nearest (d.secs : ℚ) = nearest (nearest d.secs) := hself.symm
    _ ≤ d.asRat := Binary64.nearest_mono (by linarith [d.nearest_fraction_nonneg])

/-- The fraction never carries seconds past the next whole one: it is below one, and rounded away
    where seconds are no longer counted one by one. -/
theorem asRat_le_nearest_succ (d : Duration) : d.asRat ≤ nearest (d.secs + 1 : Nat) := by
  by_cases hsmall : d.secs < 2 ^ 53
  · unfold asRat
    rw [Binary64.nearest_natCast hsmall]
    refine Binary64.nearest_mono ?_
    push_cast
    linarith [d.nearest_fraction_lt_one]
  · have hlarge : (2 ^ 53 : ℚ) ≤ nearest d.secs := by
      have hle : (2 ^ 53 : ℚ) ≤ d.secs := by exact_mod_cast Nat.not_lt.mp hsmall
      calc (2 ^ 53 : ℚ) = nearest (2 ^ 53) := (Binary64.nearest_two_pow (by omega)).symm
        _ ≤ nearest d.secs := Binary64.nearest_mono hle
    have hsum : d.asRat = nearest d.secs :=
      Binary64.nearest_add_of_lt_one d.hasValue_secs hlarge d.nearest_fraction_nonneg
        d.nearest_fraction_lt_one
        (le_sight (by linarith [d.nearest_secs_le, d.nearest_fraction_lt_one]))
    rw [hsum]
    refine Binary64.nearest_mono ?_
    push_cast
    linarith

/-- A longer duration has no fewer seconds. -/
theorem asRat_mono (h : d ≤ d') : d.asRat ≤ d'.asRat := by
  have hsecs : d.secs ≤ d'.secs := Nat.div_le_div_right h
  rcases Nat.lt_or_eq_of_le hsecs with hless | hsame
  · calc d.asRat ≤ nearest (d.secs + 1 : Nat) := d.asRat_le_nearest_succ
      _ ≤ nearest d'.secs := Binary64.nearest_mono (Nat.cast_le.mpr hless)
      _ ≤ d'.asRat := d'.nearest_secs_le_asRat
  · have hnanos : d.subsecNanos ≤ d'.subsecNanos := by
      have hsplit := Nat.div_add_mod d.nanos nanosPerSecond
      have hsplit' := Nat.div_add_mod d'.nanos nanosPerSecond
      have hle : d.nanos ≤ d'.nanos := h
      unfold secs at hsame
      unfold subsecNanos
      rw [hsame] at hsplit
      omega
    have hfraction : d.fraction ≤ d'.fraction :=
      div_le_div_of_nonneg_right (Nat.cast_le.mpr hnanos) nanosPerSecond_pos.le
    unfold asRat
    rw [hsame]
    exact Binary64.nearest_mono (by linarith [Binary64.nearest_mono hfraction])

/-- Up to a power of two seconds, the seconds are up to that power too. -/
theorem asRat_le_two_pow {k : Nat} (hk : k ≤ 1000) (h : d.seconds ≤ 2 ^ k) : d.asRat ≤ 2 ^ k := by
  rw [seconds_eq] at h
  rcases d.fraction_nonneg.eq_or_lt with hnone | hsome
  · have hself : d.asRat = nearest d.secs := by
      unfold asRat
      rw [← hnone, Binary64.nearest_zero, add_zero, d.hasValue_secs.nearest_eq]
    rw [hself, ← Binary64.nearest_two_pow hk]
    exact Binary64.nearest_mono (by linarith)
  · have hless : d.secs < 2 ^ k := by
      have hless' : (d.secs : ℚ) < 2 ^ k := by linarith
      exact_mod_cast hless'
    calc d.asRat ≤ nearest (d.secs + 1 : Nat) := d.asRat_le_nearest_succ
      _ ≤ nearest (2 ^ k) := Binary64.nearest_mono (by exact_mod_cast hless)
      _ = 2 ^ k := Binary64.nearest_two_pow hk

/-! ### Error -/

/-- Seconds are off by one part in `2 ^ 51` at most. -/
theorem abs_asRat_sub_le (d : Duration) : |d.asRat - d.seconds| ≤ d.seconds / 2 ^ 51 := by
  have hsecs : |nearest d.secs - (d.secs : ℚ)| ≤ d.secs / 2 ^ 53 :=
    Binary64.abs_nearest_natCast_sub_le (le_sight (by linarith [d.secs_le]))
  have hsum := Binary64.abs_nearest_add_sub_le d.hasValue_secs d.hasValue_fraction
    (le_sight (by
      rw [abs_of_nonneg (add_nonneg d.nearest_secs_nonneg d.nearest_fraction_nonneg)]
      linarith [d.nearest_secs_le, d.nearest_fraction_lt_one]))
  rw [abs_of_nonneg (add_nonneg d.nearest_secs_nonneg d.nearest_fraction_nonneg)] at hsum
  obtain ⟨hsecs₁, hsecs₂⟩ := abs_le.mp hsecs
  obtain ⟨hfraction₁, hfraction₂⟩ := abs_le.mp d.abs_nearest_fraction_sub_le
  obtain ⟨hsum₁, hsum₂⟩ := abs_le.mp hsum
  have hnonneg : (0 : ℚ) ≤ d.secs := Nat.cast_nonneg _
  have hnonneg' := d.fraction_nonneg
  rw [seconds_eq, abs_le]
  unfold asRat
  constructor <;> linarith

theorem seconds_nonneg (d : Duration) : 0 ≤ d.seconds :=
  div_nonneg (Nat.cast_nonneg _) nanosPerSecond_pos.le

theorem seconds_le (d : Duration) : d.seconds ≤ 2 ^ 64 := by
  have hlimit : (d.nanos : ℚ) ≤ 2 ^ 64 * nanosPerSecond := by
    have hle := d.lt_limit.le
    unfold limit at hle
    unfold nanosPerSecond
    exact_mod_cast hle
  exact div_le_of_le_mul₀ nanosPerSecond_pos.le (by positivity) hlimit

theorem asRat_le (d : Duration) : d.asRat ≤ 2 ^ 64 := asRat_le_two_pow (by omega) d.seconds_le

theorem asRat_eq_zero (h : d.nanos = 0) : d.asRat = 0 := by
  have hseconds : d.seconds = 0 := by
    unfold seconds
    rw [h, Nat.cast_zero, zero_div]
  have hclose := d.abs_asRat_sub_le
  rw [hseconds, zero_div, sub_zero] at hclose
  exact abs_nonpos_iff.mp hclose

/-- A duration that is not zero has positive seconds. -/
theorem asRat_pos (h : d.nanos ≠ 0) : 0 < d.asRat := by
  have hseconds : 0 < d.seconds :=
    div_pos (Nat.cast_pos.mpr (Nat.pos_of_ne_zero h)) nanosPerSecond_pos
  linarith [(abs_le.mp d.abs_asRat_sub_le).1]

/-! ## Durations of seconds -/

/-- What is not negative has the duration of the nearest count of nanoseconds, all else none. -/
theorem nanos_ofSeconds_of_units {negative : Bool} {units : Nat} {fits : Binary64.Fits units} :
    (ofSeconds (.finite negative units fits)).nanos =
      if negative then 0
      else min (roundHalfEven (units * nanosPerSecond) one) longest.nanos := by
  cases negative with
  | false =>
    rw [if_neg (by decide)]
    unfold ofSeconds one
    rw [nanos_ofNanos]
  | true => rfl

/-- Seconds and the nanoseconds of their duration differ by half a nanosecond at most. For the
    distance to a time in the range of durations, those out of that range are no exception. -/
theorem abs_nanos_ofSeconds_sub_le (hx : HasValue x q) {t : ℚ} (ht : 0 ≤ t)
    (hlongest : t ≤ longest.nanos) :
    |((ofSeconds x).nanos : ℚ) - t| ≤ |q * nanosPerSecond - t| + 1 / 2 := by
  obtain ⟨s, u, f, rfl, hq⟩ := hx.eq_finite
  have hone := Binary64.one_pos_rat
  rw [nanos_ofSeconds_of_units]
  cases s with
  | true =>
    have hneg : q * nanosPerSecond ≤ 0 := by
      refine mul_nonpos_of_nonpos_of_nonneg (nonpos_of_mul_nonpos_left ?_ hone)
        nanosPerSecond_pos.le
      rw [hq]
      simp [Binary64.signed]
    rw [if_pos rfl, abs_of_nonpos (by push_cast; linarith), abs_of_nonpos (by linarith)]
    push_cast
    linarith
  | false =>
    rw [if_neg (by decide)]
    have hnanos : q * nanosPerSecond = (u * nanosPerSecond : Nat) / one := by
      rw [eq_div_iff hone.ne', mul_right_comm, hq]
      simp [Binary64.signed]
    obtain ⟨hlower, hupper, -⟩ := roundHalfEven_spec (u * nanosPerSecond) Binary64.one_pos
    rw [hnanos]
    generalize u * nanosPerSecond = num at hlower hupper
    generalize roundHalfEven num one = r at hlower hupper
    have hlower' : (num : ℚ) / one ≤ r + 1 / 2 := by
      have hcast : (2 * num : ℚ) ≤ (2 * r + 1) * one := by exact_mod_cast hlower
      rw [div_le_iff₀ hone]
      linarith
    have hupper' : (r : ℚ) - 1 / 2 ≤ num / one := by
      have hcast : (2 * r * one : ℚ) ≤ 2 * num + one := by exact_mod_cast hupper
      rw [le_div_iff₀ hone]
      linarith
    have hmin : |(min (r : ℚ) longest.nanos) - t| ≤ |(r : ℚ) - t| := by
      rcases le_total (r : ℚ) longest.nanos with hle | hle
      · rw [min_eq_left hle]
      · rw [min_eq_right hle, abs_of_nonneg (by linarith), abs_of_nonneg (by linarith)]
        linarith
    push_cast
    refine hmin.trans (abs_le.mpr ⟨?_, ?_⟩)
    · linarith [neg_abs_le ((num : ℚ) / one - t)]
    · linarith [le_abs_self ((num : ℚ) / one - t)]

/-- Up to a whole number of nanoseconds, the duration has no more than these. -/
theorem nanos_ofSeconds_le (hx : HasValue x q) {n : Nat} (h : q * nanosPerSecond ≤ n) :
    (ofSeconds x).nanos ≤ n := by
  obtain ⟨s, u, f, rfl, hq⟩ := hx.eq_finite
  rw [nanos_ofSeconds_of_units]
  cases s with
  | true => exact Nat.zero_le n
  | false =>
    rw [if_neg (by decide)]
    refine (Nat.min_le_left _ _).trans ?_
    have hle : u * nanosPerSecond * 1 ≤ n * one := by
      have hunits : q * one = u := by
        rw [hq]
        simp [Binary64.signed]
      have hmul := mul_le_mul_of_nonneg_right h Binary64.one_pos_rat.le
      rw [mul_right_comm, hunits] at hmul
      rw [Nat.mul_one]
      exact_mod_cast hmul
    calc roundHalfEven (u * nanosPerSecond) one ≤ roundHalfEven n 1 :=
          roundHalfEven_le_of_le Binary64.one_pos Nat.one_pos hle
      _ = n := by simpa using roundHalfEven_mul n Nat.one_pos

/-- From a whole number of nanoseconds on, the duration has no fewer than these, up to the longest. -/
theorem le_nanos_ofSeconds (hx : HasValue x q) {n : Nat} (hn : n ≤ longest.nanos)
    (h : n ≤ q * nanosPerSecond) : n ≤ (ofSeconds x).nanos := by
  obtain ⟨s, u, f, rfl, hq⟩ := hx.eq_finite
  have hmul := mul_le_mul_of_nonneg_right h Binary64.one_pos_rat.le
  rw [mul_right_comm, hq] at hmul
  rw [nanos_ofSeconds_of_units]
  cases s with
  | true =>
    have hneg : ((Binary64.signed true u : Int) : ℚ) * nanosPerSecond ≤ 0 :=
      mul_nonpos_of_nonpos_of_nonneg (by simp [Binary64.signed]) nanosPerSecond_pos.le
    have hnone : (n : ℚ) ≤ 0 :=
      nonpos_of_mul_nonpos_left (hmul.trans hneg) Binary64.one_pos_rat
    exact_mod_cast hnone
  | false =>
    rw [if_neg (by decide)]
    refine Nat.le_min.mpr ⟨?_, hn⟩
    have hle : n * one ≤ u * nanosPerSecond * 1 := by
      rw [Nat.mul_one]
      simp only [Binary64.signed, Bool.false_eq_true, if_false, Int.cast_natCast] at hmul
      exact_mod_cast hmul
    calc n = roundHalfEven n 1 := by simpa using (roundHalfEven_mul n Nat.one_pos).symm
      _ ≤ roundHalfEven (u * nanosPerSecond) one :=
          roundHalfEven_le_of_le Nat.one_pos Binary64.one_pos hle

/-- More seconds are no shorter duration. -/
theorem ofSeconds_mono (hx : HasValue x p) (hy : HasValue y q) (h : p ≤ q) :
    ofSeconds x ≤ ofSeconds y := by
  obtain ⟨s, u, f, rfl, hp⟩ := hx.eq_finite
  obtain ⟨t, v, g, rfl, hq⟩ := hy.eq_finite
  have hunits : Binary64.signed s u ≤ Binary64.signed t v := by
    have hmul := mul_le_mul_of_nonneg_right h Binary64.one_pos_rat.le
    rw [hp, hq] at hmul
    exact_mod_cast hmul
  show (ofSeconds _).nanos ≤ (ofSeconds _).nanos
  rw [nanos_ofSeconds_of_units, nanos_ofSeconds_of_units]
  cases s with
  | true => exact Nat.zero_le _
  | false =>
    -- A second number below zero leaves zero for the first.
    have hle : u ≤ v ∧ (t = true → u = 0) := by
      cases t <;> simp [Binary64.signed] at hunits ⊢ <;> omega
    rw [if_neg (by decide)]
    cases t with
    | true =>
      rw [hle.2 rfl, Nat.zero_mul, roundHalfEven_zero]
      exact Nat.zero_le _
    | false =>
      rw [if_neg (by decide)]
      refine min_le_min_right _ (roundHalfEven_le_of_le Binary64.one_pos Binary64.one_pos ?_)
      exact Nat.mul_le_mul_right _ (Nat.mul_le_mul_right _ hle.1)

end LightCone.Duration
