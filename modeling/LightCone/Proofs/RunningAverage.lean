import LightCone.Proofs.Quotients
import LightCone.Proofs.Seconds
import LightCone.Proofs.StatusHistory

/-!
The running average of a status against the mean of its offsets.

Each success moves the average towards the new offset in binary64 seconds, and keeps the nearest whole
nanosecond of that. This file

1. bounds what one such step loses (`SyncStatus.abs_nextAverage_sub_le`) and shows that it stays below
   every power of two that the offsets are below (`nextAverage_le`), so that the loss is bounded by the
   offsets alone;
2. adds the losses up over a run (`excess`): the average of `n` offsets is off by a quarter of a
   nanosecond for each of them at most, and by the digits lost in seconds;
3. gives offsets for which the average stays at zero while their mean grows (`creeping`), so that the
   bound cannot be much better;
4. concludes for statuses that are told of successes and failures in any order
   (`abs_average_sub_mean_le`).

Means are rational numbers of nanoseconds.
-/
namespace LightCone

open Binary64 (HasValue nearest sight one)

/-! ## One more offset -/

namespace SyncStatus

section Steps

variable {average offset : Duration} {n k : Nat}

/-- The average of `n` offsets in seconds, computed as the code does it. -/
def nextSeconds (average offset : Duration) (n : Nat) : Binary64 :=
  average.asSeconds + (offset.asSeconds - average.asSeconds) / .ofNat n

theorem nextAverage_eq (average offset : Duration) (n : Nat) :
    nextAverage average offset n = .ofSeconds (nextSeconds average offset n) := rfl

/-- The difference of two durations in seconds. -/
theorem hasValue_sub (a b : Duration) :
    HasValue (a.asSeconds - b.asSeconds) (nearest (a.asRat - b.asRat)) ∧
    |nearest (a.asRat - b.asRat) - (a.asRat - b.asRat)| ≤ |a.asRat - b.asRat| / 2 ^ 53 ∧
    |nearest (a.asRat - b.asRat)| ≤ 2 ^ 66 := by
  have habs : |a.asRat - b.asRat| ≤ 2 ^ 64 := by
    rw [abs_le]
    constructor <;> linarith [a.asRat_nonneg, b.asRat_nonneg, a.asRat_le, b.asRat_le]
  have hsight : |a.asRat - b.asRat| ≤ sight := Duration.le_sight (by linarith)
  have hround := Binary64.abs_nearest_sub_sub_le a.hasValue_asSeconds b.hasValue_asSeconds hsight
  refine ⟨a.hasValue_asSeconds.sub b.hasValue_asSeconds hsight, hround, ?_⟩
  have hadd := abs_add_le (nearest (a.asRat - b.asRat) - (a.asRat - b.asRat)) (a.asRat - b.asRat)
  rw [sub_add_cancel] at hadd
  linarith

/-- What the roundings of one update come to: those of both durations, their difference, the
    quotient and the sum. -/
theorem abs_update_sub_le {a x a' x' d r s n : ℚ} (hn : 1 ≤ n) (ha : 0 ≤ a) (hx : 0 ≤ x)
    (ha' : |a' - a| ≤ a / 2 ^ 51) (hx' : |x' - x| ≤ x / 2 ^ 51)
    (hd : |d - (x' - a')| ≤ |x' - a'| / 2 ^ 53) (hr : |r - d / n| ≤ |d| / n / 2 ^ 51 + 1 / 2 ^ 130)
    (hs : |s - (a' + r)| ≤ |a' + r| / 2 ^ 53) :
    |s - (a + (x - a) / n)| ≤ (a + x / n) / 2 ^ 48 + 1 / 2 ^ 128 := by
  have hn' : 0 < n := by linarith
  have hpart : a / n ≤ a := div_le_self ha hn
  have hpart' : 0 ≤ x / n := by positivity
  have hdiff : |x' - a'| ≤ (x + a) * (1 + 1 / 2 ^ 51) := by
    rw [abs_le] at ha' hx' ⊢
    constructor <;> linarith
  have hclose : |d - (x - a)| ≤ (x + a) * (6 / 2 ^ 53) := by
    rw [abs_le] at ha' hx' hd ⊢
    constructor <;> linarith
  have hsize : |d| ≤ 2 * (x + a) := by
    have hself : |x - a| ≤ x + a := abs_le.mpr ⟨by linarith, by linarith⟩
    have hadd := abs_add_le (d - (x - a)) (x - a)
    rw [sub_add_cancel] at hadd
    linarith
  -- Divided, all that was said of the difference is said of the quotient.
  have hsize' : |d| / n ≤ 2 * (x / n + a / n) := by
    rw [← add_div, ← mul_div_assoc]
    exact div_le_div_of_nonneg_right hsize hn'.le
  have hclose' : |d / n - (x - a) / n| ≤ (x / n + a / n) * (6 / 2 ^ 53) := by
    rw [← sub_div, abs_div, abs_of_pos hn', ← add_div, div_mul_eq_mul_div]
    exact div_le_div_of_nonneg_right hclose hn'.le
  have hquotient : |d / n| ≤ 2 * (x / n + a / n) := by rwa [abs_div, abs_of_pos hn']
  have hr' : |r - (x - a) / n| ≤ (x / n + a / n) * (14 / 2 ^ 53) + 1 / 2 ^ 130 := by
    rw [abs_le] at hr hclose' ⊢
    constructor <;> linarith
  have hsum : |a' + r| ≤ 2 * a + 3 * (x / n + a / n) + 1 / 2 ^ 130 := by
    rw [abs_le] at ha' hr hquotient ⊢
    constructor <;> linarith
  rw [abs_le] at ha' hs hr' ⊢
  constructor <;> linarith

/-- What is missing to a power of two is a whole number of units. -/
theorem exists_units_missing (a : Duration) (ha : a.asRat ≤ 2 ^ k) :
    ∃ m : Nat, (2 ^ k - a.asRat) * one = m := by
  obtain ⟨z, hz⟩ := a.hasValue_asSeconds.whole
  have hwhole : (2 ^ k - a.asRat) * one = (2 ^ k * one - z : Int) := by
    rw [sub_mul, hz]
    norm_cast
  have hnonneg : (0 : ℚ) ≤ (2 ^ k * one - z : Int) := by
    rw [← hwhole]
    exact mul_nonneg (by linarith) Binary64.one_pos_rat.le
  refine ⟨(2 ^ k * one - z : Int).toNat, ?_⟩
  rw [hwhole, ← Int.toNat_of_nonneg (Int.cast_nonneg_iff.mp hnonneg)]
  rfl

/-- A quotient of what is missing to a power of two does not lead past that power: for one offset it
    is all that is missing, for more half of it at most. -/
theorem add_quotient_le {a x : Duration} {r : ℚ} (hk : k ≤ 64) (ha : a.asRat ≤ 2 ^ k)
    (hx : x.asRat ≤ 2 ^ k) (hn : 0 < n) (hfirst : n = 1 → a.asRat = 0)
    (hneg : nearest (x.asRat - a.asRat) ≤ 0 → r ≤ 0)
    (hpos : 0 ≤ nearest (x.asRat - a.asRat) → ∀ k, 0 < k → k ≤ n → k < 2 ^ 53 →
      r ≤ nearest (nearest (x.asRat - a.asRat) / k)) :
    a.asRat + r ≤ 2 ^ k := by
  rcases le_total (x.asRat - a.asRat) 0 with hless | hmore
  · have hr : r ≤ 0 := hneg (Binary64.nearest_zero ▸ Binary64.nearest_mono hless)
    linarith
  · have hquotient := hpos (Binary64.nearest_nonneg hmore)
    rcases Nat.eq_or_lt_of_le (Nat.succ_le_of_lt hn) with hone | htwo
    · have hr := hquotient 1 (by omega) (by omega) (by omega)
      rw [hfirst hone.symm, sub_zero, Nat.cast_one, div_one, x.hasValue_asSeconds.nearest_eq,
        x.hasValue_asSeconds.nearest_eq] at hr
      rw [hfirst hone.symm]
      linarith
    · have hr := hquotient 2 (by omega) htwo (by omega)
      obtain ⟨m, hm⟩ := exists_units_missing a ha
      have hpower : (2 ^ k : ℚ) ≤ 2 ^ 64 := pow_le_pow_right₀ (by norm_num) hk
      have hsight : 2 ^ k - a.asRat ≤ sight / 2 := by
        have hlarge : (2 ^ 100 : ℚ) ≤ sight := Binary64.two_pow_le_sight (by omega)
        linarith [a.asRat_nonneg]
      have hrest : r ≤ 2 ^ k - a.asRat := by
        calc r ≤ nearest (nearest (x.asRat - a.asRat) / 2) := by simpa using hr
          _ ≤ nearest (nearest (2 ^ k - a.asRat) / 2) := by
            refine Binary64.nearest_mono (div_le_div_of_nonneg_right ?_ (by norm_num))
            exact Binary64.nearest_mono (by linarith)
          _ ≤ 2 ^ k - a.asRat := Binary64.nearest_half_nearest_le hm hsight
      linarith

/-- The new average in seconds is near the exact one, and stays below each power of two that the old
    one and the offset are below. -/
theorem exists_hasValue_nextSeconds (average offset : Duration) (hn : 0 < n) :
    ∃ q, HasValue (nextSeconds average offset n) q ∧
      |q - (average.seconds + (offset.seconds - average.seconds) / n)| ≤
        (average.seconds + offset.seconds / n) / 2 ^ 48 + 1 / 2 ^ 128 ∧
      ∀ k ≤ 64, average.seconds ≤ 2 ^ k → offset.seconds ≤ 2 ^ k → (n = 1 → average.nanos = 0) →
        q ≤ 2 ^ k := by
  obtain ⟨hdiff, hd, hbound⟩ := hasValue_sub offset average
  obtain ⟨r, hquotient, hr, hrneg, hrpos⟩ := exists_hasValue_div hdiff hbound hn
  have hn' : (1 : ℚ) ≤ n := by exact_mod_cast hn
  have hsize : |average.asRat + r| ≤ 2 ^ 68 := by
    have hle : |nearest (offset.asRat - average.asRat)| / n ≤ 2 ^ 66 :=
      (div_le_self (abs_nonneg _) hn').trans hbound
    have hself : |nearest (offset.asRat - average.asRat) / n| ≤ 2 ^ 66 := by
      rwa [abs_div, abs_of_pos (by linarith : (0 : ℚ) < n)]
    have hnonneg := average.asRat_nonneg
    have hupper := average.asRat_le
    rw [abs_le] at hr hself ⊢
    constructor <;> linarith
  have hsight : |average.asRat + r| ≤ sight := Duration.le_sight (by linarith)
  refine ⟨nearest (average.asRat + r), average.hasValue_asSeconds.add hquotient hsight, ?_, ?_⟩
  · exact abs_update_sub_le hn' average.seconds_nonneg offset.seconds_nonneg
      average.abs_asRat_sub_le offset.abs_asRat_sub_le hd hr
      (Binary64.abs_nearest_add_sub_le average.hasValue_asSeconds hquotient hsight)
  · intro k hk haverage hoffset hfirst
    have hle := add_quotient_le hk (Duration.asRat_le_two_pow (by omega) haverage)
      (Duration.asRat_le_two_pow (by omega) hoffset) hn
      (fun hone => Duration.asRat_eq_zero (hfirst hone)) hrneg hrpos
    calc nearest (average.asRat + r) ≤ nearest (2 ^ k) := Binary64.nearest_mono hle
      _ = 2 ^ k := Binary64.nearest_two_pow (by omega)

theorem seconds_mul (d : Duration) : d.seconds * nanosPerSecond = d.nanos :=
  div_mul_cancel₀ _ Duration.nanosPerSecond_pos.ne'

/-- The exact average after one more offset, in nanoseconds. -/
def exactNext (average offset : Duration) (n : Nat) : ℚ :=
  average.nanos + ((offset.nanos : ℚ) - average.nanos) / n

theorem exactNext_eq (average offset : Duration) (n : Nat) :
    exactNext average offset n =
      (average.seconds + (offset.seconds - average.seconds) / n) * nanosPerSecond := by
  rw [add_mul, div_mul_eq_mul_div, sub_mul, seconds_mul, seconds_mul]
  rfl

/-- It lies between both durations. -/
theorem exactNext_mem (average offset : Duration) (hn : 0 < n) :
    0 ≤ exactNext average offset n ∧ exactNext average offset n ≤ Duration.longest.nanos := by
  have hn' : (1 : ℚ) ≤ n := by exact_mod_cast hn
  have hpart : (average.nanos : ℚ) / n ≤ average.nanos := div_le_self (Nat.cast_nonneg _) hn'
  have hrest : (0 : ℚ) ≤ offset.nanos / n := by positivity
  have haverage : (average.nanos : ℚ) ≤ Duration.longest.nanos :=
    Nat.cast_le.mpr average.le_longest
  have hoffset : (offset.nanos : ℚ) ≤ Duration.longest.nanos := Nat.cast_le.mpr offset.le_longest
  have hscaled : ((Duration.longest.nanos : ℚ) - average.nanos) / n ≤
      Duration.longest.nanos - average.nanos := div_le_self (by linarith) hn'
  have hmono : ((offset.nanos : ℚ) - average.nanos) / n ≤
      ((Duration.longest.nanos : ℚ) - average.nanos) / n :=
    div_le_div_of_nonneg_right (by linarith) (by linarith)
  unfold exactNext
  refine ⟨?_, by linarith⟩
  rw [sub_div]
  linarith

/-- The code's average is the exact one to half a nanosecond and the digits that seconds lose. -/
theorem abs_nextAverage_sub_le (average offset : Duration) (hn : 0 < n) :
    |((nextAverage average offset n).nanos : ℚ) - exactNext average offset n| ≤
      1 / 2 + ((average.nanos + (offset.nanos : ℚ) / n) / 2 ^ 48 + 1 / 2 ^ 90) := by
  obtain ⟨q, hq, herror, -⟩ := exists_hasValue_nextSeconds average offset hn
  obtain ⟨hnonneg, hlongest⟩ := exactNext_mem average offset hn
  have hduration := Duration.abs_nanos_ofSeconds_sub_le hq hnonneg hlongest
  have hscaled : |q * nanosPerSecond - exactNext average offset n| ≤
      (average.nanos + (offset.nanos : ℚ) / n) / 2 ^ 48 + 1 / 2 ^ 90 := by
    have hpos := Duration.nanosPerSecond_pos
    rw [exactNext_eq, ← sub_mul, abs_mul, abs_of_pos hpos]
    refine (mul_le_mul_of_nonneg_right herror hpos.le).trans ?_
    rw [add_mul, div_mul_eq_mul_div, add_mul, div_mul_eq_mul_div, seconds_mul, seconds_mul]
    have htail : 1 / 2 ^ 128 * (nanosPerSecond : ℚ) ≤ 1 / 2 ^ 90 := by
      unfold nanosPerSecond
      norm_num
    linarith
  rw [nextAverage_eq]
  linarith

theorem seconds_le_iff {d : Duration} : d.seconds ≤ 2 ^ k ↔ d.nanos ≤ 2 ^ k * nanosPerSecond := by
  rw [Duration.seconds, div_le_iff₀ Duration.nanosPerSecond_pos]
  exact_mod_cast Iff.rfl

theorem nextAverage_le (hn : 0 < n) (hk : k ≤ 64) (haverage : average.seconds ≤ 2 ^ k)
    (hoffset : offset.seconds ≤ 2 ^ k) (hfirst : n = 1 → average.nanos = 0) :
    (nextAverage average offset n).seconds ≤ 2 ^ k := by
  obtain ⟨q, hq, -, hle⟩ := exists_hasValue_nextSeconds average offset hn
  rw [seconds_le_iff, nextAverage_eq]
  refine Duration.nanos_ofSeconds_le hq ?_
  rw [Nat.cast_mul, Nat.cast_pow, Nat.cast_two]
  exact mul_le_mul_of_nonneg_right (hle k hk haverage hoffset hfirst) Duration.nanosPerSecond_pos.le

end Steps

/-! ## Whole runs -/

section Runs

variable {offsets : List Duration} {offset : Duration} {k : Nat}

def totalNanos (offsets : List Duration) : Nat := (offsets.map Duration.nanos).sum

/-- The mean of some durations in nanoseconds. -/
def mean (offsets : List Duration) : ℚ := totalNanos offsets / offsets.length

/-- What the running average, taken once for each offset, is more than all of them. -/
def excess (offsets : List Duration) : Int :=
  offsets.length * (averageOf offsets).nanos - totalNanos offsets

theorem totalNanos_append (offsets : List Duration) (offset : Duration) :
    totalNanos (offsets ++ [offset]) = totalNanos offsets + offset.nanos := by
  simp [totalNanos]

/-- The old excess stays, and the error of the update joins it once for each offset. -/
theorem excess_append (offsets : List Duration) (offset : Duration) :
    (excess (offsets ++ [offset]) : ℚ) = excess offsets + (offsets.length + 1 : Nat) *
      ((nextAverage (averageOf offsets) offset (offsets.length + 1)).nanos -
        exactNext (averageOf offsets) offset (offsets.length + 1)) := by
  have hn : ((offsets.length + 1 : Nat) : ℚ) ≠ 0 := by positivity
  have hexact : ((offsets.length + 1 : Nat) : ℚ) *
      exactNext (averageOf offsets) offset (offsets.length + 1) =
      offsets.length * (averageOf offsets).nanos + offset.nanos := by
    unfold exactNext
    rw [mul_add, mul_div_cancel₀ _ hn]
    push_cast
    ring
  rw [mul_sub, hexact]
  simp only [excess, totalNanos_append, averageOf_append, List.length_append, List.length_singleton]
  push_cast
  ring

/-- What one update adds to the error, with everything below `2 ^ k` seconds. -/
def updateError (k : Nat) : ℚ := 1 / 2 + 2 ^ k * nanosPerSecond / 2 ^ 46

theorem averageOf_le (hk : k ≤ 64) (h : ∀ offset ∈ offsets, offset.seconds ≤ 2 ^ k) :
    (averageOf offsets).seconds ≤ 2 ^ k := by
  induction offsets using List.reverseRecOn with
  | nil =>
    rw [seconds_le_iff]
    exact Nat.zero_le _
  | append_singleton offsets offset ih =>
    rw [averageOf_append]
    refine nextAverage_le (Nat.succ_pos _) hk (ih fun o ho => h o (List.mem_append_left _ ho))
      (h offset (by simp)) fun hfirst => ?_
    have hnil : offsets = [] := List.eq_nil_of_length_eq_zero (by omega)
    rw [hnil]
    rfl

theorem abs_excess_append_le (hk : k ≤ 64)
    (h : ∀ o ∈ offsets ++ [offset], o.seconds ≤ 2 ^ k) :
    |(excess (offsets ++ [offset]) : ℚ)| ≤
      |(excess offsets : ℚ)| + (offsets.length + 1 : Nat) * updateError k := by
  have haverage := averageOf_le hk fun o ho => h o (List.mem_append_left _ ho)
  have hoffset := h offset (by simp)
  have hclose := abs_nextAverage_sub_le (averageOf offsets) offset (Nat.succ_pos offsets.length)
  rw [seconds_le_iff] at haverage hoffset
  have haverage' : ((averageOf offsets).nanos : ℚ) ≤ 2 ^ k * nanosPerSecond := by
    exact_mod_cast haverage
  have hoffset' : (offset.nanos : ℚ) / (offsets.length + 1 : Nat) ≤ 2 ^ k * nanosPerSecond := by
    have hle : (offset.nanos : ℚ) ≤ 2 ^ k * nanosPerSecond := by exact_mod_cast hoffset
    exact (div_le_self (Nat.cast_nonneg _) (by exact_mod_cast Nat.succ_pos _)).trans hle
  -- The tail that seconds leave is nothing beside a whole second.
  have htail : (1 / 2 ^ 90 : ℚ) ≤ 2 ^ k * nanosPerSecond / 2 ^ 47 := by
    have hpow : (1 : ℚ) ≤ 2 ^ k := one_le_pow₀ (by norm_num)
    have hnanos : (1 : ℚ) ≤ nanosPerSecond := by norm_num [nanosPerSecond]
    have hmul : (1 : ℚ) ≤ 2 ^ k * nanosPerSecond := one_le_mul_of_one_le_of_one_le hpow hnanos
    linarith
  rw [excess_append]
  refine (abs_add_le _ _).trans (add_le_add_right ?_ _)
  rw [abs_mul, Nat.abs_cast]
  refine mul_le_mul_of_nonneg_left (hclose.trans ?_) (Nat.cast_nonneg _)
  unfold updateError
  rw [Nat.succ_eq_add_one]
  linarith

/-- Over a run the error of the sum grows with the square of the number of offsets at most. -/
theorem abs_excess_le (hk : k ≤ 64) (h : ∀ o ∈ offsets, o.seconds ≤ 2 ^ k) :
    |(excess offsets : ℚ)| ≤ offsets.length * (offsets.length + 1) / 2 * updateError k := by
  induction offsets using List.reverseRecOn with
  | nil => simp [excess, totalNanos]
  | append_singleton offsets offset ih =>
    have hinit := ih fun o ho => h o (List.mem_append_left _ ho)
    have hlast := abs_excess_append_le hk h
    rw [List.length_append, List.length_singleton]
    push_cast at hlast ⊢
    linarith

theorem succ_sq_div_four (n : Nat) : (n + 1) ^ 2 / 4 = n ^ 2 / 4 + (n + 1) / 2 := by
  rcases Nat.even_or_odd' n with ⟨m, rfl | rfl⟩
  · have hsquare : (2 * m) ^ 2 = 4 * (m * m) := by ring
    have hsucc : (2 * m + 1) ^ 2 = 4 * (m * m) + 4 * m + 1 := by ring
    omega
  · have hsquare : (2 * m + 1) ^ 2 = 4 * (m * m) + 4 * m + 1 := by ring
    have hsucc : (2 * m + 1 + 1) ^ 2 = 4 * (m * m) + 8 * m + 4 := by ring
    omega

/-- The exact bound on the error of the sum, as long as no lost digit can turn a half upwards: the
    error is a whole number, and each update adds half of the number of offsets, rounded down. -/
theorem abs_excess_le_of_short (hk : k ≤ 64) (h : ∀ o ∈ offsets, o.seconds ≤ 2 ^ k)
    (hshort : offsets.length * (2 ^ k * nanosPerSecond) < 2 ^ 45) :
    (excess offsets).natAbs ≤ offsets.length ^ 2 / 4 := by
  induction offsets using List.reverseRecOn with
  | nil => simp [excess, totalNanos]
  | append_singleton offsets offset ih =>
    rw [List.length_append, List.length_singleton] at hshort ⊢
    have hinit := ih (fun o ho => h o (List.mem_append_left _ ho)) (by nlinarith)
    have hlast := abs_excess_append_le hk h
    have hlost : ((offsets.length + 1 : Nat) : ℚ) * (2 ^ k * nanosPerSecond) < 2 ^ 45 := by
      exact_mod_cast hshort
    have hless : (2 * (excess (offsets ++ [offset])).natAbs : ℚ) <
        2 * (excess offsets).natAbs + (offsets.length + 1 : Nat) + 1 := by
      rw [Nat.cast_natAbs, Nat.cast_natAbs, Int.cast_abs, Int.cast_abs]
      unfold updateError at hlast
      linarith
    have hless' : 2 * (excess (offsets ++ [offset])).natAbs <
        2 * (excess offsets).natAbs + (offsets.length + 1) + 1 := by exact_mod_cast hless
    have hsquare := succ_sq_div_four offsets.length
    omega

/-- The error of the average is that of the sum, shared by all offsets. -/
theorem abs_average_sub_mean {bound : ℚ} (hbound : 0 ≤ bound)
    (h : |(excess offsets : ℚ)| ≤ bound * offsets.length) :
    |((averageOf offsets).nanos : ℚ) - mean offsets| ≤ bound := by
  rcases eq_or_ne offsets [] with rfl | hsome
  · have hnone : ((averageOf []).nanos : ℚ) - mean [] = 0 := by simp [averageOf, mean, Duration.zero]
    rw [hnone, abs_zero]
    exact hbound
  · have hpos : (0 : ℚ) < offsets.length := Nat.cast_pos.mpr (List.length_pos_iff.mpr hsome)
    have heq : ((averageOf offsets).nanos : ℚ) - mean offsets = excess offsets / offsets.length := by
      unfold mean excess
      push_cast
      field_simp
    rwa [heq, abs_div, abs_of_pos hpos, div_le_iff₀ hpos]

/-! ### Offsets that the average never sees -/

/-- Offsets that grow by one nanosecond with every second one. -/
def creeping (n : Nat) : List Duration := (List.range n).map fun i => .ofNanos (i / 2)

theorem nanos_ofNanos_half {i : Nat} (h : i ≤ 2 ^ 47) : (Duration.ofNanos (i / 2)).nanos = i / 2 := by
  rw [Duration.nanos_ofNanos]
  simp only [Duration.longest]
  omega

theorem creeping_succ (n : Nat) : creeping (n + 1) = creeping n ++ [.ofNanos (n / 2)] := by
  unfold creeping
  rw [List.range_succ, List.map_append, List.map_cons, List.map_nil]

theorem length_creeping (n : Nat) : (creeping n).length = n := by
  unfold creeping
  rw [List.length_map, List.length_range]

/-- Each of them is less than half a nanosecond for each offset so far, and is rounded away. -/
theorem nextAverage_creeping {n : Nat} (h : n < 2 ^ 47) :
    nextAverage .zero (.ofNanos (n / 2)) (n + 1) = .zero := by
  have hclose := abs_nextAverage_sub_le .zero (.ofNanos (n / 2)) (Nat.succ_pos n)
  have hnanos := nanos_ofNanos_half (i := n) (by omega)
  have hn : (0 : ℚ) < (n + 1 : Nat) := Nat.cast_pos.mpr (Nat.succ_pos n)
  have hexact : exactNext .zero (.ofNanos (n / 2)) (n + 1) = ((n / 2 : Nat) : ℚ) / (n + 1 : Nat) := by
    unfold exactNext
    rw [hnanos]
    simp [Duration.zero]
  have hquotient : ((n / 2 : Nat) : ℚ) / (n + 1 : Nat) ≤ 1 / 2 - 1 / (2 * (n + 1 : Nat)) := by
    have hhalf : ((n / 2 : Nat) : ℚ) ≤ n / 2 := by
      have hmul : ((n / 2 : Nat) : ℚ) * 2 ≤ n := by exact_mod_cast Nat.div_mul_le_self n 2
      linarith
    calc ((n / 2 : Nat) : ℚ) / (n + 1 : Nat) ≤ n / 2 / (n + 1 : Nat) :=
          div_le_div_of_nonneg_right hhalf hn.le
      _ = 1 / 2 - 1 / (2 * (n + 1 : Nat)) := by
          field_simp
          push_cast
          ring
  -- Half a nanosecond is missed by more than the lost digits come to.
  have hgap : (1 / 2 ^ 48 : ℚ) ≤ 1 / (2 * (n + 1 : Nat)) := by
    have hle : ((n + 1 : Nat) : ℚ) ≤ 2 ^ 47 := by exact_mod_cast h
    exact one_div_le_one_div_of_le (by positivity) (by linarith)
  have hzero : ((Duration.zero).nanos : ℚ) = 0 := rfl
  rw [Nat.succ_eq_add_one, hexact, hnanos, hzero, zero_add] at hclose
  have hlt : ((nextAverage .zero (.ofNanos (n / 2)) (n + 1)).nanos : ℚ) < 1 := by
    linarith [(abs_le.mp hclose).2]
  have hlt' : (nextAverage .zero (.ofNanos (n / 2)) (n + 1)).nanos < 1 := by exact_mod_cast hlt
  exact Duration.ext (Nat.lt_one_iff.mp hlt')

theorem averageOf_creeping {n : Nat} (h : n ≤ 2 ^ 47) : averageOf (creeping n) = .zero := by
  induction n with
  | zero => rfl
  | succ n ih =>
    rw [creeping_succ, averageOf_append, ih (by omega), length_creeping]
    exact nextAverage_creeping (by omega)

theorem totalNanos_creeping {n : Nat} (h : n ≤ 2 ^ 47) :
    4 * totalNanos (creeping n) + 2 * n = n ^ 2 + n % 2 := by
  induction n with
  | zero => rfl
  | succ n ih =>
    have hinit := ih (by omega)
    have hsquare : (n + 1) ^ 2 = n ^ 2 + 2 * n + 1 := by ring
    rw [creeping_succ, totalNanos_append, nanos_ofNanos_half (by omega)]
    omega

theorem mean_creeping {n : Nat} (h : n ≤ 2 ^ 47) : ((n : ℚ) - 2) / 4 ≤ mean (creeping n) := by
  have htotal := totalNanos_creeping h
  unfold mean
  rw [length_creeping]
  rcases Nat.eq_zero_or_pos n with rfl | hn
  · norm_num
  · have hle : n ^ 2 ≤ 4 * totalNanos (creeping n) + 2 * n := by omega
    have hle' : (n ^ 2 : ℚ) ≤ 4 * totalNanos (creeping n) + 2 * n := by exact_mod_cast hle
    rw [le_div_iff₀ (Nat.cast_pos.mpr hn)]
    linarith

end Runs

/-! ### Reports -/

/-- One outcome as a status is told of it. -/
inductive Report where
  | success (offset : Duration) (now : Instant) (historyLength : Nat)
  | failure (error : String) (now : Instant)

def Report.offset? : Report → Option Duration
  | success offset _ _ => some offset
  | failure _ _ => none

def report (s : SyncStatus) : Report → SyncStatus
  | .success offset now historyLength => s.recordSuccess offset now historyLength
  | .failure error now => s.recordFailure error now

/-- A pending status, told of some outcomes one after another. -/
def reported (id : String) (now : Instant) (reports : List Report) : SyncStatus :=
  reports.foldl report (.pending id now)

/-- The offsets among some reports, in order. -/
def offsetsOf (reports : List Report) : List Duration := reports.filterMap Report.offset?

theorem offsetsOf_append (reports : List Report) (last : Report) :
    offsetsOf (reports ++ [last]) = offsetsOf reports ++ last.offset?.toList := by
  unfold offsetsOf
  rw [List.filterMap_append]
  cases last <;> rfl

/-- The count and the average of a status are those of its offsets: failures change neither, and
    neither do times or the lengths of histories. -/
theorem average_reported (id : String) (now : Instant) (reports : List Report) :
    (reported id now reports).successes = (offsetsOf reports).length ∧
    (reported id now reports).average = averageOf (offsetsOf reports) := by
  induction reports using List.reverseRecOn with
  | nil => exact ⟨rfl, rfl⟩
  | append_singleton reports last ih =>
    obtain ⟨hcount, haverage⟩ := ih
    have hlast : reported id now (reports ++ [last]) = (reported id now reports).report last := by
      unfold reported
      rw [List.foldl_append]
      rfl
    rw [hlast, offsetsOf_append]
    cases last with
    | failure error time =>
      rw [Report.offset?, Option.toList_none, List.append_nil]
      exact ⟨hcount, haverage⟩
    | success offset time historyLength =>
      rw [Report.offset?, Option.toList_some, averageOf_append, List.length_append,
        List.length_singleton, ← hcount, ← haverage]
      exact ⟨rfl, rfl⟩

/-- The average of a status is near the mean of its offsets: the distance grows with their number,
    by a quarter of a nanosecond for each and by the digits that seconds lose. Without lost digits that
    matter the quarters are all, and nearly all of them are needed: as many offsets may leave an average
    of zero. -/
theorem abs_average_sub_mean_le (id : String) (now : Instant) (reports : List Report) {k : Nat}
    (hk : k ≤ 64) (h : ∀ offset ∈ offsetsOf reports, offset.seconds ≤ 2 ^ k) :
    |((reported id now reports).average.nanos : ℚ) - mean (offsetsOf reports)| ≤
      ((offsetsOf reports).length + 1) / 2 * (1 / 2 + 2 ^ k * nanosPerSecond / 2 ^ 46) ∧
    ((offsetsOf reports).length * (2 ^ k * nanosPerSecond) < 2 ^ 45 →
      |((reported id now reports).average.nanos : ℚ) - mean (offsetsOf reports)| ≤
        (offsetsOf reports).length / 4) ∧
    ((offsetsOf reports).length ≤ 2 ^ 47 → ∃ others : List Report,
      (offsetsOf others).length = (offsetsOf reports).length ∧
      (reported id now others).average = .zero ∧
      (((offsetsOf reports).length : ℚ) - 2) / 4 ≤ mean (offsetsOf others)) := by
  simp only [(average_reported _ _ _).2]
  generalize offsetsOf reports = offsets at h
  refine ⟨?_, fun hshort => ?_, fun hmany => ?_⟩
  · refine abs_average_sub_mean (by positivity) ((abs_excess_le hk h).trans_eq ?_)
    unfold updateError
    ring
  · refine abs_average_sub_mean (by positivity) ?_
    have hle : 4 * (excess offsets).natAbs ≤ offsets.length ^ 2 := by
      have hquarter := abs_excess_le_of_short hk h hshort
      omega
    have hle' : (4 * (excess offsets).natAbs : ℚ) ≤ offsets.length ^ 2 := by exact_mod_cast hle
    rw [Nat.cast_natAbs, Int.cast_abs] at hle'
    linarith
  · have hothers : offsetsOf ((creeping offsets.length).map (Report.success · now 0)) =
        creeping offsets.length := by
      unfold offsetsOf
      rw [List.filterMap_map]
      exact List.filterMap_some
    refine ⟨(creeping offsets.length).map (Report.success · now 0), ?_, ?_, ?_⟩
    · rw [hothers, length_creeping]
    · rw [hothers, averageOf_creeping hmany]
    · rw [hothers]
      exact mean_creeping hmany

/-- Two offsets with a failure between them. -/
def twoReports : List Report :=
  [.success (.ofMillis 10) .epoch 4, .failure "no references" .epoch, .success (.ofMillis 20) .epoch 4]

theorem abs_average_sub_mean_two_reports :
    |((reported "n1" .epoch twoReports).average.nanos : ℚ) - mean (offsetsOf twoReports)| ≤ 1 / 2 := by
  have h := (abs_average_sub_mean_le "n1" .epoch twoReports (k := 0) (by decide) (by
    simp only [seconds_le_iff]
    decide)).2.1 (by decide)
  have hlength : (offsetsOf twoReports).length = 2 := by decide
  rw [hlength] at h
  exact h.trans_eq (by norm_num)

/-- Five offsets of some nanoseconds. -/
def fiveReports : List Report :=
  [0, 1, 3, 0, 0].map fun nanos => .success (.ofNanos nanos) .epoch 4

/-- Thirty nanoseconds past a billion seconds. -/
def lateReport : List Report := [.success (.ofNanos 1000000000000000030) .epoch 4]

/-- An average may be off by more than a nanosecond, after few small offsets and after a single
    large one. -/
theorem average_apart_from_mean :
    1 < |((reported "n1" .epoch fiveReports).average.nanos : ℚ) - mean (offsetsOf fiveReports)| ∧
    1 < |((reported "n1" .epoch lateReport).average.nanos : ℚ) - mean (offsetsOf lateReport)| := by
  have hfive : (reported "n1" .epoch fiveReports).average.nanos = 2 := by decide +kernel
  have hlate : (reported "n1" .epoch lateReport).average.nanos = 1000000000000000000 := by
    decide +kernel
  have hfive' : mean (offsetsOf fiveReports) = 4 / 5 := by
    have htotal : totalNanos (offsetsOf fiveReports) = 4 := by decide
    have hlength : (offsetsOf fiveReports).length = 5 := by decide
    unfold mean
    rw [htotal, hlength]
    norm_num
  have hlate' : mean (offsetsOf lateReport) = 1000000000000000030 := by
    have htotal : totalNanos (offsetsOf lateReport) = 1000000000000000030 := by decide
    have hlength : (offsetsOf lateReport).length = 1 := by decide
    unfold mean
    rw [htotal, hlength]
    norm_num
  rw [hfive, hlate, hfive', hlate']
  norm_num

end SyncStatus
end LightCone
