import LightCone.Time.Instant
import Mathlib.Order.Defs.LinearOrder
import Mathlib.Tactic.Linarith
import Mathlib.Tactic.Ring

/-!
The order of instants, and the time between them.

Instants are ordered by their seconds and the nanoseconds past those, while durations are added to
their counts of nanoseconds, and the time between two of them counts leap seconds. This file

1. takes an instant apart into its seconds and the rest (`exists_rest`), shows that the order is
   linear, and compares it with the order of the counts;
2. compares the time between two instants with the difference of their counts
   (`nanosSince_eq`): outside leap seconds they are the same, and a second apart at most otherwise;
3. says how far apart two instants are of which one comes before the other and a duration
   (`Within`), and how far at least if it does not (`Outlived`).
-/
namespace LightCone.Instant

variable (s t : Instant)

/-! ## The order -/

/-- The whole seconds of an instant and the rest are all of its count; the nanoseconds past the seconds
    are the rest, and a second more inside a leap second. -/
theorem exists_rest : ∃ rest : Int, 0 ≤ rest ∧ rest < nanosPerSecond ∧
    s.nanos = s.unixSeconds * nanosPerSecond + rest ∧
    (s.subsecNanos : Int) = rest + if s.leap then (nanosPerSecond : Int) else 0 := by
  have hnonneg : 0 ≤ s.nanos.fmod nanosPerSecond := Int.fmod_nonneg_of_pos _ (by decide)
  refine ⟨s.nanos.fmod nanosPerSecond, hnonneg, Int.fmod_lt_of_pos _ (by decide), ?_, ?_⟩
  · unfold unixSeconds
    rw [Int.mul_comm]
    exact (Int.mul_fdiv_add_fmod s.nanos nanosPerSecond).symm
  · unfold subsecNanos
    cases s.leap <;> simp [hnonneg]

theorem lt_iff {s t : Instant} : s < t ↔ s.unixSeconds < t.unixSeconds ∨
    s.unixSeconds = t.unixSeconds ∧ s.subsecNanos < t.subsecNanos := Iff.rfl

theorem le_iff {s t : Instant} : s ≤ t ↔ s.unixSeconds < t.unixSeconds ∨
    s.unixSeconds = t.unixSeconds ∧ s.subsecNanos ≤ t.subsecNanos := Iff.rfl

/-- An instant inside a leap second is told from one before it by the nanoseconds past its second. -/
theorem ext_parts {s t : Instant} (hseconds : s.unixSeconds = t.unixSeconds)
    (hsubsec : s.subsecNanos = t.subsecNanos) : s = t := by
  obtain ⟨rest, hrest, hless, hnanos, hsub⟩ := s.exists_rest
  obtain ⟨rest', hrest', hless', hnanos', hsub'⟩ := t.exists_rest
  rw [hsubsec] at hsub
  have hleap : s.leap = t.leap := by
    cases hs : s.leap <;> cases ht : t.leap <;>
      simp only [hs, ht, Bool.false_eq_true, if_true, if_false] at hsub hsub' ⊢ <;> omega
  have hsame : s.nanos = t.nanos := by
    rw [hleap] at hsub
    rw [hnanos, hnanos', hseconds]
    omega
  obtain ⟨n, leap, hrange⟩ := s
  obtain ⟨n', leap', hrange'⟩ := t
  obtain rfl : n = n' := hsame
  obtain rfl : leap = leap' := hleap
  rfl

instance : LinearOrder Instant where
  le_refl s := by
    rw [le_iff]
    omega
  le_trans s t u hst htu := by
    rw [le_iff] at *
    omega
  lt_iff_le_not_ge s t := by
    rw [lt_iff, le_iff, le_iff]
    omega
  le_antisymm s t hst hts := by
    rw [le_iff] at *
    exact ext_parts (by omega) (by omega)
  le_total s t := by
    rw [le_iff, le_iff]
    omega
  toDecidableLE := inferInstance
  toDecidableEq := inferInstance
  toDecidableLT := inferInstance

/-- The earlier of two instants has the smaller count, unless only the later one is inside a leap
    second. -/
theorem nanos_lt_of_lt {s t : Instant} (h : s < t) (hleap : t.leap = true → s.leap = true) :
    s.nanos < t.nanos := by
  obtain ⟨rest, hrest, hless, hnanos, hsub⟩ := s.exists_rest
  obtain ⟨rest', hrest', hless', hnanos', hsub'⟩ := t.exists_rest
  rw [lt_iff] at h
  cases hs : s.leap <;> cases ht : t.leap <;>
    simp only [hs, ht, Bool.false_eq_true, if_true, if_false, nanosPerSecond, forall_const,
      imp_false] at * <;> omega

/-- Its count is larger by less than a second otherwise. -/
theorem nanos_lt_of_le {s t : Instant} (h : s ≤ t) : s.nanos < t.nanos + nanosPerSecond := by
  obtain ⟨rest, hrest, hless, hnanos, hsub⟩ := s.exists_rest
  obtain ⟨rest', hrest', hless', hnanos', hsub'⟩ := t.exists_rest
  rw [le_iff] at h
  simp only [nanosPerSecond] at *
  omega

/-- Outside leap seconds the order is that of the counts. -/
theorem lt_iff_of_not_leap {s t : Instant} (hs : s.leap = false) (ht : t.leap = false) :
    s < t ↔ s.nanos < t.nanos := by
  have hsame : s.leap = t.leap := hs.trans ht.symm
  refine ⟨fun h => nanos_lt_of_lt h fun hleap => hsame.trans hleap, fun h => ?_⟩
  by_contra hnot
  rcases (not_lt.mp hnot).lt_or_eq with hless | rfl
  · exact lt_asymm h (nanos_lt_of_lt hless fun hleap => hsame.symm.trans hleap)
  · exact lt_irrefl _ h

/-! ## The time between two instants -/

theorem leapBetween_comm : s.leapBetween t = -t.leapBetween s := by
  unfold leapBetween
  by_cases hless : s.secondOfDay < t.secondOfDay
  · have hnot : ¬ t.secondOfDay < s.secondOfDay := by omega
    cases s.leap <;> simp [hless, hnot]
  · cases s.leap <;> cases t.leap <;> by_cases hmore : t.secondOfDay < s.secondOfDay <;>
      simp [hless, hmore]

theorem nanosSince_comm : s.nanosSince t = -t.nanosSince s := by
  unfold nanosSince
  rw [leapBetween_comm]
  ring

theorem apart_comm : s.apart t = t.apart s := by
  unfold apart
  rw [nanosSince_comm, Int.natAbs_neg]

/-- The leap seconds that the time between two instants counts and the difference of their counts
    does not. -/
def leapsApart : Int :=
  s.leapBetween t + (if s.leap then 1 else 0) - (if t.leap then 1 else 0)

theorem nanosSince_eq :
    s.nanosSince t = s.nanos - t.nanos + s.leapsApart t * nanosPerSecond := by
  obtain ⟨rest, _, _, hnanos, hsub⟩ := s.exists_rest
  obtain ⟨rest', _, _, hnanos', hsub'⟩ := t.exists_rest
  unfold nanosSince leapsApart
  cases hs : s.leap <;> cases ht : t.leap <;>
    simp only [hs, ht, Bool.false_eq_true, if_true, if_false, nanosPerSecond] at * <;> omega

theorem leapsApart_mem : -1 ≤ s.leapsApart t ∧ s.leapsApart t ≤ 1 := by
  unfold leapsApart leapBetween
  cases s.leap <;> cases t.leap <;> by_cases hless : s.secondOfDay < t.secondOfDay <;>
    by_cases hmore : t.secondOfDay < s.secondOfDay <;> simp [hless, hmore]

/-- Outside leap seconds the time between two instants is the difference of their counts. -/
theorem nanosSince_of_not_leap (hs : s.leap = false) (ht : t.leap = false) :
    s.nanosSince t = s.nanos - t.nanos := by
  have hleaps : s.leapsApart t = 0 := by simp [leapsApart, leapBetween, hs, ht]
  rw [nanosSince_eq, hleaps]
  omega

/-- The calendar is shorter than the longest duration, so that the time between two instants is never
    cut. -/
theorem natAbs_nanosSince_le : (s.nanosSince t).natAbs ≤ Duration.longest.nanos := by
  have hs := s.inRange
  have ht := t.inRange
  have hleaps := s.leapsApart_mem t
  rw [nanosSince_eq]
  simp only [earliestNanos, latestNanos, nanosPerSecond, Duration.longest] at *
  omega

theorem nanos_apart : (s.apart t).nanos = (s.nanosSince t).natAbs := by
  rw [apart, Duration.nanos_ofNanos, min_eq_left (s.natAbs_nanosSince_le t)]

/-- The time since an instant is exact, and nothing where it would be negative. -/
theorem nanos_since : (((s.since? t).getD .zero).nanos : Int) = max 0 (s.nanosSince t) := by
  have hmost := s.natAbs_nanosSince_le t
  unfold since?
  split
  · next hnonneg =>
    rw [Option.getD_some, Duration.nanos_ofNanos, min_eq_left (by omega)]
    omega
  · next hnegative =>
    have hzero : max 0 (s.nanosSince t) = 0 := by omega
    rw [hzero]
    rfl

/-- The time since an instant that is not later is not negative, unless that one is inside a leap
    second. -/
theorem nanosSince_nonneg {s t : Instant} (h : t ≤ s) (ht : t.leap = false) :
    0 ≤ s.nanosSince t := by
  obtain ⟨rest, hrest, hless, _, hsub⟩ := s.exists_rest
  obtain ⟨rest', hrest', hless', _, hsub'⟩ := t.exists_rest
  rw [ht, if_neg Bool.false_ne_true] at hsub'
  rw [le_iff] at h
  unfold nanosSince leapBetween secondOfDay
  rw [ht]
  simp only [Bool.false_and, Bool.false_eq_true, if_false, Bool.and_eq_true, decide_eq_true_eq,
    nanosPerSecond] at *
  split
  · next hcounted =>
    rw [if_pos hcounted.1] at hsub
    omega
  · split at hsub <;> omega

/-! ## A duration after an instant -/

/-- A sum is inside a leap second only if the instant is. -/
theorem leap_addCapped {t : Instant} {d : Duration} (h : (t.addCapped d).leap = true) :
    t.leap = true := by
  unfold addCapped at h
  cases hadd : t.add? d with
  | none =>
    rw [hadd] at h
    cases h
  | some later =>
    rw [hadd, Option.getD_some] at h
    unfold add? at hadd
    obtain ⟨sum, _, rfl⟩ := Option.map_eq_some_iff.mp hadd
    exact (Bool.and_eq_true_iff.mp h).1

theorem addCapped_not_leap {t : Instant} (ht : t.leap = false) (d : Duration) :
    (t.addCapped d).leap = false := by
  by_contra hleap
  rw [Bool.not_eq_false] at hleap
  rw [leap_addCapped hleap] at ht
  cases ht

theorem le_addCapped {t : Instant} (ht : t.leap = false) (d : Duration) : t ≤ t.addCapped d := by
  have hleap := addCapped_not_leap ht d
  have hrange := t.inRange
  have hsum := t.nanos_addCapped d
  rw [← not_lt, lt_iff_of_not_leap hleap ht]
  omega

/-- An instant comes before another one and a duration. The time between the two is shorter than the
    duration outside leap seconds, and longer by less than a second else. -/
structure Within (s t : Instant) (d : Duration) : Prop where
  before : s < t.addCapped d
  apart : s.nanosSince t < d.nanos + nanosPerSecond
  exact : s.leap = false → t.leap = false → s.nanosSince t < d.nanos

/-- An instant is not before another one and a duration. The time between the two is as long as the
    duration outside leap seconds, and shorter by less than two seconds else. -/
structure Outlived (s t : Instant) (d : Duration) : Prop where
  after : t.addCapped d ≤ s
  apart : d.nanos < s.nanosSince t + 2 * nanosPerSecond
  exact : s.leap = false → t.leap = false → d.nanos ≤ s.nanosSince t

variable {s t : Instant} {d : Duration}

theorem within_iff : s.Within t d ↔ s < t.addCapped d := by
  refine ⟨Within.before, fun hbefore => ⟨hbefore, ?_, fun hs ht => ?_⟩⟩
  · have hsum := t.nanos_addCapped d
    have hleaps := s.leapsApart_mem t
    rw [nanosSince_eq]
    by_cases hleap : (t.addCapped d).leap = true → s.leap = true
    · have hless := nanos_lt_of_lt hbefore hleap
      simp only [nanosPerSecond]
      omega
    · -- Only the sum is inside a leap second, and so is `t` then, which is not counted.
      obtain ⟨hsum', hs⟩ := Classical.not_imp.mp hleap
      have hnone : s.leapsApart t ≤ 0 := by
        have ht := leap_addCapped hsum'
        unfold leapsApart leapBetween
        rw [Bool.not_eq_true] at hs
        rw [hs, ht]
        split <;> simp
      have hless := nanos_lt_of_le hbefore.le
      simp only [nanosPerSecond] at hless ⊢
      omega
  · have hless := (lt_iff_of_not_leap hs (addCapped_not_leap ht d)).mp hbefore
    have hsum := t.nanos_addCapped d
    rw [s.nanosSince_of_not_leap t hs ht]
    omega

/-- A lifetime that is over is outlived, unless the end of the calendar cut it short. -/
theorem outlived_of_le (h : t.addCapped d ≤ s) (hcalendar : t.nanos + d.nanos ≤ latestNanos) :
    s.Outlived t d := by
  have hsum := t.nanos_addCapped d
  rw [min_eq_left hcalendar] at hsum
  refine ⟨h, ?_, fun hs ht => ?_⟩
  · have hless := nanos_lt_of_le h
    have hleaps := s.leapsApart_mem t
    rw [nanosSince_eq]
    simp only [nanosPerSecond] at hless ⊢
    omega
  · have hnot := not_lt.mpr h
    rw [lt_iff_of_not_leap hs (addCapped_not_leap ht d)] at hnot
    rw [s.nanosSince_of_not_leap t hs ht]
    omega

end LightCone.Instant
