import LightCone.Time.Duration

/-!
Instants: points of time in whole nanoseconds from the start of 1970, UTC.

This file

1. defines instants with the range of the calendar in the type, from the year -262143 to the
   year 262142, and orders them by their seconds and the nanoseconds past those;
2. adds durations (`add?`, `addCapped`) and takes differences (`since?`, `apart`), all exact.

An instant may stand in a leap second, after the whole second whose count it shares and before the
next one. A sum that leaves the leap second does not count it (`add?`); the time between two
instants does (`nanosSince`).
-/
namespace LightCone

/-- Nanoseconds from 1970 to the start of the year -262143. -/
def Instant.earliestNanos : Int := -8334601228800000000000

/-- Nanoseconds from 1970 to the last nanosecond of the year 262142. -/
def Instant.latestNanos : Int := 8210266876799999999999

structure Instant where
  nanos : Int
  /-- Set inside a leap second, which shares its count of nanoseconds with the second before. -/
  leap : Bool
  inRange : Instant.earliestNanos ≤ nanos ∧ nanos ≤ Instant.latestNanos
  deriving DecidableEq

namespace Instant

/-- The instant of a count of nanoseconds, if the calendar holds it. -/
def ofNanos? (nanos : Int) : Option Instant :=
  if h : earliestNanos ≤ nanos ∧ nanos ≤ latestNanos then some ⟨nanos, false, h⟩ else none

def epoch : Instant := ⟨0, false, by decide⟩

def latest : Instant := ⟨latestNanos, false, by decide⟩

instance : Inhabited Instant := ⟨epoch⟩

def unixSeconds (t : Instant) : Int := t.nanos.fdiv nanosPerSecond

/-- Nanoseconds past the last whole second; a second more inside a leap second. -/
def subsecNanos (t : Instant) : Nat :=
  (t.nanos.fmod nanosPerSecond).toNat + (if t.leap then nanosPerSecond else 0)

/-- Instants come in the order of their seconds, and within one second in the order of the
    nanoseconds past it. -/
instance : LT Instant := ⟨fun s t =>
  s.unixSeconds < t.unixSeconds ∨ s.unixSeconds = t.unixSeconds ∧ s.subsecNanos < t.subsecNanos⟩
instance : LE Instant := ⟨fun s t =>
  s.unixSeconds < t.unixSeconds ∨ s.unixSeconds = t.unixSeconds ∧ s.subsecNanos ≤ t.subsecNanos⟩
instance (s t : Instant) : Decidable (s < t) := inferInstanceAs (Decidable (_ ∨ _))
instance (s t : Instant) : Decidable (s ≤ t) := inferInstanceAs (Decidable (_ ∨ _))

/-- The longest duration that can be added to an instant at all: `2 ^ 63 - 1` milliseconds. -/
def longestShift : Nat := 9223372036854775807000000

/-- Whether a duration is short enough to be added to instants. -/
def shiftable (d : Duration) : Bool := d.nanos ≤ longestShift

/-- The instant a duration later, if the calendar holds it. It is inside a leap second if `t` is,
    and the duration does not lead out of it. -/
def add? (t : Instant) (d : Duration) : Option Instant :=
  (ofNanos? (t.nanos + d.nanos)).map fun later =>
    { later with leap := t.leap && decide (later.unixSeconds = t.unixSeconds) }

/-- The instant a duration later, or the last one of the calendar. -/
def addCapped (t : Instant) (d : Duration) : Instant := (t.add? d).getD latest

/-- The second of its day that an instant falls into. -/
def secondOfDay (t : Instant) : Int := t.unixSeconds % 86400

/-- The leap second that one of two instants stands in, counted if the other one is past it. Which
    one is later is told by the seconds of their days, whatever the days. -/
def leapBetween (t earlier : Instant) : Int :=
  if earlier.leap && decide (earlier.secondOfDay < t.secondOfDay) then 1
  else if t.leap && decide (t.secondOfDay < earlier.secondOfDay) then -1
  else 0

/-- Nanoseconds from `earlier` to `t`, negative if `earlier` is the later one. -/
def nanosSince (t earlier : Instant) : Int :=
  (t.unixSeconds - earlier.unixSeconds + leapBetween t earlier) * nanosPerSecond +
    ((t.subsecNanos : Int) - earlier.subsecNanos)

theorem nanosSince_self (t : Instant) : t.nanosSince t = 0 := by
  have hleap : t.leapBetween t = 0 := by simp [leapBetween]
  rw [nanosSince, hleap]
  omega

/-- The time from `earlier` to `t`, unless that is negative. -/
def since? (t earlier : Instant) : Option Duration :=
  if 0 ≤ t.nanosSince earlier then some (.ofNanos (t.nanosSince earlier).toNat) else none

/-- The time between two instants, whichever is the later one. -/
def apart (s t : Instant) : Duration := .ofNanos (s.nanosSince t).natAbs

theorem nanos_of_add? {t later : Instant} {d : Duration} (h : t.add? d = some later) :
    later.nanos = t.nanos + d.nanos := by
  unfold add? ofNanos? at h
  split at h
  · cases h
    rfl
  · cases h

/-- A sum is missing just if it is past the end of the calendar. -/
theorem add?_eq_none_iff {t : Instant} {d : Duration} :
    t.add? d = none ↔ latestNanos < t.nanos + d.nanos := by
  have h := t.inRange
  unfold add? ofNanos?
  split
  · next hrange =>
    simp only [Option.map_some, reduceCtorEq, false_iff]
    omega
  · next hrange =>
    simp only [Option.map_none, true_iff]
    omega

theorem nanos_addCapped (t : Instant) (d : Duration) :
    (t.addCapped d).nanos = min (t.nanos + d.nanos) latestNanos := by
  unfold addCapped
  cases hadd : t.add? d with
  | none =>
    have hpast := add?_eq_none_iff.mp hadd
    show latestNanos = _
    omega
  | some later =>
    have hnanos := nanos_of_add? hadd
    have hrange := later.inRange
    show later.nanos = _
    omega

end Instant
end LightCone
