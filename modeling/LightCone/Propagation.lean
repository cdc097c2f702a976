import LightCone.Time.Duration

/-!
Propagation: the least time a signal needs to cover a distance.

This file

1. gives the delay of light over a distance, the delay over a network that is slower by a
   factor, and that delay as seen from a moving frame;
2. scores a time difference against a bound (`confidenceScore`), and a measurement by its
   distance and delay (`measurementConfidence`).

Every function answers for every number: distances, factors and velocities that make no
sense count as zero or as at rest.
-/
namespace LightCone

/-- Meters per second. -/
def speedOfLight : Binary64 := 299792458

/-- A positive finite number as it is, all else as zero. -/
def Binary64.positivePart (x : Binary64) : Binary64 :=
  if x.isFinite ∧ 0 < x then x else 0

/-- Seconds that light needs for a number of meters. -/
def lightSeconds (distance : Binary64) : Binary64 := distance.positivePart / speedOfLight

/-- Seconds over a network that takes `factor` times as long as light. -/
def networkSeconds (distance factor : Binary64) : Binary64 :=
  lightSeconds distance * factor.positivePart

def lightDelay (distance : Binary64) : Duration := .ofSeconds (lightSeconds distance)

def networkDelay (distance factor : Binary64) : Duration := .ofSeconds (networkSeconds distance factor)

/-- The factor by which a clock at this velocity runs slow; one at rest and from the speed of
    light on. -/
def lorentzFactor (velocity : Binary64) : Binary64 :=
  if velocity.isFinite ∧ 0 < velocity ∧ velocity < speedOfLight then
    let ratio := velocity / speedOfLight
    let factor := 1 / (1 - ratio * ratio).sqrt
    if factor.isFinite then factor else 1
  else 1

/-- A network delay lengthened by the relative velocity of its two ends. -/
def relativisticDelay (distance velocity factor : Binary64) : Duration :=
  let base := networkSeconds distance factor
  let gamma := lorentzFactor velocity
  if gamma = 1 then .ofSeconds base else .ofSeconds (base * gamma)

/-! ## Confidence -/

/-- How far a time difference stays below a bound: one for no difference, zero from the bound
    on. A bound of zero admits no difference at all. -/
def confidenceScore (difference bound : Duration) : Binary64 :=
  if bound.nanos = 0 then (if difference.nanos = 0 then 1 else 0)
  else if bound ≤ difference then 0
  else (1 - difference.asSeconds / bound.asSeconds).clamp 0 1

/-- One part of a measurement's confidence: it falls with the ratio, down to a tenth. -/
def partConfidence (ratio : Binary64) : Binary64 :=
  if ratio.isFinite then (1 - ratio).clamp 0.1 1 else 0.1

/-- The confidence of a measurement: the mean of what its distance, against 20000 km, and its
    delay, against half a second, are worth. -/
def measurementConfidence (distance seconds : Binary64) : Binary64 :=
  ((partConfidence (distance / 20000000) + partConfidence (seconds / 0.5)) / 2).clamp 0 1

end LightCone
