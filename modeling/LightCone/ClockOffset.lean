import LightCone.Propagation
import LightCone.Position
import LightCone.Time.Instant

/-!
Clock offsets, estimated from delays.

A delay between two nodes counts half for each of them. The offset of a node is the mean of
its half delays to reference nodes, each weighted by the confidence of its measurement
(`weightedHalfDelay`); the global offset is the mean of node offsets weighted alike, over
those above a least confidence (`globalOffset`). Both are sums in list order.
-/
namespace LightCone

/-- One comparison of a node with a reference node. -/
structure Measurement where
  delay : Duration
  /-- The weight of the comparison, in `[0, 1]`. -/
  confidence : Binary64
  deriving DecidableEq

namespace Measurement

/-- A measurement of a given confidence, held to `[0, 1]`; what is not finite weighs nothing. -/
def withConfidence (delay : Duration) (confidence : Binary64) : Measurement :=
  ⟨delay, if confidence.isFinite then confidence.clamp 0 1 else 0⟩

def of (distance : Binary64) (delay : Duration) : Measurement :=
  withConfidence delay (measurementConfidence distance delay.asSeconds)

end Measurement

structure WeightedSum where
  sum : Binary64
  weight : Binary64

/-- The weighted half delays of measurements, added in order. -/
def sumHalfDelays (ms : List Measurement) : WeightedSum :=
  ms.foldl (fun s m => ⟨s.sum + m.confidence * m.delay.asSeconds / 2, s.weight + m.confidence⟩) ⟨0, 0⟩

/-- The weighted mean half delay and the mean confidence; none without any weight. -/
def weightedHalfDelay (ms : List Measurement) : Option (Duration × Binary64) :=
  let total := sumHalfDelays ms
  if total.weight ≤ 0 then none
  else some (.ofSeconds (total.sum / total.weight),
    (total.weight / .ofNat ms.length).clamp 0 1)

/-- The estimated offset of a node's clock. -/
structure NodeOffset where
  id : String
  offset : Duration
  /-- The mean confidence of the measurements, in `[0, 1]`. -/
  confidence : Binary64
  measurements : Nat
  region : Region
  calculatedAt : Instant
  deriving DecidableEq

/-- The mean of the offsets above a least confidence, weighted by confidence; zero without
    any. -/
def globalOffset (offsets : List (Duration × Binary64)) (minConfidence : Binary64) : Duration :=
  let total := (offsets.filter fun o => decide (minConfidence < o.2)).foldl
    (fun s o => WeightedSum.mk (s.sum + o.1.asSeconds * o.2) (s.weight + o.2)) ⟨0, 0⟩
  if total.weight ≤ 0 then .zero else .ofSeconds (total.sum / total.weight)

end LightCone
