import LightCone.Fault
import LightCone.Propagation
import LightCone.Settings.Basic
import LightCone.Time.Instant

/-!
Verdicts on claimed timestamps.

A claim made at some place at some time is plausible if the difference between the claimed
time and now is at most the delay from that place, plus a tolerance, and the confidence in it
is high enough (`Verdict.judge`). Each kind of subject has a tolerance of its own.
-/
namespace LightCone

/-- What a timestamp is claimed for. -/
inductive Subject where
  | block (height : Nat)
  | transaction (hash : String)
  | heartbeat (nodeId : String)
  deriving DecidableEq

def Subject.label : Subject → String
  | block _ => "block"
  | transaction _ => "transaction"
  | heartbeat _ => "heartbeat"

/-- The tolerance for a subject; without one, the general tolerance. -/
def PropagationSettings.tolerance (s : PropagationSettings) : Option Subject → Duration
  | none => s.validationTolerance
  | some (.block _) => s.blockTolerance
  | some (.transaction _) => s.transactionTolerance
  | some (.heartbeat _) => s.heartbeatTolerance

/-- Whether a claimed time is plausible, and on what grounds. -/
structure Verdict where
  valid : Bool
  confidence : Binary64
  reason : String
  /-- The delay from the claimed place. -/
  expected : Duration
  /-- The difference between the claimed time and now. -/
  actual : Duration
  /-- The expected delay with the tolerance. -/
  threshold : Duration
  validatedAt : Instant
  subject : Option Subject
  deriving DecidableEq

namespace Verdict

/-- A rejection before any times are compared. -/
def rejected (reason : String) (now : Instant) : Verdict :=
  ⟨false, 0, reason, .zero, .zero, .zero, now, none⟩

/-- The least confidence that a verdict needs: the one in the settings, but no more than a
    claim has whose difference is the expected delay itself. -/
def floor (s : PropagationSettings) (expected threshold : Duration) : Binary64 :=
  s.minConfidence.smaller (confidenceScore expected threshold)

/-- The verdict on a time difference, given the expected delay and a tolerance. -/
def ofDifference (s : PropagationSettings) (expected tolerance actual : Duration) (now : Instant) :
    Verdict :=
  let threshold := expected + tolerance
  let confidence := confidenceScore actual threshold
  let least := floor s expected threshold
  let verdict (valid : Bool) (reason : String) : Verdict :=
    ⟨valid, confidence, reason, expected, actual, threshold, now, none⟩
  if threshold < actual then
    verdict false ("time difference " ++ actual.text ++ " exceeds bound " ++ threshold.text)
  else if confidence < least then
    verdict false ("confidence " ++ confidence.fixed 3 ++ " below minimum " ++ least.fixed 3)
  else verdict true "within propagation bound"

def judge (s : PropagationSettings) (distance : Binary64) (tolerance : Duration)
    (now claimed : Instant) : Verdict :=
  if distance.isFinite then
    ofDifference s (networkDelay distance s.networkFactor) tolerance (now.apart claimed) now
  else rejected "distance computation failed" now

/-- The rejection for a reference node that could not be looked up. -/
def ofLookupFault (reference : String) (fault : Fault) (now : Instant) : Verdict :=
  match fault with
  | .nodeNotFound _ => rejected ("reference node " ++ reference ++ " not found") now
  | fault => rejected ("reference lookup failed: " ++ fault.message) now

end Verdict
end LightCone
