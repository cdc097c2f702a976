import LightCone.Settings.Basic
import LightCone.Time.Instant

/-!
Timing of a consensus from its worst pairwise delay.

With `max` the worst delay, raised to the least one to count with, and `margin` a multiple of
it, this file derives

1. the block time `max + margin` and the clock offset `max / 2` (`ConsensusTiming.derive`);
2. the voting window `max + margin / 2` (`votingWindow`);
3. the phase timeouts `2 max`, `max + margin`, `3 max` and `5 max` (`timeouts`);
4. block intervals, the block time shortened under load (`blockInterval`).

Block time, voting window and timeouts are held to their ranges; sums and multiples stop at
the longest duration.
-/
namespace LightCone

/-- The timing of one validator set. -/
structure ConsensusTiming where
  /-- The worst pairwise delay, at least the least one to count with. -/
  maxDelay : Duration
  margin : Duration
  blockTime : Duration
  clockOffset : Duration
  /-- The validators that the timing covers. -/
  validators : Nat
  computedAt : Instant
  /-- The name of the set of ids that the timing was asked for. -/
  fingerprint : String
  deriving DecidableEq

structure PhaseTimeouts where
  proposal : Duration
  vote : Duration
  commit : Duration
  viewChange : Duration
  deriving DecidableEq

namespace ConsensusTiming

/-- The timing that follows from a worst pairwise delay. -/
def derive (rawMax : Duration) (validators : Nat) (fingerprint : String) (time : Instant)
    (s : ConsensusSettings) : ConsensusTiming :=
  let maxDelay := rawMax.longer s.minPropagationDelay
  let margin := maxDelay.scale s.safetyFactor
  { maxDelay := maxDelay
    margin := margin
    blockTime := (maxDelay + margin).clamp s.minBlockTime s.maxBlockTime
    clockOffset := maxDelay.half
    validators := validators
    computedAt := time
    fingerprint := fingerprint }

def votingWindow (t : ConsensusTiming) (s : ConsensusSettings) : Duration :=
  (t.maxDelay + t.margin.half).clamp s.minVotingWindow s.maxVotingWindow

def timeouts (t : ConsensusTiming) (s : ConsensusSettings) : PhaseTimeouts :=
  let bound (d : Duration) := d.clamp s.minPhaseTimeout s.maxPhaseTimeout
  { proposal := bound (t.maxDelay.times 2)
    vote := bound (t.maxDelay + t.margin)
    commit := bound (t.maxDelay.times 3)
    viewChange := bound (t.maxDelay.times 5) }

end ConsensusTiming

/-- The part of the block time that is left under a load. -/
def loadScale (load : Binary64) : Binary64 :=
  if 0.8 < load then 0.7 else if 0.5 < load then 0.85 else 1

/-- The block time under a load, at least a floor. -/
def blockInterval (blockTime : Duration) (load : Binary64) (floor : Duration) : Duration :=
  (blockTime.scale (loadScale load)).longer floor

end LightCone
