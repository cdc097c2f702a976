import LightCone.Quorum
import LightCone.Service.Delays
import LightCone.ValidatorSet

/-!
Consensus timing of validator sets.

A timing is stored under the fingerprint of the set that it was asked for. This file

1. resolves a set and finds its worst pairwise delay (`resolveJob`, `worstDelayJob`);
2. gives the stored timing of a set, or derives one from at least two resolved validators
   (`consensusTiming`), and what follows from it: timeouts, voting window, block interval;
3. gives the fault tolerance of a set, which needs no lookup.
-/
namespace LightCone

def leastValidators : Nat := 2

/-- Looks ids up in order and skips those that give no node. -/
def resolveJob : List String → Job (List Node)
  | [] => .done []
  | id :: rest => .lookup id fun
    | .error _ => resolveJob rest
    | .ok node => (resolveJob rest).bind fun nodes => .done (node :: nodes)

/-- The longest of some delays and `worst`; the first fault ends the search. -/
def worstDelayJob (worst : Duration) : List (Node × Node) → Job (Except Fault Duration)
  | [] => .done (.ok worst)
  | (a, b) :: rest => .delay a b fun
    | .error fault => .done (.error fault)
    | .ok answer => worstDelayJob (worst.longer answer.delay) rest

/-- The number of validators that resolve, and the worst delay of a pair of them. -/
def worstOfSetJob (ids : List String) : Job (Except Fault (Nat × Duration)) :=
  (resolveJob ids).bind fun nodes =>
    if nodes.length < leastValidators then
      .done (.error (.insufficientValidators leastValidators nodes.length))
    else
      (worstDelayJob .zero (pairsOf nodes)).bind fun answer =>
        .done (answer.map fun worst => (nodes.length, worst))

/-- A load as a share of one; what is not finite is no load. -/
def loadShare (load : Binary64) : Binary64 := if load.isFinite then load.clamp 0 1 else 0

namespace Service

/-- Stores a timing under the name of its set. -/
def keepTiming (s : Service) (timing : ConsensusTiming) : Service :=
  { s with memory :=
      { s.memory with timings := s.memory.timings.insert timing.fingerprint timing s.now } }

def consensusTiming (s : Service) (ids : List String) : Except Fault ConsensusTiming × Service :=
  let name := fingerprint ids
  match s.memory.timings.get? name s.now with
  | some timing => (.ok timing, s.count (.cacheHit .timing))
  | none =>
    match (s.count (.cacheMiss .timing)).perform (worstOfSetJob (distinctIds ids)) with
    | (.error fault, s) => (.error fault, s)
    | (.ok (validators, worst), s) =>
      let timing := ConsensusTiming.derive worst validators name s.now s.settings.consensus
      (.ok timing, s.keepTiming timing)

def fromTiming {α : Type} (s : Service) (ids : List String)
    (f : ConsensusTiming → ConsensusSettings → α) : Except Fault α × Service :=
  let (timing, s) := s.consensusTiming ids
  (timing.map fun t => f t s.settings.consensus, s)

def timeouts (s : Service) (ids : List String) : Except Fault PhaseTimeouts × Service :=
  s.fromTiming ids ConsensusTiming.timeouts

def votingWindow (s : Service) (ids : List String) : Except Fault Duration × Service :=
  s.fromTiming ids ConsensusTiming.votingWindow

/-- The block time of a set, shortened under a load. -/
def blockInterval (s : Service) (ids : List String) (load : Binary64) :
    Except Fault Duration × Service :=
  s.fromTiming ids fun t c => LightCone.blockInterval t.blockTime (loadShare load) c.minBlockInterval

/-- The fault tolerance of the distinct ids of a list. -/
def faultTolerance (ids : List String) : Except Fault FaultTolerance :=
  match distinctIds ids with
  | [] => .error .emptyValidatorSet
  | ids => .ok (.of ids.length)

def sweepTimings (s : Service) : Nat × Service :=
  let (n, timings) := s.memory.timings.sweep s.now
  (n, { s with memory := { s.memory with timings := timings } })

def clearTimings (s : Service) : Nat × Service :=
  let (n, timings) := s.memory.timings.clear
  (n, { s with memory := { s.memory with timings := timings } })

end Service
end LightCone
