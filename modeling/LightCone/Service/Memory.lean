import LightCone.Consensus.Timing
import LightCone.Directory
import LightCone.ExpiringCache
import LightCone.Job
import LightCone.Propagation
import LightCone.Statistics.Metrics
import LightCone.SyncStatus

/-!
What the timing service sees, and what it remembers.

Its environment (settings, directory and clock) stays the same during an operation. Its
memory is three expiring caches, the synchronization records and two counts of events. This
file

1. answers lookups from the directory, for which each takes some time and some may fail;
2. evaluates delays against the cache (`Memory.evaluate`): one event for the lookup and, for
   a computed delay, one more;
3. keeps offset records.
-/
namespace LightCone

/-- How the directory answers the service. -/
structure Access where
  /-- Milliseconds until a lookup is answered. -/
  latency : Nat := 0
  /-- Nodes whose lookups fail. -/
  failing : List String := []

/-- What the service sees but does not change by itself. -/
structure Environment where
  settings : Settings
  directory : Directory
  access : Access
  now : Instant

def Environment.answer (env : Environment) (id : String) : Except Fault Node :=
  if id ∈ env.access.failing then .error (.directory ("lookup of " ++ id ++ " failed"))
  else env.directory.get id

/-- A computed delay as the cache stores it. -/
structure StoredDelay where
  delay : Duration
  distance : Binary64
  computedAt : Instant
  deriving DecidableEq

/-- What the service remembers between operations. -/
structure Memory where
  delays : ExpiringCache NodePair StoredDelay
  timings : ExpiringCache String ConsensusTiming
  offsets : ExpiringCache String NodeOffset
  statuses : Table String SyncStatus
  tally : Tally
  /-- Labelled counts, if the service keeps them. -/
  metrics : Option Metrics

namespace Memory

def initial (s : Settings) (metrics : Option Metrics) : Memory where
  delays := .empty s.propagation.delayLifetime
  timings := .empty s.consensus.timingLifetime
  offsets := .empty s.offsets.staleness
  statuses := .empty
  tally := {}
  metrics := metrics

def count (m : Memory) (e : Event) : Memory :=
  { m with tally := m.tally.record e, metrics := m.metrics.map (·.record e) }

/-- The stored delay of a pair of nodes, as the answer for one direction. -/
def answerStored (source target : Node) (d : StoredDelay) (cached : Bool) : DelayResult :=
  ⟨source.id, target.id, d.delay, d.distance, d.computedAt, cached⟩

def compute (env : Environment) (source target : Node) : Except Fault StoredDelay :=
  let distance := source.position.distance target.position
  if distance.isFinite then
    .ok ⟨networkDelay distance env.settings.propagation.networkFactor, distance, env.now⟩
  else .error (.computationFailed
    ("non-finite distance between " ++ source.id ++ " and " ++ target.id))

/-- The delay between two nodes: the stored one while it is fresh, else a computed one, which
    is then stored for both directions. -/
def evaluate (m : Memory) (env : Environment) (source target : Node) :
    Except Fault DelayResult × Memory :=
  let pair := NodePair.of source.id target.id
  match m.delays.get? pair env.now with
  | some stored => (.ok (answerStored source target stored true), m.count (.cacheHit .delay))
  | none =>
    let m := m.count (.cacheMiss .delay)
    match compute env source target with
    | .error fault => (.error fault, m)
    | .ok computed =>
      let m := { m with delays := m.delays.insert pair computed env.now }
      (.ok (answerStored source target computed false), m.count .delayComputed)

def keepOffset (m : Memory) (env : Environment) (record : NodeOffset) : Memory :=
  { m with offsets := m.offsets.insert record.id record env.now }

end Memory

/-! ## Running jobs -/

namespace Job

variable {α : Type}

def run (env : Environment) : Job α → Memory → α × Memory
  | done value, m => (value, m)
  | lookup id next, m => (next (env.answer id)).run env m
  | delay a b next, m =>
    let (answer, m) := m.evaluate env a b
    (next answer).run env m
  | keep record next, m => next.run env (m.keepOffset env record)

/-- Runs a job until it is done or waits for a lookup. -/
def settle (env : Environment) : Job α → Memory → Job α × Memory
  | done value, m => (done value, m)
  | lookup id next, m => (lookup id next, m)
  | delay a b next, m =>
    let (answer, m) := m.evaluate env a b
    (next answer).settle env m
  | keep record next, m => next.settle env (m.keepOffset env record)

/-- Answers the lookup that a job waits for and runs it until it is done or waits again. -/
def resume (env : Environment) : Job α → Memory → Job α × Memory
  | lookup id next, m => (next (env.answer id)).settle env m
  | job, m => job.settle env m

/-- Runs a job for at most `lookups` lookups; no result if it asks for more. -/
def runFor (env : Environment) : Nat → Job α → Memory → Option α × Memory
  | _, done value, m => (some value, m)
  | 0, lookup .., m => (none, m)
  | lookups + 1, lookup id next, m => (next (env.answer id)).runFor env lookups m
  | lookups, delay a b next, m =>
    let (answer, m) := m.evaluate env a b
    (next answer).runFor env lookups m
  | lookups, keep record next, m => next.runFor env lookups (m.keepOffset env record)

/-- Runs a job until a deadline: to its end where lookups take no time, else for the lookups
    that are answered by then. -/
def runWithin (env : Environment) (deadline : Duration) (job : Job α) (m : Memory) :
    Option α × Memory :=
  if env.access.latency = 0 then
    let (value, m) := job.run env m
    (some value, m)
  else job.runFor env (deadline.nanos / (env.access.latency * 1000000)) m

end Job
end LightCone
