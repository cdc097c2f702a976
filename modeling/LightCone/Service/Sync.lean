import LightCone.Service.Offsets

/-!
Synchronization of every known node.

A cycle estimates the offset of every node against the active ones and records each outcome
in the status of its node; nodes whose job is cut off keep their status. Maintenance removes
statuses past their retention and sweeps the three caches. This file

1. runs a cycle (`sync`) and maintenance (`maintain`);
2. runs the background loop for some time (`runLoop`): a cycle at the start and one at each
   whole period, each followed by maintenance; a period that passes during a cycle is not
   made up for, and a cycle in flight at the end is cut off.

Time in the loop is that of lookups, in milliseconds; it does not move the clock.
-/
namespace LightCone

structure SyncReport where
  total : Nat
  synced : Nat
  failed : Nat
  cancelled : Bool
  startedAt : Instant
  deriving DecidableEq

structure Maintenance where
  statuses : Nat
  offsets : Nat
  delays : Nat
  timings : Nat
  deriving DecidableEq

namespace Memory

/-- Adds a pending record for each id that has none. -/
def addPending (m : Memory) (ids : List String) (now : Instant) : Memory :=
  { m with statuses := ids.foldl (fun statuses id =>
      if statuses.contains id then statuses else statuses.insert id (.pending id now)) m.statuses }

/-- Counts a success and records it in the status of its node. -/
def recordSuccess (m : Memory) (id : String) (offset : Duration) (now : Instant) (history : Nat) :
    Memory :=
  let m := m.count (.sync true)
  { m with statuses := m.statuses.modify id fun s => s.recordSuccess offset now history }

/-- Counts a failure and records it in the status of its node. -/
def recordFailure (m : Memory) (id : String) (fault : Fault) (now : Instant) : Memory :=
  let m := m.count (.sync false)
  { m with statuses := m.statuses.modify id fun s => s.recordFailure fault.message now }

def recordOutcome (m : Memory) (o : BatchOutcome String NodeOffset) (now : Instant)
    (history : Nat) : Memory :=
  let m := o.results.entries.foldl (fun m e => m.recordSuccess e.1 e.2.offset now history) m
  o.failures.entries.foldl (fun m e => m.recordFailure e.1 e.2 now) m

end Memory

namespace Service

/-- One cycle: the report and the rounds of lookups that it took. -/
def syncRounds (s : Service) (cancel : Cancellation) : (SyncReport × Nat) × Service :=
  let ids := Directory.ids s.env.directory.all
  let references := Directory.ids s.env.directory.active
  let s := { s with memory := s.memory.addPending ids s.now }
  let (batch, s) := s.runOffsets ids references cancel
  let o := batch.outcome
  let report := ⟨o.total, o.results.size, o.failures.size, o.cancelled, s.now⟩
  ((report, batch.rounds),
    { s with memory := s.memory.recordOutcome o s.now s.settings.sync.historyLength })

def sync (s : Service) (cancel : Cancellation) : SyncReport × Service :=
  let ((report, _), s) := s.syncRounds cancel
  (report, s)

def syncStatus (s : Service) (id : String) : Option SyncStatus := s.memory.statuses.find? id

def syncStatuses (s : Service) : List SyncStatus := s.memory.statuses.values

def cleanupStatuses (s : Service) : Nat × Service :=
  let kept := s.memory.statuses.filter fun _ status =>
    status.retained s.settings.sync.statusRetention s.now
  (s.memory.statuses.size - kept.size, { s with memory := { s.memory with statuses := kept } })

def maintain (s : Service) : Maintenance × Service :=
  let (statuses, s) := s.cleanupStatuses
  let (offsets, s) := s.sweepOffsets
  let (delays, s) := s.sweepDelays
  let (timings, s) := s.sweepTimings
  (⟨statuses, offsets, delays, timings⟩, s)

/-! ## The background loop -/

def nanosPerMilli : Nat := 1000000

/-- Nanoseconds between two cycles: the interval, at least a millisecond. -/
def loopPeriod (s : SyncSettings) : Nat := max s.interval.nanos nanosPerMilli

/-- The millisecond at which a time in nanoseconds has passed. -/
def wakeTime (nanos : Nat) : Nat := (nanos + nanosPerMilli - 1) / nanosPerMilli

/-- The nanosecond of the next cycle, after one that was due at `due` and began at the
    millisecond `began`: a period later, or, if it began more than five milliseconds late, the
    next whole period after its beginning. -/
def nextDue (period due began : Nat) : Nat :=
  let start := began * nanosPerMilli
  if due + 5 * nanosPerMilli < start then start + period - (start - due) % period else due + period

/-- Runs cycles until the end. `time` is the millisecond reached and `due` the nanosecond of the
    next cycle. No cycle begins at the end or after it. -/
def runCycles (ending : Nat) : Nat → (time due : Nat) → Service → Service
  | 0, _, _, s => s
  | cycles + 1, time, due, s =>
    let began := max time (wakeTime due)
    if began < ending then
      let ((report, rounds), s) := s.syncRounds (.after (ending - began))
      let s := s.maintain.2
      if report.cancelled then s
      else runCycles ending cycles (began + rounds * s.env.access.latency)
        (nextDue (loopPeriod s.settings.sync) due began) s
    else s

def runLoop (s : Service) (ms : Nat) : Service :=
  runCycles ms (ms * nanosPerMilli / loopPeriod s.settings.sync + 1) 0 0 s

end Service
end LightCone
