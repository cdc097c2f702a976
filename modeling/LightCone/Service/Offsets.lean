import LightCone.Service.Timings

/-!
Clock offsets of nodes.

This file

1. estimates the offset of a node against reference nodes and keeps it (`offsetJob`); a node
   that is unknown or has no measurement leaves the stored record as it was;
2. reads stored offsets, and tells stale ones from missing ones (`storedOffset`);
3. gives the current offset of a node, recomputed when it is not fresh, the global offset, and
   timestamps adjusted by a stored offset;
4. estimates offsets in batches (`batchOffsets`).
-/
namespace LightCone

/-- Measures a node against each reference that resolves. -/
def measureJob (node : Node) : List String → Job (List Measurement)
  | [] => .done []
  | id :: rest => .lookup id fun
    | .error _ => measureJob node rest
    | .ok reference => .delay node reference fun
      | .error _ => measureJob node rest
      | .ok answer => (measureJob node rest).bind fun ms =>
        .done (Measurement.of answer.distance answer.delay :: ms)

/-- The references that count for a node: the distinct ones other than itself. -/
def referencesOf (id : String) (references : List String) : List String :=
  (distinctIds references).filter (· ≠ id)

def offsetOf (node : Node) (id : String) (ms : List Measurement) (now : Instant) :
    Except Fault NodeOffset :=
  match weightedHalfDelay ms with
  | none => .error (.noValidMeasurements id)
  | some (offset, confidence) => .ok
    { id := id
      offset := offset
      confidence := confidence
      measurements := ms.length
      region := Region.of node.position
      calculatedAt := now }

/-- Estimates the offset of a node and keeps it. -/
def offsetJob (id : String) (references : List String) (now : Instant) :
    Job (Except Fault NodeOffset) :=
  .lookup id fun
    | .error fault => .done (.error fault)
    | .ok node => (measureJob node (referencesOf id references)).bind fun ms =>
      match offsetOf node id ms now with
      | .error fault => .done (.error fault)
      | .ok record => .keep record (.done (.ok record))

def offsetJobs (ids references : List String) (now : Instant) : Pool String NodeOffset :=
  (distinctIds ids).map fun id => (id, offsetJob id references now)

/-- How many entries each cache held before it was cleared. -/
structure Cleared where
  delays : Nat
  timings : Nat
  offsets : Nat
  deriving DecidableEq

namespace Service

def measureOffset (s : Service) (id : String) (references : List String) :
    Except Fault NodeOffset × Service :=
  s.perform (offsetJob id references s.now)

def storedOffset (s : Service) (id : String) : Except Fault NodeOffset × Service :=
  match s.memory.offsets.lookup id s.now with
  | .fresh record => (.ok record, s.count (.cacheHit .offset))
  | .expired _ age => (.error (.staleOffset id age), s.count (.cacheMiss .offset))
  | .missing => (.error (.offsetNotFound id), s.count (.cacheMiss .offset))

/-- The stored offset of a node, or one measured against every active node. -/
def currentOffset (s : Service) (id : String) : Except Fault NodeOffset × Service :=
  match s.storedOffset id with
  | (.ok record, s) => (.ok record, s)
  | (.error _, s) => s.measureOffset id (Directory.ids s.env.directory.active)

def knownOffsets (s : Service) : List NodeOffset := (s.memory.offsets.freshEntries s.now).map Prod.snd

/-- The mean of the fresh offsets that are confident enough. -/
def globalOffset (s : Service) : Duration :=
  LightCone.globalOffset (s.knownOffsets.map fun r => (r.offset, r.confidence))
    s.settings.offsets.globalMinConfidence

def shift (timestamp : Instant) (id : String) (offset : Duration) : Except Fault Instant :=
  if Instant.shiftable offset then
    match timestamp.add? offset with
    | some shifted => .ok shifted
    | none => .error (.computationFailed ("adjusted timestamp for " ++ id ++ " overflows"))
  else .error (.computationFailed
    "offset out of range: Source duration value is out of range for the target type")

def adjust (s : Service) (timestamp : Instant) (id : String) : Except Fault Instant × Service :=
  let (record, s) := s.storedOffset id
  (record.bind fun r => shift timestamp id r.offset, s)

/-- Estimates the offsets of every distinct id. A job makes one lookup, and one for each
    reference. -/
def runOffsets (s : Service) (ids references : List String) (cancel : Cancellation) :
    BatchRun String NodeOffset × Service :=
  s.performAll (offsetJobs ids references s.now) (references.length + 1) cancel

def batchOffsets (s : Service) (ids references : List String) (cancel : Cancellation) :
    BatchOutcome String NodeOffset × Service :=
  let (batch, s) := s.runOffsets ids references cancel
  (batch.outcome, s)

def sweepOffsets (s : Service) : Nat × Service :=
  let (n, offsets) := s.memory.offsets.sweep s.now
  (n, { s with memory := { s.memory with offsets := offsets } })

def clearOffsets (s : Service) : Nat × Service :=
  let (n, offsets) := s.memory.offsets.clear
  (n, { s with memory := { s.memory with offsets := offsets } })

def clearCaches (s : Service) : Cleared × Service :=
  let (delays, s) := s.clearDelays
  let (timings, s) := s.clearTimings
  let (offsets, s) := s.clearOffsets
  (⟨delays, timings, offsets⟩, s)

end Service
end LightCone
