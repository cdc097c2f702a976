import LightCone.Service.Sync

/-!
Requests to a timing service.

A run of the service is a list of requests. Some come from callers, some from its own
background work, and some change the world around it: its clock and its directory. This file

1. lists the requests (`Request`) and the forms of their answers (`Answer`);
2. serves one request (`Service.serve`) and a list of them in order (`Service.serveAll`).
-/
namespace LightCone

/-- What a service can be asked. -/
inductive Request where
  /-- Moves the clock forward, at most to the end of the calendar. -/
  | advance (span : Duration)
  | setNow (now : Instant)
  | upsert (node : Node)
  | remove (id : String)
  | setActive (id : String) (active : Bool) (seen : Instant)
  | node (id : String)
  | delay (source target : String)
  | delayWithin (deadline : Duration) (source target : String)
  | batchDelays (nodes : List Node) (cancel : Cancellation)
  | delayMatrix
  | maxDelay
  | validate (subject : Option Subject) (claimed : Instant) (position : Position)
      (reference : String)
  | validateWithin (deadline : Duration) (claimed : Instant) (position : Position)
      (reference : String)
  | consensusTiming (ids : List String)
  | timeouts (ids : List String)
  | votingWindow (ids : List String)
  | blockInterval (ids : List String) (load : Binary64)
  | faultTolerance (ids : List String)
  | measureOffset (id : String) (references : List String)
  | storedOffset (id : String)
  | currentOffset (id : String)
  | batchOffsets (ids references : List String) (cancel : Cancellation)
  | knownOffsets
  | globalOffset
  | adjust (timestamp : Instant) (id : String)
  | sync (cancel : Cancellation)
  | runLoop (ms : Nat)
  | syncStatus (id : String)
  | syncStatuses
  | maintain
  | sweepDelays
  | sweepTimings
  | sweepOffsets
  | cleanupStatuses
  | clearCaches

/-- What a service answers. -/
inductive Answer where
  | clock (now : Instant)
  /-- The record that was there before. -/
  | previous (record : Except Fault (Option Node))
  | changed (known : Bool)
  | node (record : Except Fault Node)
  | delay (result : Except Fault DelayResult)
  | delays (outcome : BatchOutcome NodePair Duration)
  | worst (pair : Option (NodePair × Duration))
  | verdict (verdict : Verdict)
  | timing (timing : Except Fault ConsensusTiming)
  | timeouts (timeouts : Except Fault PhaseTimeouts)
  | span (span : Except Fault Duration)
  | tolerance (tolerance : Except Fault FaultTolerance)
  | offset (record : Except Fault NodeOffset)
  | offsets (outcome : BatchOutcome String NodeOffset)
  | known (records : List NodeOffset)
  | adjusted (timestamp : Except Fault Instant)
  | synced (report : SyncReport)
  | status (record : Option SyncStatus)
  | statuses (records : List SyncStatus)
  | maintained (removed : Maintenance)
  | removed (entries : Nat)
  | cleared (entries : Cleared)

namespace Service

/-- Moves the clock forward, at most to the end of the calendar. -/
def advance (s : Service) (span : Duration) : Service := s.setNow (s.now.addCapped span)

def answered {α : Type} (form : α → Answer) (result : α × Service) : Answer × Service :=
  (form result.1, result.2)

def serve (s : Service) : Request → Answer × Service
  | .advance span =>
    let s := s.advance span
    (.clock s.now, s)
  | .setNow now => (.clock now, s.setNow now)
  | .upsert node =>
    match s.upsert node with
    | .ok (previous, s) => (.previous (.ok previous), s)
    | .error fault => (.previous (.error fault), s)
  | .remove id => answered (fun record => .previous (.ok record)) (s.remove id)
  | .setActive id active seen => answered .changed (s.setActive id active seen)
  | .node id => (.node (s.env.directory.get id), s)
  | .delay source target => answered .delay (s.delay source target)
  | .delayWithin deadline source target => answered .delay (s.delayWithin deadline source target)
  | .batchDelays nodes cancel => answered .delays (s.batchDelays nodes cancel)
  | .delayMatrix => answered .delays s.delayMatrix
  | .maxDelay => answered .worst s.maxDelay
  | .validate subject claimed position reference =>
    answered .verdict (s.validate subject claimed position reference)
  | .validateWithin deadline claimed position reference =>
    answered .verdict (s.validateWithin deadline claimed position reference)
  | .consensusTiming ids => answered .timing (s.consensusTiming ids)
  | .timeouts ids => answered .timeouts (s.timeouts ids)
  | .votingWindow ids => answered .span (s.votingWindow ids)
  | .blockInterval ids load => answered .span (s.blockInterval ids load)
  | .faultTolerance ids => (.tolerance (faultTolerance ids), s)
  | .measureOffset id references => answered .offset (s.measureOffset id references)
  | .storedOffset id => answered .offset (s.storedOffset id)
  | .currentOffset id => answered .offset (s.currentOffset id)
  | .batchOffsets ids references cancel => answered .offsets (s.batchOffsets ids references cancel)
  | .knownOffsets => (.known s.knownOffsets, s)
  | .globalOffset => (.span (.ok s.globalOffset), s)
  | .adjust timestamp id => answered .adjusted (s.adjust timestamp id)
  | .sync cancel => answered .synced (s.sync cancel)
  | .runLoop ms =>
    let s := s.runLoop ms
    (.statuses s.syncStatuses, s)
  | .syncStatus id => (.status (s.syncStatus id), s)
  | .syncStatuses => (.statuses s.syncStatuses, s)
  | .maintain => answered .maintained s.maintain
  | .sweepDelays => answered .removed s.sweepDelays
  | .sweepTimings => answered .removed s.sweepTimings
  | .sweepOffsets => answered .removed s.sweepOffsets
  | .cleanupStatuses => answered .removed s.cleanupStatuses
  | .clearCaches => answered .cleared s.clearCaches

/-- Serves requests in order; gives every answer. -/
def serveAll (s : Service) : List Request → List Answer × Service
  | [] => ([], s)
  | request :: rest =>
    let (answer, s) := s.serve request
    let (answers, s) := s.serveAll rest
    (answer :: answers, s)

end Service
end LightCone
