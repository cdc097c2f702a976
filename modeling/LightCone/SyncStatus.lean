import LightCone.Time.Instant

/-!
Synchronization records of nodes.

A record is pending until the first outcome is recorded. A success counts, joins the running
average and the history, of which only the latest offsets are kept, and clears the last error;
a failure counts and leaves its text, and keeps all offsets.
-/
namespace LightCone

inductive SyncState where
  | pending
  | synced
  | failed
  deriving DecidableEq, Inhabited

def SyncState.name : SyncState → String
  | pending => "pending"
  | synced => "synced"
  | failed => "failed"

def SyncState.all : List SyncState := [pending, synced, failed]

/-- What is known of the synchronization of one node. -/
structure SyncStatus where
  id : String
  lastSync : Option Instant
  successes : Nat
  failures : Nat
  lastOffset : Option Duration
  /-- The running average of every successful offset. -/
  average : Duration
  state : SyncState
  lastError : Option String
  /-- The latest offsets, oldest first. -/
  history : List Duration
  /-- The time of the last change. -/
  updatedAt : Instant
  deriving DecidableEq

namespace SyncStatus

def pending (id : String) (now : Instant) : SyncStatus :=
  ⟨id, none, 0, 0, none, .zero, .pending, none, [], now⟩

def lastOf {α : Type} (n : Nat) (xs : List α) : List α := xs.drop (xs.length - n)

/-- The average of `n` offsets, from the average of those before the last and the last. -/
def nextAverage (average offset : Duration) (n : Nat) : Duration :=
  let before := average.asSeconds
  .ofSeconds (before + (offset.asSeconds - before) / .ofNat n)

def recordSuccess (s : SyncStatus) (offset : Duration) (now : Instant) (historyLength : Nat) :
    SyncStatus :=
  { s with
    successes := s.successes + 1
    average := nextAverage s.average offset (s.successes + 1)
    lastOffset := some offset
    lastSync := some now
    state := .synced
    lastError := none
    updatedAt := now
    history := lastOf historyLength (s.history ++ [offset]) }

def recordFailure (s : SyncStatus) (error : String) (now : Instant) : SyncStatus :=
  { s with
    failures := s.failures + 1
    state := .failed
    lastError := some error
    updatedAt := now }

/-- Whether a record was changed no longer ago than the retention; one from the future was. -/
def retained (s : SyncStatus) (retention : Duration) (now : Instant) : Bool :=
  now.nanosSince s.updatedAt ≤ retention.nanos

end SyncStatus
end LightCone
