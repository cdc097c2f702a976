import LightCone.Binary64.Basic

/-!
Events of the timing service, and tallies of them.

Every cache lookup, computed delay, verdict, batch item and synchronized node is one event. A
tally counts them in thirteen named counters; `Tally.record` moves exactly one of them
(`counters_record`).
-/
namespace LightCone

/-- The three families of stored results. -/
inductive CacheKind where
  | delay
  | timing
  | offset
  deriving DecidableEq

def CacheKind.label : CacheKind → String
  | delay => "delay"
  | timing => "timing"
  | offset => "offset"

inductive Event where
  | cacheHit (kind : CacheKind)
  | cacheMiss (kind : CacheKind)
  | delayComputed
  | validation (accepted : Bool)
  | batchItem (ok : Bool)
  | sync (ok : Bool)
  deriving DecidableEq

structure Tally where
  delayHits : Nat := 0
  delayMisses : Nat := 0
  timingHits : Nat := 0
  timingMisses : Nat := 0
  offsetHits : Nat := 0
  offsetMisses : Nat := 0
  delaysComputed : Nat := 0
  accepted : Nat := 0
  rejected : Nat := 0
  batchOk : Nat := 0
  batchFailed : Nat := 0
  syncsOk : Nat := 0
  syncsFailed : Nat := 0
  deriving DecidableEq

namespace Tally

def record (t : Tally) : Event → Tally
  | .cacheHit .delay => { t with delayHits := t.delayHits + 1 }
  | .cacheHit .timing => { t with timingHits := t.timingHits + 1 }
  | .cacheHit .offset => { t with offsetHits := t.offsetHits + 1 }
  | .cacheMiss .delay => { t with delayMisses := t.delayMisses + 1 }
  | .cacheMiss .timing => { t with timingMisses := t.timingMisses + 1 }
  | .cacheMiss .offset => { t with offsetMisses := t.offsetMisses + 1 }
  | .delayComputed => { t with delaysComputed := t.delaysComputed + 1 }
  | .validation true => { t with accepted := t.accepted + 1 }
  | .validation false => { t with rejected := t.rejected + 1 }
  | .batchItem true => { t with batchOk := t.batchOk + 1 }
  | .batchItem false => { t with batchFailed := t.batchFailed + 1 }
  | .sync true => { t with syncsOk := t.syncsOk + 1 }
  | .sync false => { t with syncsFailed := t.syncsFailed + 1 }

/-- The counters by name, in the order of their listing. -/
def counters (t : Tally) : List (String × Nat) :=
  [("delay_cache_hits", t.delayHits), ("delay_cache_misses", t.delayMisses),
   ("timing_cache_hits", t.timingHits), ("timing_cache_misses", t.timingMisses),
   ("offset_cache_hits", t.offsetHits), ("offset_cache_misses", t.offsetMisses),
   ("delays_computed", t.delaysComputed),
   ("validations_accepted", t.accepted), ("validations_rejected", t.rejected),
   ("batch_items_ok", t.batchOk), ("batch_items_failed", t.batchFailed),
   ("syncs_ok", t.syncsOk), ("syncs_failed", t.syncsFailed)]

/-- The hits and misses of one family. -/
def lookups (t : Tally) : CacheKind → Nat × Nat
  | .delay => (t.delayHits, t.delayMisses)
  | .timing => (t.timingHits, t.timingMisses)
  | .offset => (t.offsetHits, t.offsetMisses)

/-- The share of lookups that hit; zero before the first lookup. -/
def hitRatio (t : Tally) (kind : CacheKind) : Binary64 :=
  let (hits, misses) := t.lookups kind
  if hits + misses = 0 then 0 else .ofNat hits / .ofNat (hits + misses)

/-- The place in the listing of the counter that an event moves. -/
def place : Event → Nat
  | .cacheHit .delay => 0
  | .cacheMiss .delay => 1
  | .cacheHit .timing => 2
  | .cacheMiss .timing => 3
  | .cacheHit .offset => 4
  | .cacheMiss .offset => 5
  | .delayComputed => 6
  | .validation true => 7
  | .validation false => 8
  | .batchItem true => 9
  | .batchItem false => 10
  | .sync true => 11
  | .sync false => 12

/-- An event moves its own counter by one, and no other. -/
theorem counters_record (t : Tally) (e : Event) :
    (t.record e).counters =
      t.counters.mapIdx fun i c => (c.1, c.2 + if i = place e then 1 else 0) := by
  rcases e with (_ | _ | _) | (_ | _ | _) | _ | (_ | _) | (_ | _) | (_ | _) <;>
    simp [counters, record, place]

end Tally
end LightCone
