import LightCone.Fault
import LightCone.Statistics.Event
import LightCone.Table

/-!
Metrics: events counted in labelled rows, for collectors that scrape them.

Five metrics hold the rows. A row exists once an event has fallen into it, but for the one
metric without labels, whose row is there from the start. This file

1. names the row of each event (`Metrics.row`) and counts events by row;
2. registers the five metrics by name in a registry, one after the other, and stops at the
   first name that is taken (`Registry.register`).
-/
namespace LightCone

/-- A metric with its labels, in the order of their names. -/
structure MetricRow where
  metric : String
  labels : List (String × String)
  deriving DecidableEq

namespace MetricRow

/-- The labels as one text. -/
def labelText (r : MetricRow) : String :=
  ",".intercalate (r.labels.map fun l => l.1 ++ "=" ++ l.2)

end MetricRow

/-- Counts by metric name and label text. -/
structure Metrics where
  counts : Table String (Table String Nat)

namespace Metrics

def cacheLookups : String := "light_timing_cache_lookups_total"
def delaysComputed : String := "light_timing_delays_computed_total"
def validations : String := "light_timing_validations_total"
def batchItems : String := "light_timing_batch_items_total"
def syncs : String := "light_timing_syncs_total"

/-- The metrics in the order of their registration. -/
def names : List String := [cacheLookups, delaysComputed, validations, batchItems, syncs]

/-- The label of success or failure. -/
def outcomeLabel (ok : Bool) : String := if ok then "ok" else "failed"

def row : Event → MetricRow
  | .cacheHit kind => ⟨cacheLookups, [("cache", kind.label), ("result", "hit")]⟩
  | .cacheMiss kind => ⟨cacheLookups, [("cache", kind.label), ("result", "miss")]⟩
  | .delayComputed => ⟨delaysComputed, []⟩
  | .validation accepted => ⟨validations, [("verdict", if accepted then "accepted" else "rejected")]⟩
  | .batchItem ok => ⟨batchItems, [("result", outcomeLabel ok)]⟩
  | .sync ok => ⟨syncs, [("result", outcomeLabel ok)]⟩

def initial : Metrics := ⟨Table.empty.insert delaysComputed (Table.empty.insert "" 0)⟩

def count (m : Metrics) (r : MetricRow) : Option Nat :=
  (m.counts.find? r.metric).bind fun rows => rows.find? r.labelText

def record (m : Metrics) (e : Event) : Metrics :=
  let r := row e
  let rows := (m.counts.find? r.metric).getD .empty
  let old := (rows.find? r.labelText).getD 0
  ⟨m.counts.insert r.metric (rows.insert r.labelText (old + 1))⟩

/-- Every row: metric, labels and count, in text order. -/
def rows (m : Metrics) : List (String × String × Nat) :=
  m.counts.entries.flatMap fun (metric, rows) => rows.entries.map fun (labels, n) => (metric, labels, n)

end Metrics

/-! ## Registration -/

/-- The names of the metrics that a registry holds. -/
abbrev Registry := List String

namespace Registry

/-- What a registry answers when a name is taken. -/
def taken : Fault :=
  .configuration "metrics registration failed: Duplicate metrics collector registration attempted"

/-- Registers names in order up to the first that is taken; those before it stay. -/
def registerNames (held : Registry) : List String → Except Fault Unit × Registry
  | [] => (.ok (), held)
  | name :: rest =>
    if name ∈ held then (.error taken, held) else registerNames (name :: held) rest

/-- Registers the metrics of the timing service. -/
def register (held : Registry) : Except Fault Unit × Registry := registerNames held Metrics.names

end Registry
end LightCone
