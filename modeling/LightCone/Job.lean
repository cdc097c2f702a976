import LightCone.ClockOffset
import LightCone.Fault
import LightCone.Node

/-!
Jobs: computations that stop at directory lookups.

A job is its next request and what follows each answer: it looks a node up, evaluates a delay,
keeps an offset record, or is done. Between two lookups a job runs without a break, so
jobs that share their results can interleave at lookups only.
-/
namespace LightCone

/-- The delay between two nodes. -/
structure DelayResult where
  source : String
  target : String
  delay : Duration
  /-- Meters. -/
  distance : Binary64
  computedAt : Instant
  /-- Whether the delay was stored before. -/
  cached : Bool
  deriving DecidableEq

/-- A computation with result type `α`. -/
inductive Job (α : Type) where
  | done (value : α)
  /-- Asks the directory for a node. -/
  | lookup (id : String) (next : Except Fault Node → Job α)
  /-- Evaluates the delay between two nodes. -/
  | delay (source target : Node) (next : Except Fault DelayResult → Job α)
  /-- Keeps an offset record. -/
  | keep (record : NodeOffset) (next : Job α)
  deriving Inhabited

namespace Job

variable {α β : Type}

/-- Continues a job with another that depends on its result. -/
def bind : Job α → (α → Job β) → Job β
  | done value, f => f value
  | lookup id next, f => lookup id fun answer => (next answer).bind f
  | delay a b next, f => delay a b fun answer => (next answer).bind f
  | keep record next, f => keep record (next.bind f)

end Job
end LightCone
