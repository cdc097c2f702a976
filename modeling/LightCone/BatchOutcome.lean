import LightCone.Fault
import LightCone.Table

/-!
Outcomes of batches in which single items may fail.

An outcome holds results and faults by item, the number of items launched, and whether the
batch was cut off. It is complete, has no fault and gives up its results under one and the
same condition.
-/
namespace LightCone

structure BatchOutcome (κ : Type) [Key κ] (ν : Type) where
  results : Table κ ν
  failures : Table κ Fault
  /-- The number of items launched. -/
  total : Nat
  /-- Whether the batch was cut off before every item had ended. -/
  cancelled : Bool

namespace BatchOutcome

variable {κ ν : Type} [Key κ]

/-- The number of items that ended. -/
def completed (o : BatchOutcome κ ν) : Nat := o.results.size + o.failures.size

/-- Whether every launched item succeeded. -/
def isComplete (o : BatchOutcome κ ν) : Bool := !o.cancelled && o.results.size == o.total

/-- What kept a batch from being complete. -/
def fault (o : BatchOutcome κ ν) : Option Fault :=
  if o.cancelled then some (.cancelled o.completed o.total)
  else if o.results.size < o.total then some (.partialBatch (o.total - o.results.size) o.total)
  else none

/-- All results, or what kept the batch from being complete. -/
def toExcept (o : BatchOutcome κ ν) : Except Fault (Table κ ν) :=
  match o.fault with
  | some fault => .error fault
  | none => .ok o.results

end BatchOutcome
end LightCone
