import LightCone.Time.Duration

/-!
Faults: the ways in which a timing operation can fail.

Each fault belongs to one category, a category has one status code, and a fault has one
message. Both are functions of the fault alone, so equal faults read alike wherever they
arise.
-/
namespace LightCone

/-- Why a timing operation gave no answer. -/
inductive Fault where
  | nodeNotFound (id : String)
  | offsetNotFound (id : String)
  | emptyValidatorSet
  | insufficientValidators (required resolved : Nat)
  | staleOffset (id : String) (age : Duration)
  | computationFailed (reason : String)
  | noValidMeasurements (id : String)
  | partialBatch (failed total : Nat)
  | cancelled (completed total : Nat)
  | deadlineExceeded (deadline : Duration)
  | directory (reason : String)
  | invalidPosition (reason : String)
  | invalidNode (reason : String)
  | configuration (reason : String)
  deriving DecidableEq

/-- What a caller can make of a fault. -/
inductive Fault.Category where
  | notFound
  | insufficientInput
  | stale
  | computationFailed
  | partialBatch
  | cancelled
  | deadlineExceeded
  deriving DecidableEq

namespace Fault

def category : Fault → Category
  | nodeNotFound _ | offsetNotFound _ => .notFound
  | emptyValidatorSet | insufficientValidators .. | invalidPosition _ | invalidNode _
  | configuration _ => .insufficientInput
  | staleOffset .. => .stale
  | computationFailed _ | noValidMeasurements _ | directory _ => .computationFailed
  | partialBatch .. => .partialBatch
  | cancelled .. => .cancelled
  | deadlineExceeded _ => .deadlineExceeded

/-- The status code of a category; what is not the caller's mistake shares one code. -/
def Category.status : Category → Nat
  | notFound => 404
  | insufficientInput => 400
  | stale => 409
  | deadlineExceeded => 504
  | cancelled => 499
  | computationFailed | partialBatch => 500

def message : Fault → String
  | nodeNotFound id => "Unknown node: " ++ id
  | offsetNotFound id => "No offset recorded for node: " ++ id
  | emptyValidatorSet => "Validator set is empty"
  | insufficientValidators required resolved =>
    "Insufficient validators: resolved " ++ toString resolved ++ ", required " ++ toString required
  | staleOffset id age => "Offset for node " ++ id ++ " is stale (" ++ age.text ++ " old)"
  | computationFailed reason => "Delay computation failed: " ++ reason
  | noValidMeasurements id => "No valid reference measurements for node: " ++ id
  | partialBatch failed total =>
    "Batch partially failed: " ++ toString failed ++ " of " ++ toString total ++ " items failed"
  | cancelled completed total =>
    "Batch cancelled after " ++ toString completed ++ " of " ++ toString total ++ " items"
  | deadlineExceeded deadline => "Deadline of " ++ deadline.text ++ " exceeded"
  | directory reason => "Node directory error: " ++ reason
  | invalidPosition reason => "Invalid position: " ++ reason
  | invalidNode reason => "Invalid node record: " ++ reason
  | configuration reason => "Invalid configuration: " ++ reason

end Fault
end LightCone
