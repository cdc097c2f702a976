import LightCone.Service.Basic
import LightCone.Validation

/-!
Delays between nodes, and verdicts on timestamps that rest on them.

This file

1. asks for the delay of two ids, also with a deadline: past it nothing has been evaluated,
   since the last lookup comes before the evaluation (`delayJob`);
2. runs a batch over every unordered pair of distinct nodes (`batchDelays`), and finds the
   worst pair of the active ones (`maxDelay`);
3. validates claimed timestamps against a reference node; every call is one verdict and one
   event (`validate`, `validateWithin`).
-/
namespace LightCone

/-- The unordered pairs of a list, each with the earlier element first. -/
def pairsOf {α : Type} : List α → List (α × α)
  | [] => []
  | a :: rest => rest.map (fun b => (a, b)) ++ pairsOf rest

/-- The first record of each id in a list of nodes. -/
def distinctNodes : List Node → List Node
  | [] => []
  | n :: rest => n :: (distinctNodes rest).filter fun m => m.id ≠ n.id

/-- Looks two nodes up, then evaluates the delay between them. -/
def delayJob (source target : String) : Job (Except Fault DelayResult) :=
  .lookup source fun
    | .error fault => .done (.error fault)
    | .ok a => .lookup target fun
      | .error fault => .done (.error fault)
      | .ok b => .delay a b .done

def pairJob (a b : Node) : Job (Except Fault Duration) :=
  .delay a b fun answer => .done (answer.map DelayResult.delay)

/-- A job for every unordered pair of distinct nodes. -/
def pairJobs (nodes : List Node) : Pool NodePair Duration :=
  (pairsOf (distinctNodes nodes)).map fun (a, b) => (NodePair.of a.id b.id, pairJob a b)

/-- Whether one pair is worse than another: a longer delay, or as long and first in order. -/
def worse (p q : NodePair × Duration) : Bool :=
  decide (q.2 < p.2) || (decide (q.2 = p.2) && Key.before p.1 q.1)

def worstPair : List (NodePair × Duration) → Option (NodePair × Duration)
  | [] => none
  | p :: rest =>
    match worstPair rest with
    | none => some p
    | some q => some (if worse q p then q else p)

namespace Service

def delay (s : Service) (source target : String) : Except Fault DelayResult × Service :=
  s.perform (delayJob source target)

/-- The delay between two ids, if both lookups are answered by a deadline. -/
def delayWithin (s : Service) (deadline : Duration) (source target : String) :
    Except Fault DelayResult × Service :=
  match s.performWithin deadline (delayJob source target) with
  | (some answer, s) => (answer, s)
  | (none, s) => (.error (.deadlineExceeded deadline), s)

/-- The delays of every unordered pair of distinct nodes; the jobs make no lookups. -/
def batchDelays (s : Service) (nodes : List Node) (cancel : Cancellation) :
    BatchOutcome NodePair Duration × Service :=
  let (batch, s) := s.performAll (pairJobs nodes) 0 cancel
  (batch.outcome, s)

def delayMatrix (s : Service) : BatchOutcome NodePair Duration × Service :=
  s.batchDelays s.env.directory.active .never

def maxDelay (s : Service) : Option (NodePair × Duration) × Service :=
  let (outcome, s) := s.delayMatrix
  (worstPair outcome.results.entries, s)

/-! ## Validation -/

/-- Looks the reference node up and judges a time claimed at a position. -/
def verdictJob (s : Service) (subject : Option Subject) (claimed : Instant) (position : Position)
    (reference : String) : Job Verdict :=
  .lookup reference fun
    | .error fault => .done (.ofLookupFault reference fault s.now)
    | .ok node => .done (.judge s.settings.propagation (node.position.distance position)
        (s.settings.propagation.tolerance subject) s.now claimed)

def countVerdict (s : Service) (v : Verdict) : Service := s.count (.validation v.valid)

/-- The verdict on a time claimed at a position, with the tolerance of its subject. -/
def validate (s : Service) (subject : Option Subject) (claimed : Instant) (position : Position)
    (reference : String) : Verdict × Service :=
  let (verdict, s) := s.perform (s.verdictJob subject claimed position reference)
  ({ verdict with subject := subject }, s.countVerdict verdict)

/-- The verdict with the general tolerance, or the rejection that a deadline has passed. -/
def validateWithin (s : Service) (deadline : Duration) (claimed : Instant) (position : Position)
    (reference : String) : Verdict × Service :=
  match s.performWithin deadline (s.verdictJob none claimed position reference) with
  | (some verdict, s) => (verdict, s.countVerdict verdict)
  | (none, s) =>
    let verdict := Verdict.rejected "deadline exceeded" s.now
    (verdict, s.countVerdict verdict)

/-! ## The store of delays -/

def storedPairs (s : Service) : Nat := s.memory.delays.size

def sweepDelays (s : Service) : Nat × Service :=
  let (n, delays) := s.memory.delays.sweep s.now
  (n, { s with memory := { s.memory with delays := delays } })

def clearDelays (s : Service) : Nat × Service :=
  let (n, delays) := s.memory.delays.clear
  (n, { s with memory := { s.memory with delays := delays } })

end Service
end LightCone
