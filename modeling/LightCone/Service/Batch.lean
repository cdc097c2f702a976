import LightCone.BatchOutcome
import LightCone.Service.Memory

/-!
Batches: jobs that start together and share one memory.

Lookups are answered in rounds: every waiting job gets its answer after the same time, and runs
on to its next lookup, in the order of the jobs. This file

1. settles one job and counts it when it ends (`advance`);
2. answers rounds of lookups (`rounds`), as many as a cancellation leaves time for;
3. collects the outcome (`fanOut`);
4. says which steps may follow each other when jobs interleave in any order (`Step`).
-/
namespace LightCone

/-- When a batch is told to stop. -/
inductive Cancellation where
  | never
  | before
  /-- After some milliseconds. -/
  | after (ms : Nat)
  deriving DecidableEq

/-- The rounds of lookups that are answered before a batch is told to stop, up to `most`. -/
def Cancellation.rounds (cancel : Cancellation) (access : Access) (most : Nat) : Nat :=
  match cancel with
  | never => most
  | before => 0
  | after ms => if access.latency = 0 then most else min most ((ms - 1) / access.latency)

/-- Jobs of a batch by item. -/
abbrev Pool (κ ν : Type) := List (κ × Job (Except Fault ν))

namespace Pool

variable {κ ν : Type}

def ended : Job (Except Fault ν) → Option (Except Fault ν)
  | .done result => some result
  | _ => none

/-- Counts the item of a job that has just ended. -/
def countEnded (job : Job (Except Fault ν)) (m : Memory) : Memory :=
  match ended job with
  | some (.ok _) => m.count (.batchItem true)
  | some (.error _) => m.count (.batchItem false)
  | none => m

/-- Runs a job that has not ended to its next lookup or its end. -/
def advance (env : Environment) (job : Job (Except Fault ν)) (m : Memory) :
    Job (Except Fault ν) × Memory :=
  let (job, m) := job.resume env m
  (job, countEnded job m)

def waits : Job (Except Fault ν) → Bool
  | .lookup .. => true
  | _ => false

/-- Starts every job that does not begin with a lookup. -/
def start (env : Environment) : Pool κ ν → Memory → Pool κ ν × Memory
  | [], m => ([], m)
  | (key, job) :: rest, m =>
    let (job, m) := if waits job then (job, m) else advance env job m
    let (rest, m) := start env rest m
    ((key, job) :: rest, m)

/-- Answers the lookup of every waiting job. -/
def round (env : Environment) : Pool κ ν → Memory → Pool κ ν × Memory
  | [], m => ([], m)
  | (key, job) :: rest, m =>
    let (job, m) := if waits job then advance env job m else (job, m)
    let (rest, m) := round env rest m
    ((key, job) :: rest, m)

/-- Answers rounds of lookups while a job waits, at most `most`; gives their number too. -/
def rounds (env : Environment) : Nat → Pool κ ν → Memory → Nat × Pool κ ν × Memory
  | 0, pool, m => (0, pool, m)
  | most + 1, pool, m =>
    if pool.any fun item => waits item.2 then
      let (pool, m) := round env pool m
      let (n, pool, m) := rounds env most pool m
      (n + 1, pool, m)
    else (0, pool, m)

def results [Key κ] [DecidableEq κ] (pool : Pool κ ν) : Table κ ν :=
  Table.ofList (pool.filterMap fun (key, job) =>
    match ended job with
    | some (.ok value) => some (key, value)
    | _ => none)

def failures [Key κ] [DecidableEq κ] (pool : Pool κ ν) : Table κ Fault :=
  Table.ofList (pool.filterMap fun (key, job) =>
    match ended job with
    | some (.error fault) => some (key, fault)
    | _ => none)

/-- One step of jobs that interleave: some job that has not ended runs to its next lookup or
    its end. -/
inductive Step (env : Environment) : Pool κ ν × Memory → Pool κ ν × Memory → Prop where
  | run (before after : Pool κ ν) (key : κ) (job : Job (Except Fault ν)) (m : Memory)
      (h : ended job = none) :
      Step env (before ++ (key, job) :: after, m)
        (before ++ (key, (advance env job m).1) :: after, (advance env job m).2)

end Pool

/-- A batch that has run: its outcome and the rounds of lookups that it took. -/
structure BatchRun (κ : Type) [Key κ] (ν : Type) where
  outcome : BatchOutcome κ ν
  rounds : Nat

/-- Runs jobs with distinct keys, of which none makes more than `most` lookups, until all have
    ended or the batch is told to stop. What ran until then stays. A batch told to stop before
    its start runs nothing, and one without jobs is complete. -/
def fanOut {κ ν : Type} [Key κ] [DecidableEq κ] (env : Environment) (jobs : Pool κ ν) (most : Nat)
    (cancel : Cancellation) (m : Memory) : BatchRun κ ν × Memory :=
  if jobs.isEmpty then (⟨⟨.empty, .empty, 0, false⟩, 0⟩, m)
  else if cancel = .before then (⟨⟨.empty, .empty, jobs.length, true⟩, 0⟩, m)
  else
    let (pool, m) := Pool.start env jobs m
    let (n, pool, m) := Pool.rounds env (cancel.rounds env.access most) pool m
    let results := pool.results
    let failures := pool.failures
    let cancelled := decide (cancel ≠ .never) && decide (results.size + failures.size < jobs.length)
    (⟨⟨results, failures, jobs.length, cancelled⟩, n⟩, m)

end LightCone
