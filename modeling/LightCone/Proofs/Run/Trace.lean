import LightCone.Service.Batch

/-!
Traces of jobs: what a job does to the stores of a service, in order.

A store holds what was put into it, so what a read finds is a matter of what happened
before. This file

1. lists what can happen to the stores (`Happening`);
2. traces a job that may make a limited number of lookups, or any number (`Job.trace`);
3. shows that every way of running a job leaves the memory that its trace leaves: to the
   end (`run_snd`), for some lookups (`runFor_snd`), to the next lookup (`settle_snd`);
4. tells the three ways of evaluating a delay apart (`Memory.evaluate_cases`), and what jobs
   leave as it was.
-/
namespace LightCone

/-- Something that puts an entry into a store, reads a delay, or empties the stores. -/
inductive Happening where
  /-- A delay was evaluated between two nodes at a time, with an answer. -/
  | evaluated (source target : Node) (time : Instant) (answer : Except Fault DelayResult)
  /-- A timing was derived for a list of ids. -/
  | timed (ids : List String) (timing : ConsensusTiming)
  | kept (record : NodeOffset)
  /-- Every delay, timing and offset was forgotten. -/
  | cleared

/-- The evaluation of a delay, as it happens. -/
def Memory.evaluation (m : Memory) (env : Environment) (source target : Node) : Happening :=
  .evaluated source target env.now (m.evaluate env source target).1

namespace Job

variable {α : Type}

/-- What happens while a job runs, and the memory after it. The job runs to its end, or, with a
    limit, to the first lookup past the limit. -/
def trace (env : Environment) : Option Nat → Job α → Memory → List Happening × Memory
  | _, done _, m => ([], m)
  | none, lookup id next, m => (next (env.answer id)).trace env none m
  | some 0, lookup .., m => ([], m)
  | some (lookups + 1), lookup id next, m => (next (env.answer id)).trace env (some lookups) m
  | limit, delay a b next, m =>
    let (answer, after) := m.evaluate env a b
    let (rest, final) := (next answer).trace env limit after
    (m.evaluation env a b :: rest, final)
  | limit, keep record next, m =>
    let (rest, final) := next.trace env limit (m.keepOffset env record)
    (.kept record :: rest, final)

/-- What happens when a waiting job gets its answer and runs to its next lookup or its end. -/
def resumed (env : Environment) : Job α → Memory → List Happening
  | lookup id next, m => ((next (env.answer id)).trace env (some 0) m).1
  | job, m => (job.trace env (some 0) m).1

/-- Whether a job makes at most this many lookups, whatever it is answered. -/
def LooksUpAtMost : Nat → Job α → Prop
  | _, done _ => True
  | 0, lookup .. => False
  | lookups + 1, lookup _ next => ∀ answer, (next answer).LooksUpAtMost lookups
  | lookups, delay _ _ next => ∀ answer, (next answer).LooksUpAtMost lookups
  | lookups, keep _ next => next.LooksUpAtMost lookups

section Trace

variable {env : Environment}

theorem run_snd (job : Job α) (m : Memory) : (job.run env m).2 = (job.trace env none m).2 := by
  induction job generalizing m with
  | done value => rfl
  | lookup id next ih => exact ih _ m
  | delay a b next ih => exact ih _ _
  | keep record next ih => exact ih _

theorem runFor_snd (job : Job α) (lookups : Nat) (m : Memory) :
    (job.runFor env lookups m).2 = (job.trace env (some lookups) m).2 := by
  induction job generalizing lookups m with
  | done value => simp [runFor, trace]
  | lookup id next ih =>
    cases lookups with
    | zero => rfl
    | succ n => exact ih _ n m
  | delay a b next ih =>
    simp only [runFor, trace]
    exact ih _ lookups _
  | keep record next ih =>
    simp only [runFor, trace]
    exact ih lookups _

theorem settle_snd (job : Job α) (m : Memory) :
    (job.settle env m).2 = (job.trace env (some 0) m).2 := by
  induction job generalizing m with
  | done value => rfl
  | lookup id next ih => rfl
  | delay a b next ih => exact ih _ _
  | keep record next ih => exact ih _

/-- A job that goes on settles what is left of it, with the answer it waited for. -/
theorem exists_settle (env : Environment) (job : Job α) (m : Memory) : ∃ rest : Job α,
    job.resume env m = rest.settle env m ∧ job.resumed env m = (rest.trace env (some 0) m).1 := by
  cases job with
  | lookup id next => exact ⟨next (env.answer id), rfl, rfl⟩
  | done value => exact ⟨.done value, rfl, rfl⟩
  | delay a b next => exact ⟨.delay a b next, rfl, rfl⟩
  | keep record next => exact ⟨.keep record next, rfl, rfl⟩

end Trace
end Job

/-! ## The three ways of evaluating a delay -/

namespace Memory

/-- A delay is served from the store while it is fresh; else it is computed and stored, or cannot
    be computed, and then the store stays as it was. -/
theorem evaluate_cases (m : Memory) (env : Environment) (a b : Node) :
    (∃ stored, m.delays.get? (.of a.id b.id) env.now = some stored ∧
      (m.evaluate env a b).1 = .ok (answerStored a b stored true) ∧
      (m.evaluate env a b).2.delays = m.delays) ∨
    (m.delays.get? (.of a.id b.id) env.now = none ∧ ∃ fault, compute env a b = .error fault ∧
      (m.evaluate env a b).1 = .error fault ∧ (m.evaluate env a b).2.delays = m.delays) ∨
    (m.delays.get? (.of a.id b.id) env.now = none ∧ ∃ computed, compute env a b = .ok computed ∧
      (m.evaluate env a b).1 = .ok (answerStored a b computed false) ∧
      (m.evaluate env a b).2.delays = m.delays.insert (.of a.id b.id) computed env.now) := by
  cases hget : m.delays.get? (.of a.id b.id) env.now with
  | some stored =>
    left
    exact ⟨stored, rfl, by simp only [evaluate, hget], by simp only [evaluate, hget, count]⟩
  | none =>
    right
    cases hcompute : compute env a b with
    | error fault =>
      left
      refine ⟨rfl, fault, rfl, ?_, ?_⟩
      · simp only [evaluate, hget, hcompute]
      · simp only [evaluate, hget, hcompute, count]
    | ok computed =>
      right
      refine ⟨rfl, computed, rfl, ?_, ?_⟩
      · simp only [evaluate, hget, hcompute]
      · simp only [evaluate, hget, hcompute, count]

/-- What is computed for two nodes: the delay over their distance, at this time. -/
theorem compute_ok {env : Environment} {a b : Node} {computed : StoredDelay}
    (h : compute env a b = .ok computed) :
    computed.delay = networkDelay computed.distance env.settings.propagation.networkFactor ∧
      computed.distance = a.position.distance b.position ∧ computed.computedAt = env.now := by
  simp only [compute] at h
  split at h
  · cases h
    exact ⟨rfl, rfl, rfl⟩
  · cases h

theorem finite_of_compute {env : Environment} {a b : Node} {computed : StoredDelay}
    (h : compute env a b = .ok computed) : (a.position.distance b.position).isFinite = true := by
  simp only [compute] at h
  split at h
  · next hfinite => exact hfinite
  · cases h

/-- With nothing fresh stored, two nodes at a finite distance get a computed delay. -/
theorem evaluate_of_missing {m : Memory} {env : Environment} {a b : Node}
    (hget : m.delays.get? (.of a.id b.id) env.now = none)
    (hfinite : (a.position.distance b.position).isFinite = true) :
    (m.evaluate env a b).1 = .ok (answerStored a b
      ⟨networkDelay (a.position.distance b.position) env.settings.propagation.networkFactor,
        a.position.distance b.position, env.now⟩ false) := by
  simp only [evaluate, hget, compute, hfinite, if_true]

/-- Evaluating a delay changes the delays and the counts only. -/
theorem evaluate_frame (m : Memory) (env : Environment) (a b : Node) :
    (m.evaluate env a b).2.timings = m.timings ∧ (m.evaluate env a b).2.offsets = m.offsets ∧
      (m.evaluate env a b).2.statuses = m.statuses := by
  simp only [evaluate]
  split
  · exact ⟨rfl, rfl, rfl⟩
  · split <;> exact ⟨rfl, rfl, rfl⟩

end Memory

/-- No job changes the timings. -/
theorem Job.run_timings {α : Type} {env : Environment} (job : Job α) (m : Memory) :
    (job.run env m).2.timings = m.timings := by
  induction job generalizing m with
  | done value => rfl
  | lookup id next ih => exact ih _ m
  | delay a b next ih => exact (ih _ _).trans (m.evaluate_frame env a b).1
  | keep record next ih => exact ih _

end LightCone
