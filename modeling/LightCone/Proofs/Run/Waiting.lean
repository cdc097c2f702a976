import LightCone.Proofs.Run.Trace
import LightCone.Service.Delays

/-!
Lookups that are waited for, and deadlines.

An environment answers every lookup of an id alike and after the same time. Other directories need not:
each lookup of a call may have an outcome and a delay of its own. This file

1. runs a job with its lookups answered through such a `Port`, to its end (`Job.runVia`) or until a deadline
   cuts it off (`Job.runBy`), and shows that the service runs its jobs through the port of its environment
   (`run_eq_runVia`, `runWithin_eq_runBy`);
2. shows that a deadline leaves no trace of a job that looks up first and acts then (`runBy_eq`): either it
   waits too long and nothing has changed, or the deadline goes unnoticed;
3. runs the jobs of a service through a port, to their end (`Service.performVia`) or until a deadline
   (`Service.performBy`).
-/
namespace LightCone

/-- How the lookups of one call are answered. What they find and how long they take may depend on the id,
    and on the number of lookups before. -/
structure Port where
  answer (asked : Nat) (id : String) : Except Fault Node
  /-- Nanoseconds until the answer. -/
  wait (asked : Nat) (id : String) : Nat

/-- The port through which an environment answers. -/
def Environment.port (env : Environment) : Port where
  answer _ id := env.answer id
  wait _ _ := env.access.latency * 1000000

namespace Job

variable {α : Type}

/-- Runs a job to its end, after `asked` other lookups. -/
def runVia (env : Environment) (port : Port) : Nat → Job α → Memory → α × Memory
  | _, done value, m => (value, m)
  | asked, lookup id next, m => (next (port.answer asked id)).runVia env port (asked + 1) m
  | asked, delay a b next, m =>
    let (answer, m) := m.evaluate env a b
    (next answer).runVia env port asked m
  | asked, keep record next, m => next.runVia env port asked (m.keepOffset env record)

/-- Runs a job that may wait for `left` more nanoseconds. It is dropped at the first lookup that takes
    longer, and what it has done until then stays. -/
def runBy (env : Environment) (port : Port) : Nat → Nat → Job α → Memory → Option α × Memory
  | _, _, done value, m => (some value, m)
  | asked, left, lookup id next, m =>
    if port.wait asked id ≤ left then
      (next (port.answer asked id)).runBy env port (asked + 1) (left - port.wait asked id) m
    else (none, m)
  | asked, left, delay a b next, m =>
    let (answer, m) := m.evaluate env a b
    (next answer).runBy env port asked left m
  | asked, left, keep record next, m => next.runBy env port asked left (m.keepOffset env record)

/-! ## The port of an environment -/

section Environments

variable {env : Environment}

theorem run_eq_runVia (asked : Nat) (job : Job α) (m : Memory) :
    job.run env m = job.runVia env env.port asked m := by
  induction job generalizing asked m with
  | done value => rfl
  | lookup id next ih => exact ih _ (asked + 1) m
  | delay a b next ih => exact ih _ asked _
  | keep record next ih => exact ih asked _

/-- Without latency a deadline never comes. -/
theorem runBy_of_no_latency (h : env.access.latency = 0) (asked left : Nat) (job : Job α) (m : Memory) :
    job.runBy env env.port asked left m = (some (job.run env m).1, (job.run env m).2) := by
  have hnone (asked : Nat) (id : String) : env.port.wait asked id = 0 := by
    simp only [Environment.port, h, Nat.zero_mul]
  induction job generalizing asked left m with
  | done value => rfl
  | lookup id next ih =>
    simp only [runBy, hnone, Nat.zero_le, if_true]
    exact ih _ _ _ m
  | delay a b next ih => exact ih _ asked left _
  | keep record next ih => exact ih asked left _

/-- With latency, as many lookups are answered as fit into the time. -/
theorem runBy_of_latency (h : 0 < env.access.latency * 1000000) (asked left : Nat) (job : Job α)
    (m : Memory) :
    job.runBy env env.port asked left m = job.runFor env (left / (env.access.latency * 1000000)) m := by
  induction job generalizing asked left m with
  | done value => simp only [runBy, runFor]
  | lookup id next ih =>
    have hwait : env.port.wait asked id = env.access.latency * 1000000 := rfl
    have hanswer : env.port.answer asked id = env.answer id := rfl
    rw [runBy, hwait, hanswer]
    by_cases hfits : env.access.latency * 1000000 ≤ left
    · have hmore : left / (env.access.latency * 1000000) =
          (left - env.access.latency * 1000000) / (env.access.latency * 1000000) + 1 :=
        Nat.div_eq_sub_div h hfits
      rw [if_pos hfits, ih, hmore, runFor]
    · rw [if_neg hfits, Nat.div_eq_of_lt (Nat.not_le.mp hfits), runFor]
  | delay a b next ih =>
    simp only [runBy, runFor]
    exact ih _ asked left _
  | keep record next ih =>
    simp only [runBy, runFor]
    exact ih asked left _

theorem runWithin_eq_runBy (deadline : Duration) (job : Job α) (m : Memory) :
    job.runWithin env deadline m = job.runBy env env.port 0 deadline.nanos m := by
  unfold runWithin
  split
  · next h => rw [runBy_of_no_latency h]
  · next h =>
    have hpos : 0 < env.access.latency * 1000000 := by omega
    rw [runBy_of_latency hpos]

end Environments

/-! ## Jobs that look up first -/

/-- Whether all lookups of a job come before anything else that it does. -/
def LooksUpFirst : Job α → Prop
  | done _ => True
  | lookup _ next => ∀ answer, (next answer).LooksUpFirst
  | delay _ _ next => ∀ answer, (next answer).LooksUpAtMost 0
  | keep _ next => next.LooksUpAtMost 0

/-- How long the lookups take with which a job begins. -/
def waiting (port : Port) : Nat → Job α → Nat
  | asked, lookup id next =>
    port.wait asked id + (next (port.answer asked id)).waiting port (asked + 1)
  | _, _ => 0

section Deadlines

variable {env : Environment} {port : Port}

/-- Without lookups there is nothing to wait for. -/
theorem runBy_of_no_lookup {job : Job α} (h : job.LooksUpAtMost 0) (asked left : Nat) (m : Memory) :
    job.runBy env port asked left m =
      (some (job.runVia env port asked m).1, (job.runVia env port asked m).2) := by
  induction job generalizing m with
  | done value => rfl
  | lookup id next ih => exact h.elim
  | delay a b next ih => exact ih _ (h _) _
  | keep record next ih => exact ih h _

/-- A job that looks up first is dropped before it has done anything, if it waits too long, and runs as
    without a deadline otherwise. -/
theorem runBy_eq {job : Job α} (h : job.LooksUpFirst) (asked left : Nat) (m : Memory) :
    job.runBy env port asked left m =
      if job.waiting port asked ≤ left then
        (some (job.runVia env port asked m).1, (job.runVia env port asked m).2)
      else (none, m) := by
  induction job generalizing asked left with
  | done value => rfl
  | lookup id next ih =>
    have hwaits : (lookup id next).waiting port asked =
        port.wait asked id + (next (port.answer asked id)).waiting port (asked + 1) := rfl
    rw [runBy, runVia, hwaits]
    by_cases hfits : port.wait asked id ≤ left
    · have hrest : port.wait asked id + (next (port.answer asked id)).waiting port (asked + 1) ≤ left ↔
          (next (port.answer asked id)).waiting port (asked + 1) ≤ left - port.wait asked id := by omega
      rw [if_pos hfits, ih _ (h _)]
      simp only [hrest]
    · have hpast : ¬ port.wait asked id + (next (port.answer asked id)).waiting port (asked + 1) ≤ left := by
        omega
      rw [if_neg hfits, if_neg hpast]
  | delay a b next ih =>
    have hnone : (delay a b next).LooksUpAtMost 0 := h
    exact runBy_of_no_lookup hnone asked left m
  | keep record next ih =>
    have hnone : (keep record next).LooksUpAtMost 0 := h
    exact runBy_of_no_lookup hnone asked left m

end Deadlines
end Job

/-! ## A service behind a port -/

namespace Service

variable {α : Type}

def performVia (s : Service) (port : Port) (job : Job α) : α × Service :=
  let (value, memory) := job.runVia s.env port 0 s.memory
  (value, { s with memory := memory })

def performBy (s : Service) (port : Port) (deadline : Duration) (job : Job α) : Option α × Service :=
  let (value, memory) := job.runBy s.env port 0 deadline.nanos s.memory
  (value, { s with memory := memory })

theorem perform_eq_performVia (s : Service) (job : Job α) :
    s.perform job = s.performVia s.env.port job := by
  simp only [perform, performVia, Job.run_eq_runVia 0]

theorem performWithin_eq_performBy (s : Service) (deadline : Duration) (job : Job α) :
    s.performWithin deadline job = s.performBy s.env.port deadline job := by
  simp only [performWithin, performBy, Job.runWithin_eq_runBy]

theorem performBy_eq {job : Job α} (h : job.LooksUpFirst) (s : Service) (port : Port)
    (deadline : Duration) :
    s.performBy port deadline job =
      if job.waiting port 0 ≤ deadline.nanos then
        (some (s.performVia port job).1, (s.performVia port job).2)
      else (none, s) := by
  simp only [performBy, performVia, Job.runBy_eq h]
  split <;> rfl

end Service
end LightCone
