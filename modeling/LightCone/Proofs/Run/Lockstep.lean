import LightCone.Proofs.Run.Requests

/-!
Two memories that no job tells apart.

Jobs see a memory only in the answers to their evaluations. If two memories give the same
answers, and still do after the same evaluation, the same record and the same event, then every
job does the same in both. This file

1. defines relations between memories that are kept in this way (`Lockstep`);
2. carries them through jobs, to their end or up to a limit, and through interleavings and
   batches, with the same history and the same outcome on both sides (`Lockstep.batch`).
-/
namespace LightCone

/-- Memories in a relation answer alike, and stay in it whatever a job does. -/
structure Lockstep (env : Environment) (R : Memory → Memory → Prop) : Prop where
  answer : ∀ {m n}, R m n → ∀ a b, (n.evaluate env a b).1 = (m.evaluate env a b).1
  evaluate : ∀ {m n}, R m n → ∀ a b, R (m.evaluate env a b).2 (n.evaluate env a b).2
  keep : ∀ {m n}, R m n → ∀ record, R (m.keepOffset env record) (n.keepOffset env record)
  count : ∀ {m n}, R m n → ∀ e, R (m.count e) (n.count e)

namespace Lockstep

variable {env : Environment} {R : Memory → Memory → Prop} {α κ ν : Type} {m n : Memory}

/-- The other memory may be the first one. -/
theorem flip (h : Lockstep env R) : Lockstep env fun n m => R m n where
  answer hR a b := (h.answer hR a b).symm
  evaluate := h.evaluate
  keep := h.keep
  count := h.count

theorem evaluation (h : Lockstep env R) (hR : R m n) (a b : Node) :
    n.evaluation env a b = m.evaluation env a b := by
  rw [Memory.evaluation, Memory.evaluation, h.answer hR]

theorem trace (h : Lockstep env R) (job : Job α) (limit : Option Nat) (hR : R m n) :
    (job.trace env limit n).1 = (job.trace env limit m).1 ∧
      R (job.trace env limit m).2 (job.trace env limit n).2 := by
  induction job generalizing limit m n with
  | done value => cases limit <;> exact ⟨rfl, hR⟩
  | lookup id next ih =>
    match limit with
    | none => exact ih _ none hR
    | some 0 => exact ⟨rfl, hR⟩
    | some (k + 1) => exact ih _ (some k) hR
  | delay a b next ih =>
    have hrest := ih (m.evaluate env a b).1 limit (h.evaluate hR a b)
    simp only [Job.trace, h.evaluation hR, h.answer hR]
    exact ⟨congrArg _ hrest.1, hrest.2⟩
  | keep record next ih =>
    have hrest := ih limit (h.keep hR record)
    simp only [Job.trace]
    exact ⟨congrArg _ hrest.1, hrest.2⟩

theorem run (h : Lockstep env R) (job : Job α) (hR : R m n) :
    (job.run env n).1 = (job.run env m).1 ∧ R (job.run env m).2 (job.run env n).2 := by
  induction job generalizing m n with
  | done value => exact ⟨rfl, hR⟩
  | lookup id next ih => exact ih _ hR
  | delay a b next ih =>
    simp only [Job.run, h.answer hR]
    exact ih _ (h.evaluate hR a b)
  | keep record next ih => exact ih (h.keep hR record)

theorem runFor (h : Lockstep env R) (job : Job α) (lookups : Nat) (hR : R m n) :
    (job.runFor env lookups n).1 = (job.runFor env lookups m).1 ∧
      R (job.runFor env lookups m).2 (job.runFor env lookups n).2 := by
  induction job generalizing lookups m n with
  | done value =>
    simp only [Job.runFor]
    exact ⟨trivial, hR⟩
  | lookup id next ih =>
    cases lookups with
    | zero => exact ⟨rfl, hR⟩
    | succ k => exact ih _ k hR
  | delay a b next ih =>
    simp only [Job.runFor, h.answer hR]
    exact ih _ lookups (h.evaluate hR a b)
  | keep record next ih =>
    simp only [Job.runFor]
    exact ih lookups (h.keep hR record)

theorem runWithin (h : Lockstep env R) (job : Job α) (deadline : Duration) (hR : R m n) :
    (job.runWithin env deadline n).1 = (job.runWithin env deadline m).1 ∧
      R (job.runWithin env deadline m).2 (job.runWithin env deadline n).2 := by
  unfold Job.runWithin
  split
  · obtain ⟨hvalue, hmemory⟩ := h.run job hR
    exact ⟨congrArg some hvalue, hmemory⟩
  · exact h.runFor job _ hR

theorem settle (h : Lockstep env R) (job : Job α) (hR : R m n) :
    (job.settle env n).1 = (job.settle env m).1 ∧ R (job.settle env m).2 (job.settle env n).2 := by
  induction job generalizing m n with
  | done value => exact ⟨rfl, hR⟩
  | lookup id next ih => exact ⟨rfl, hR⟩
  | delay a b next ih =>
    simp only [Job.settle, h.answer hR]
    exact ih _ (h.evaluate hR a b)
  | keep record next ih => exact ih (h.keep hR record)

theorem resume (h : Lockstep env R) (job : Job α) (hR : R m n) :
    (job.resume env n).1 = (job.resume env m).1 ∧ R (job.resume env m).2 (job.resume env n).2 := by
  cases job with
  | lookup id next => exact h.settle (next (env.answer id)) hR
  | done value => exact h.settle (.done value) hR
  | delay a b next => exact h.settle (.delay a b next) hR
  | keep record next => exact h.settle (.keep record next) hR

theorem resumed (h : Lockstep env R) (job : Job α) (hR : R m n) :
    job.resumed env n = job.resumed env m := by
  cases job with
  | lookup id next => exact (h.trace (next (env.answer id)) (some 0) hR).1
  | done value => exact (h.trace (.done value) (some 0) hR).1
  | delay a b next => exact (h.trace (.delay a b next) (some 0) hR).1
  | keep record next => exact (h.trace (.keep record next) (some 0) hR).1

theorem countEnded (h : Lockstep env R) (job : Job (Except Fault ν)) (hR : R m n) :
    R (Pool.countEnded job m) (Pool.countEnded job n) := by
  unfold Pool.countEnded
  split
  · exact h.count hR _
  · exact h.count hR _
  · exact hR

theorem advance (h : Lockstep env R) (job : Job (Except Fault ν)) (hR : R m n) :
    (Pool.advance env job n).1 = (Pool.advance env job m).1 ∧
      R (Pool.advance env job m).2 (Pool.advance env job n).2 := by
  obtain ⟨hjob, hmemory⟩ := h.resume job hR
  refine ⟨hjob, ?_⟩
  simp only [Pool.advance, hjob]
  exact h.countEnded _ hmemory

/-- The same interleaving is one of the other memory. -/
theorem interleaving (h : Lockstep env R) {x y : Pool κ ν × Memory} {history : List Happening}
    (hrun : Pool.Interleaving env x history y) (hR : R x.2 n) :
    ∃ n', Pool.Interleaving env (x.1, n) history (y.1, n') ∧ R y.2 n' := by
  induction hrun generalizing n with
  | rest x => exact ⟨n, .rest _, hR⟩
  | @step before after key job m history y hjob _ ih =>
    obtain ⟨hadvanced, hmemory⟩ := h.advance job hR
    obtain ⟨n', hlater, hR'⟩ := ih hmemory
    refine ⟨n', ?_, hR'⟩
    rw [← h.resumed job hR]
    rw [← hadvanced] at hlater
    exact .step hjob hlater

/-- The same batch is one of the other memory. -/
theorem batch [Key κ] [DecidableEq κ] (h : Lockstep env R) {jobs : Pool κ ν}
    {cancel : Cancellation} {m' : Memory} {history : List Happening} {o : BatchOutcome κ ν}
    (hbatch : Pool.Batch env jobs cancel m history o m') (hR : R m n) :
    ∃ n', Pool.Batch env jobs cancel n history o n' ∧ R m' n' := by
  cases hbatch with
  | idle hjobs => exact ⟨n, .idle hjobs, hR⟩
  | refused hjobs hcancel => exact ⟨n, .refused hjobs hcancel, hR⟩
  | ran hjobs hcancel hrun hended =>
    obtain ⟨n', hrun', hR'⟩ := h.interleaving hrun hR
    exact ⟨n', .ran hjobs hcancel hrun' hended, hR'⟩

end Lockstep
end LightCone
