import LightCone.Proofs.StatusChanges

/-!
Two services side by side.

Two services with one environment serve the same requests. If no job tells their memories apart,
they stay together through cycles and batches, of which the second service can have just those
that the first one has. This file

1. says which relations of memories are kept so (`Tandem`), and when two services are in one of
   them (`Service.Related`);
2. runs a job in both services (`Tandem.perform`);
3. serves a request with a batch in both, with one history and one outcome (`Tandem.serves_batch`).
-/
namespace LightCone

/-- A relation of memories at a time that jobs and maintenance keep, and that leaves the statuses
    aside. -/
structure Tandem (R : Instant → Memory → Memory → Prop) : Prop where
  lockstep : ∀ env, Lockstep env (R env.now)
  statuses : ∀ {now m n}, R now m n → ∀ X Y,
    R now { m with statuses := X } { n with statuses := Y }
  maintain : ∀ {env m n}, R env.now m n →
    R env.now (Service.maintain ⟨env, m⟩).2.memory (Service.maintain ⟨env, n⟩).2.memory

namespace Service

/-- Services with one environment and related memories. -/
structure Related (R : Instant → Memory → Memory → Prop) (s t : Service) : Prop where
  env_eq : t.env = s.env
  memory : R s.now s.memory t.memory

/-- The same value in two services, which stay related and keep their statuses. -/
structure SameResult {α : Type} (R : Instant → Memory → Memory → Prop) (s t : Service)
    (x y : α × Service) : Prop where
  value_eq : y.1 = x.1
  related : Related R x.2 y.2
  first_statuses : x.2.memory.statuses = s.memory.statuses
  second_statuses : y.2.memory.statuses = t.memory.statuses

section

variable {R : Instant → Memory → Memory → Prop} {s t : Service} {α β : Type} {x y : α × Service}

theorem Related.flip (h : Related R s t) : Related (fun now n m => R now m n) t s where
  env_eq := h.env_eq.symm
  memory := by
    have hnow : t.now = s.now := congrArg Environment.now h.env_eq
    rw [hnow]
    exact h.memory

theorem SameResult.changedAlike (h : SameResult R s t x y) : ChangedAlike s x.2 t y.2 :=
  .of_statuses h.first_statuses h.second_statuses

theorem SameResult.exists_eq (h : SameResult R s t x y) :
    ∃ value s' t', x = (value, s') ∧ y = (value, t') ∧ SameResult R s t (value, s') (value, t') := by
  obtain ⟨value, s'⟩ := x
  obtain ⟨value', t'⟩ := y
  have hvalue := h.value_eq
  cases hvalue
  exact ⟨_, s', t', rfl, rfl, h⟩

theorem SameResult.map (h : SameResult R s t x y) (f : α → β) :
    SameResult R s t (f x.1, x.2) (f y.1, y.2) where
  value_eq := congrArg f h.value_eq
  related := h.related
  first_statuses := h.first_statuses
  second_statuses := h.second_statuses

/-- The same answer in place of the value. -/
theorem SameResult.instead (h : SameResult R s t x y) (answer : β) :
    SameResult R s t (answer, x.2) (answer, y.2) := h.map fun _ => answer

theorem SameResult.after (h : SameResult R s t x y) {x' y' : β × Service}
    (h' : SameResult R x.2 y.2 x' y') : SameResult R s t x' y' where
  value_eq := h'.value_eq
  related := h'.related
  first_statuses := h'.first_statuses.trans h.first_statuses
  second_statuses := h'.second_statuses.trans h.second_statuses

end
end Service

namespace Tandem

open Service

variable {R : Instant → Memory → Memory → Prop} {s s' t : Service} {α : Type}

theorem flip (h : Tandem R) : Tandem fun now n m => R now m n where
  lockstep env := (h.lockstep env).flip
  statuses hR X Y := h.statuses hR Y X
  maintain := h.maintain

/-! ## Jobs -/

theorem count (h : Tandem R) (hR : Related R s t) (e : Event) : Related R (s.count e) (t.count e) :=
  ⟨hR.env_eq, (h.lockstep s.env).count hR.memory e⟩

theorem perform (h : Tandem R) (hR : Related R s t) (job : Job α) :
    SameResult R s t (s.perform job) (t.perform job) := by
  obtain ⟨env, n⟩ := t
  obtain ⟨rfl, hmemory⟩ := hR
  obtain ⟨hvalue, hrest⟩ := (h.lockstep s.env).run job hmemory
  exact ⟨hvalue, ⟨rfl, hrest⟩, statuses_run job _, statuses_run job _⟩

theorem performWithin (h : Tandem R) (hR : Related R s t) (deadline : Duration) (job : Job α) :
    SameResult R s t (s.performWithin deadline job) (t.performWithin deadline job) := by
  obtain ⟨env, n⟩ := t
  obtain ⟨rfl, hmemory⟩ := hR
  obtain ⟨hvalue, hrest⟩ := (h.lockstep s.env).runWithin job deadline hmemory
  exact ⟨hvalue, ⟨rfl, hrest⟩, statuses_runWithin job deadline _, statuses_runWithin job deadline _⟩

theorem jobHistory (h : Tandem R) (hR : Related R s t) (limit : Option Nat) (job : Job α) :
    t.jobHistory limit job = s.jobHistory limit job := by
  obtain ⟨env, n⟩ := t
  obtain ⟨rfl, hmemory⟩ := hR
  exact ((h.lockstep s.env).trace job limit hmemory).1

/-! ## Cycles and batches -/

theorem foldl {β : Type} {now : Instant} {step : Memory → β → Memory}
    (hstep : ∀ {m n}, R now m n → ∀ x, R now (step m x) (step n x)) (l : List β) {m n : Memory}
    (hR : R now m n) : R now (l.foldl step m) (l.foldl step n) := by
  induction l generalizing m n with
  | nil => exact hR
  | cons x l ih => exact ih (hstep hR x)

theorem recordOutcome (h : Tandem R) {env : Environment} {m n : Memory} (hR : R env.now m n)
    (o : BatchOutcome String NodeOffset) (now : Instant) (historyLength : Nat) :
    R env.now (m.recordOutcome o now historyLength) (n.recordOutcome o now historyLength) := by
  have hsuccess {m n : Memory} (hR : R env.now m n) (e : String × NodeOffset) :
      R env.now (m.recordSuccess e.1 e.2.offset now historyLength)
        (n.recordSuccess e.1 e.2.offset now historyLength) :=
    h.statuses ((h.lockstep env).count hR _) _ _
  have hfailure {m n : Memory} (hR : R env.now m n) (e : String × Fault) :
      R env.now (m.recordFailure e.1 e.2 now) (n.recordFailure e.1 e.2 now) :=
    h.statuses ((h.lockstep env).count hR _) _ _
  exact foldl hfailure _ (foldl hsuccess _ hR)

/-- A cycle of the first service is one of the second, with the same jobs going on in the same
    order. -/
theorem cycle (h : Tandem R) (hR : Related R s t) {cancel : Cancellation}
    {history : List Happening} {report : SyncReport} (hcycle : s.Cycle cancel history report s') :
    ∃ t', t.Cycle cancel history report t' ∧ Related R s' t' ∧ ChangedAlike s s' t t' := by
  obtain ⟨env, n⟩ := t
  obtain ⟨rfl, hmemory⟩ := hR
  cases hcycle with
  | mk batch =>
    -- Pending statuses are added before the jobs start, which do not see them.
    obtain ⟨n', batch', hafter⟩ := (h.lockstep s.env).batch batch (h.statuses hmemory _ _)
    refine ⟨_, .mk batch', ⟨rfl, h.recordOutcome hafter _ _ _⟩, ?_⟩
    intro id
    exact ⟨_, changes_recorded (statuses_batch batch) id,
      changes_recorded (statuses_batch batch') id⟩

theorem maintain_related (h : Tandem R) (hR : Related R s t) :
    Related R s.maintain.2 t.maintain.2 ∧ ChangedAlike s s.maintain.2 t t.maintain.2 := by
  obtain ⟨env, n⟩ := t
  obtain ⟨rfl, hmemory⟩ := hR
  exact ⟨⟨rfl, h.maintain hmemory⟩, fun id => ⟨_, changes_maintain _ id, changes_maintain _ id⟩⟩

theorem cycles (h : Tandem R) (hR : Related R s t) {history : List Happening}
    (hcycles : s.Cycles history s') :
    ∃ t', t.Cycles history t' ∧ Related R s' t' ∧ ChangedAlike s s' t t' := by
  induction hcycles generalizing t with
  | rest s => exact ⟨t, .rest t, hR, .of_statuses rfl rfl⟩
  | cycle hcycle _ ih =>
    obtain ⟨t₁, hcycle', hR₁, hfirst⟩ := h.cycle hR hcycle
    obtain ⟨hR₂, hcleanup⟩ := h.maintain_related hR₁
    obtain ⟨t', hlater, hR', hrest⟩ := ih hR₂
    have hcleaned := hfirst.trans hcycle.env_eq hcycle'.env_eq hcleanup
    exact ⟨t', .cycle hcycle' hlater, hR', hcleaned.trans hcycle.env_eq hcycle'.env_eq hrest⟩

/-- Whatever a request with a batch comes to in the first service, it can come to in the second:
    the same answer, but for the statuses that the background loop leaves. -/
theorem serves_batch (h : Tandem R) (hR : Related R s t) {r : Request} (hr : r.isBatch = true)
    {history : List Happening} {answer : Answer} (hserves : s.Serves r history answer s') :
    ∃ answer' t', t.Serves r history answer' t' ∧ Related R s' t' ∧ ChangedAlike s s' t t' ∧
      (answer' = answer ∨ ∃ ms, r = .runLoop ms ∧ answer = .statuses s'.syncStatuses ∧
        answer' = .statuses t'.syncStatuses) := by
  have henv := hR.env_eq
  have hnow : t.now = s.now := congrArg Environment.now henv
  -- A batch of both services, and what it leaves of their memories.
  have hboth {κ ν : Type} [Key κ] [DecidableEq κ] {jobs : Pool κ ν} {cancel : Cancellation}
      {o : BatchOutcome κ ν} {m : Memory}
      (batch : Pool.Batch s.env jobs cancel s.memory history o m) :
      ∃ n, Pool.Batch t.env jobs cancel t.memory history o n ∧
        Related R (s.remember m) (t.remember n) ∧
        ChangedAlike s (s.remember m) t (t.remember n) := by
    obtain ⟨n, batch', hafter⟩ := (h.lockstep s.env).batch batch hR.memory
    rw [henv]
    exact ⟨n, batch', ⟨henv, hafter⟩, .of_statuses (statuses_batch batch) (statuses_batch batch')⟩
  cases hserves with
  | alone halone => exact absurd (halone.symm.trans hr) Bool.noConfusion
  | batchDelays batch =>
    obtain ⟨n, batch', hrest⟩ := hboth batch
    exact ⟨_, _, .batchDelays batch', hrest.1, hrest.2, .inl rfl⟩
  | delayMatrix batch =>
    obtain ⟨n, batch', hrest⟩ := hboth batch
    rw [← henv] at batch'
    exact ⟨_, _, .delayMatrix batch', hrest.1, hrest.2, .inl rfl⟩
  | maxDelay batch =>
    obtain ⟨n, batch', hrest⟩ := hboth batch
    rw [← henv] at batch'
    exact ⟨_, _, .maxDelay batch', hrest.1, hrest.2, .inl rfl⟩
  | batchOffsets batch =>
    obtain ⟨n, batch', hrest⟩ := hboth batch
    rw [← hnow] at batch'
    exact ⟨_, _, .batchOffsets batch', hrest.1, hrest.2, .inl rfl⟩
  | sync hcycle =>
    obtain ⟨t', hcycle', hrest⟩ := h.cycle hR hcycle
    exact ⟨_, t', .sync hcycle', hrest.1, hrest.2, .inl rfl⟩
  | runLoop hcycles =>
    obtain ⟨t', hcycles', hrest⟩ := h.cycles hR hcycles
    exact ⟨_, t', .runLoop hcycles', hrest.1, hrest.2, .inr ⟨_, rfl, rfl, rfl⟩⟩

end Tandem
end LightCone
