import LightCone.Proofs.Run.Requests

/-!
Runs of a service with a ledger of what they report.

Batches and synchronization cycles report outcomes, and cleanups remove statuses. Some requests
answer with less than that, and the background loop with nothing of it. A ledger lists all of
it in order. This file

1. lists the entries (`Entry`), and exposes the outcome behind the report of a cycle
   (`Service.Synced`);
2. says what serving a request may come to, with its entries (`Service.Books`), and a run of
   requests with its ledger (`Service.Ledger`);
3. shows that every run has a ledger and every ledger is that of a run
   (`Service.exists_ledger_iff`).
-/
namespace LightCone

/-- What bears on the counts and the statuses of a service. -/
inductive Entry where
  /-- A batch of delays stopped with an outcome. -/
  | delays (o : BatchOutcome NodePair Duration)
  | offsets (o : BatchOutcome String NodeOffset)
  /-- A cycle synchronized the known nodes at a time, and its batch stopped with an outcome. -/
  | cycle (known : List String) (now : Instant) (o : BatchOutcome String NodeOffset)
  /-- The statuses of some nodes were removed. -/
  | cleanup (removed : List String)

/-- The report of a cycle at a time, from the outcome of its batch. -/
def SyncReport.of (o : BatchOutcome String NodeOffset) (now : Instant) : SyncReport :=
  ⟨o.total, o.results.size, o.failures.size, o.cancelled, now⟩

namespace Service

/-- The ids of the directory. -/
def known (s : Service) : List String := Directory.ids s.env.directory.all

/-- The nodes whose statuses are past their retention. -/
def outdated (s : Service) : List String :=
  (s.memory.statuses.filter fun _ status =>
    !status.retained s.settings.sync.statusRetention s.now).keys

/-! ## Entries of requests -/

/-- What a cycle may come to, by the outcome of its batch. -/
inductive Synced (s : Service) (cancel : Cancellation) :
    List Happening → BatchOutcome String NodeOffset → Service → Prop where
  | mk {history : List Happening} {o : BatchOutcome String NodeOffset} {m : Memory}
      (batch : Pool.Batch s.env (offsetJobs s.known (Directory.ids s.env.directory.active) s.now)
        cancel (s.memory.addPending s.known s.now) history o m) :
      Synced s cancel history o
        (s.remember (m.recordOutcome o s.now s.settings.sync.historyLength))

/-- Cycles one after another, each followed by maintenance, with their entries. -/
inductive CycleBooks : Service → List Happening → List Entry → Service → Prop where
  | rest (s : Service) : CycleBooks s [] [] s
  | cycle {s s' s'' : Service} {cancel : Cancellation} {first later : List Happening}
      {o : BatchOutcome String NodeOffset} {entries : List Entry} (hsynced : s.Synced cancel first o s')
      (hlater : CycleBooks s'.maintain.2 later entries s'') :
      CycleBooks s (first ++ later) (.cycle s.known s.now o :: .cleanup s'.outdated :: entries) s''

/-- The entries of a request that runs no batch. -/
def entries (s : Service) : Request → List Entry
  | .maintain | .cleanupStatuses => [.cleanup s.outdated]
  | _ => []

/-- What serving a request may come to, with its entries. -/
inductive Books (s : Service) :
    Request → List Happening → List Entry → Answer → Service → Prop where
  | alone {r : Request} (h : r.isBatch = false) :
      Books s r (s.history r) (s.entries r) (s.serve r).1 (s.serve r).2
  | batchDelays {nodes : List Node} {cancel : Cancellation} {history : List Happening}
      {o : BatchOutcome NodePair Duration} {m : Memory}
      (batch : Pool.Batch s.env (pairJobs nodes) cancel s.memory history o m) :
      Books s (.batchDelays nodes cancel) history [.delays o] (.delays o) (s.remember m)
  | delayMatrix {history : List Happening} {o : BatchOutcome NodePair Duration} {m : Memory}
      (batch : Pool.Batch s.env (pairJobs s.env.directory.active) .never s.memory history o m) :
      Books s .delayMatrix history [.delays o] (.delays o) (s.remember m)
  | maxDelay {history : List Happening} {o : BatchOutcome NodePair Duration} {m : Memory}
      (batch : Pool.Batch s.env (pairJobs s.env.directory.active) .never s.memory history o m) :
      Books s .maxDelay history [.delays o] (.worst (worstPair o.results.entries)) (s.remember m)
  | batchOffsets {ids references : List String} {cancel : Cancellation}
      {history : List Happening} {o : BatchOutcome String NodeOffset} {m : Memory}
      (batch : Pool.Batch s.env (offsetJobs ids references s.now) cancel s.memory history o m) :
      Books s (.batchOffsets ids references cancel) history [.offsets o] (.offsets o) (s.remember m)
  | sync {cancel : Cancellation} {history : List Happening} {o : BatchOutcome String NodeOffset}
      {s' : Service} (hsynced : s.Synced cancel history o s') :
      Books s (.sync cancel) history [.cycle s.known s.now o] (.synced (.of o s.now)) s'
  | runLoop {ms : Nat} {history : List Happening} {entries : List Entry} {s' : Service}
      (hcycles : s.CycleBooks history entries s') :
      Books s (.runLoop ms) history entries (.statuses s'.syncStatuses) s'

/-- Requests served one after another, with all entries. -/
inductive Ledger (clock : Instant → Instant → Prop) (start : Service) :
    List Request → List Happening → List Entry → List Answer → Service → Prop where
  | nil : Ledger clock start [] [] [] [] start
  | snoc {requests : List Request} {history later : List Happening} {entries new : List Entry}
      {answers : List Answer} {answer : Answer} {s s' : Service} {r : Request}
      (earlier : Ledger clock start requests history entries answers s)
      (books : s.Books r later new answer s') (hclock : clock s.now s'.now) :
      Ledger clock start (requests ++ [r]) (history ++ later) (entries ++ new) (answers ++ [answer]) s'

/-! ## Runs and ledgers -/

variable {clock : Instant → Instant → Prop} {start s s' : Service} {cancel : Cancellation}
  {history : List Happening}

theorem cycle_iff {report : SyncReport} : s.Cycle cancel history report s' ↔
    ∃ o, s.Synced cancel history o s' ∧ report = .of o s.now := by
  refine ⟨?_, ?_⟩
  · rintro ⟨batch⟩
    exact ⟨_, .mk batch, rfl⟩
  · rintro ⟨o, ⟨batch⟩, rfl⟩
    exact .mk batch

theorem exists_cycleBooks_iff : (∃ entries, s.CycleBooks history entries s') ↔ s.Cycles history s' := by
  refine ⟨?_, ?_⟩
  · rintro ⟨entries, hbooks⟩
    induction hbooks with
    | rest s => exact .rest s
    | cycle hsynced _ ih => exact .cycle (cycle_iff.mpr ⟨_, hsynced, rfl⟩) ih
  · intro hcycles
    induction hcycles with
    | rest s => exact ⟨[], .rest s⟩
    | cycle hcycle _ ih =>
      obtain ⟨o, hsynced, _⟩ := cycle_iff.mp hcycle
      obtain ⟨entries, hlater⟩ := ih
      exact ⟨_, .cycle hsynced hlater⟩

theorem exists_books_iff {r : Request} {answer : Answer} :
    (∃ entries, s.Books r history entries answer s') ↔ s.Serves r history answer s' := by
  refine ⟨?_, ?_⟩
  · rintro ⟨entries, hbooks⟩
    cases hbooks with
    | alone h => exact .alone h
    | batchDelays batch => exact .batchDelays batch
    | delayMatrix batch => exact .delayMatrix batch
    | maxDelay batch => exact .maxDelay batch
    | batchOffsets batch => exact .batchOffsets batch
    | sync hsynced => exact .sync (cycle_iff.mpr ⟨_, hsynced, rfl⟩)
    | runLoop hcycles => exact .runLoop (exists_cycleBooks_iff.mp ⟨_, hcycles⟩)
  · intro hserves
    cases hserves with
    | alone h => exact ⟨_, .alone h⟩
    | batchDelays batch => exact ⟨_, .batchDelays batch⟩
    | delayMatrix batch => exact ⟨_, .delayMatrix batch⟩
    | maxDelay batch => exact ⟨_, .maxDelay batch⟩
    | batchOffsets batch => exact ⟨_, .batchOffsets batch⟩
    | sync hcycle =>
      obtain ⟨o, hsynced, rfl⟩ := cycle_iff.mp hcycle
      exact ⟨_, .sync hsynced⟩
    | runLoop hcycles =>
      obtain ⟨entries, hbooks⟩ := exists_cycleBooks_iff.mpr hcycles
      exact ⟨entries, .runLoop hbooks⟩

/-- The runs are those that a ledger can be kept of. -/
theorem exists_ledger_iff {requests : List Request} {answers : List Answer} :
    (∃ entries, Ledger clock start requests history entries answers s) ↔
      Run clock start requests history answers s := by
  refine ⟨?_, ?_⟩
  · rintro ⟨entries, hledger⟩
    induction hledger with
    | nil => exact .nil
    | snoc _ books hclock ih => exact ih.snoc (exists_books_iff.mp ⟨_, books⟩) hclock
  · intro hrun
    induction hrun with
    | nil => exact ⟨[], .nil⟩
    | snoc _ serves hclock ih =>
      obtain ⟨entries, hledger⟩ := ih
      obtain ⟨new, hbooks⟩ := exists_books_iff.mpr serves
      exact ⟨entries ++ new, hledger.snoc hbooks hclock⟩

theorem Ledger.run {requests : List Request} {entries : List Entry} {answers : List Answer}
    (h : Ledger clock start requests history entries answers s) :
    Run clock start requests history answers s := exists_ledger_iff.mp ⟨entries, h⟩

end Service
end LightCone
