import LightCone.Proofs.Run.Interleaving
import LightCone.Service.Request

/-!
Runs of a service, with what happens to its stores on the way.

Requests come one after another; within a batch jobs interleave in any order. This file

1. says what happens while a request is served that runs no batch (`Service.history`);
2. says what serving a request may come to, batches in any order (`Service.Serves`), and a
   run of requests under a rule for the clock (`Service.Run`);
3. shows that the service as it runs, with its lookups answered in rounds, is one of these
   runs (`serves_serve`, `run_serveAll`).
-/
namespace LightCone

/-- The requests that run a batch of jobs. -/
def Request.isBatch : Request → Bool
  | .batchDelays .. | .delayMatrix | .maxDelay | .batchOffsets .. | .sync _ | .runLoop _ => true
  | _ => false

/-- The lookups that are answered by a deadline; no limit where they take no time. -/
def Access.lookupsBy (access : Access) (deadline : Duration) : Option Nat :=
  if access.latency = 0 then none else some (deadline.nanos / (access.latency * 1000000))

/-- A job with a deadline leaves the memory of its trace up to the deadline. -/
theorem Job.runWithin_snd {α : Type} {env : Environment} (job : Job α) (deadline : Duration)
    (m : Memory) :
    (job.runWithin env deadline m).2 = (job.trace env (env.access.lookupsBy deadline) m).2 := by
  unfold runWithin Access.lookupsBy
  split
  · exact job.run_snd m
  · exact job.runFor_snd _ m

/-! ## The jobs of a service -/

theorem fresh_pairJobs (nodes : List Node) : ∀ item ∈ pairJobs nodes, Pool.ended item.2 = none := by
  intro item hitem
  obtain ⟨⟨a, b⟩, _, rfl⟩ := List.mem_map.mp hitem
  rfl

section Offsets

variable {ids references : List String} {now : Instant}

theorem fresh_offsetJobs : ∀ item ∈ offsetJobs ids references now, Pool.ended item.2 = none := by
  intro item hitem
  obtain ⟨id, _, rfl⟩ := List.mem_map.mp hitem
  rfl

theorem keys_offsetJobs : (offsetJobs ids references now).map Prod.fst = distinctIds ids := by
  rw [offsetJobs, List.map_map]
  exact List.map_id _

theorem nodup_keys_offsetJobs : ((offsetJobs ids references now).map Prod.fst).Nodup := by
  rw [keys_offsetJobs]
  exact (sorted_distinctIds ids).imp String.ne_of_lt

end Offsets

namespace Service

/-- The service with another memory. -/
def remember (s : Service) (m : Memory) : Service := { s with memory := m }

/-- A service that was opened has the settings, the directory and the clock it was given, and
    an empty memory. -/
theorem eq_of_start {settings : Settings} {directory : Directory} {access : Access} {now : Instant}
    {metrics : Option Metrics} {s : Service}
    (hstart : start settings directory access now metrics = .ok s) :
    s = ⟨⟨settings, directory, access, now⟩, .initial settings metrics⟩ := by
  unfold start at hstart
  split at hstart
  · cases hstart
    rfl
  · cases hstart

/-- A service is opened only with settings that pass the check. -/
theorem check_of_start {settings : Settings} {directory : Directory} {access : Access}
    {now : Instant} {metrics : Option Metrics} {s : Service}
    (hstart : start settings directory access now metrics = .ok s) : settings.check = .ok () := by
  unfold start at hstart
  split at hstart
  · assumption
  · cases hstart

/-! ## The three ways of answering for a timing -/

section Timing

variable {s s' : Service} {ids : List String}

theorem consensusTiming_of_hit {timing : ConsensusTiming}
    (hget : s.memory.timings.get? (fingerprint ids) s.now = some timing) :
    s.consensusTiming ids = (.ok timing, s.count (.cacheHit .timing)) := by
  simp only [consensusTiming, hget]

theorem consensusTiming_of_fault {fault : Fault}
    (hget : s.memory.timings.get? (fingerprint ids) s.now = none)
    (hjob : (s.count (.cacheMiss .timing)).perform (worstOfSetJob (distinctIds ids)) =
      (.error fault, s')) :
    s.consensusTiming ids = (.error fault, s') := by
  simp only [consensusTiming, hget, hjob]

theorem consensusTiming_of_worst {validators : Nat} {worst : Duration}
    (hget : s.memory.timings.get? (fingerprint ids) s.now = none)
    (hjob : (s.count (.cacheMiss .timing)).perform (worstOfSetJob (distinctIds ids)) =
      (.ok (validators, worst), s')) :
    s.consensusTiming ids =
      (.ok (.derive worst validators (fingerprint ids) s'.now s'.settings.consensus),
        s'.keepTiming
          (.derive worst validators (fingerprint ids) s'.now s'.settings.consensus)) := by
  simp only [consensusTiming, hget, hjob]

/-- Asking for a timing changes the memory only. -/
theorem env_consensusTiming (s : Service) (ids : List String) :
    (s.consensusTiming ids).2.env = s.env := by
  cases hget : s.memory.timings.get? (fingerprint ids) s.now with
  | some timing =>
    rw [consensusTiming_of_hit hget]
    rfl
  | none =>
    rcases hjob : (s.count (.cacheMiss .timing)).perform (worstOfSetJob (distinctIds ids))
      with ⟨fault | ⟨validators, worst⟩, s'⟩
    all_goals
      have hs' : _ = s' := congrArg Prod.snd hjob
    · rw [consensusTiming_of_fault hget hjob, ← hs']
      rfl
    · rw [consensusTiming_of_worst hget hjob, ← hs']
      rfl

/-- A timing is served from the store while it is fresh; else it is derived and stored, or cannot be
    derived, and then the store stays as it was. -/
theorem consensusTiming_cases (s : Service) (ids : List String) :
    (∃ timing, s.memory.timings.get? (fingerprint ids) s.now = some timing ∧
      s.consensusTiming ids = (.ok timing, s.count (.cacheHit .timing))) ∨
    (s.memory.timings.get? (fingerprint ids) s.now = none ∧ ∃ fault,
      (s.consensusTiming ids).1 = .error fault ∧
      (s.consensusTiming ids).2.memory.timings = s.memory.timings) ∨
    (s.memory.timings.get? (fingerprint ids) s.now = none ∧ ∃ timing,
      (s.consensusTiming ids).1 = .ok timing ∧ timing.computedAt = s.now ∧
      (s.consensusTiming ids).2.memory.timings =
        s.memory.timings.insert (fingerprint ids) timing s.now) := by
  cases hget : s.memory.timings.get? (fingerprint ids) s.now with
  | some timing => exact .inl ⟨timing, rfl, consensusTiming_of_hit hget⟩
  | none =>
    rcases hjob : (s.count (.cacheMiss .timing)).perform (worstOfSetJob (distinctIds ids))
      with ⟨fault | ⟨validators, worst⟩, s'⟩
    all_goals
      have hs' : _ = s' := congrArg Prod.snd hjob
      have htimings : s'.memory.timings = s.memory.timings := by
        rw [← hs']
        exact Job.run_timings ..
    · rw [consensusTiming_of_fault hget hjob]
      exact .inr (.inl ⟨rfl, fault, rfl, htimings⟩)
    · have hnow : s'.now = s.now := by
        rw [← hs']
        rfl
      rw [consensusTiming_of_worst hget hjob]
      refine .inr (.inr ⟨rfl, _, rfl, hnow, ?_⟩)
      show s'.memory.timings.insert (fingerprint ids) _ s'.now = _
      rw [htimings, hnow]

end Timing

/-! ## What happens without a batch -/

/-- What happens while a job runs to its end, or for a limited number of lookups. -/
def jobHistory {α : Type} (s : Service) (limit : Option Nat) (job : Job α) : List Happening :=
  (job.trace s.env limit s.memory).1

/-- What happens while a timing is asked for: nothing if it is stored, else the delays of the
    set are evaluated and, if all goes well, its timing is derived. -/
def timingHistory (s : Service) (ids : List String) : List Happening :=
  match s.memory.timings.get? (fingerprint ids) s.now with
  | some _ => []
  | none =>
    (s.count (.cacheMiss .timing)).jobHistory none (worstOfSetJob (distinctIds ids)) ++
      match (s.consensusTiming ids).1 with
      | .ok timing => [.timed ids timing]
      | .error _ => []

/-- What happens while a request is served that runs no batch. -/
def history (s : Service) : Request → List Happening
  | .delay source target => s.jobHistory none (delayJob source target)
  | .delayWithin deadline source target =>
    s.jobHistory (s.env.access.lookupsBy deadline) (delayJob source target)
  | .consensusTiming ids | .timeouts ids | .votingWindow ids | .blockInterval ids _ =>
    s.timingHistory ids
  | .measureOffset id references => s.jobHistory none (offsetJob id references s.now)
  | .currentOffset id =>
    match s.storedOffset id with
    | (.ok _, _) => []
    | (.error _, s) =>
      s.jobHistory none (offsetJob id (Directory.ids s.env.directory.active) s.now)
  | .clearCaches => [.cleared]
  | _ => []

/-! ## What serving a request may come to -/

/-- What a synchronization cycle may come to. -/
inductive Cycle (s : Service) (cancel : Cancellation) :
    List Happening → SyncReport → Service → Prop where
  | mk {history : List Happening} {o : BatchOutcome String NodeOffset} {m : Memory}
      (batch : Pool.Batch s.env
        (offsetJobs (Directory.ids s.env.directory.all) (Directory.ids s.env.directory.active) s.now)
        cancel (s.memory.addPending (Directory.ids s.env.directory.all) s.now) history o m) :
      Cycle s cancel history ⟨o.total, o.results.size, o.failures.size, o.cancelled, s.now⟩
        (s.remember (m.recordOutcome o s.now s.settings.sync.historyLength))

/-- Cycles one after another, each followed by maintenance and any of them cut off. -/
inductive Cycles : Service → List Happening → Service → Prop where
  | rest (s : Service) : Cycles s [] s
  | cycle {s s' s'' : Service} {cancel : Cancellation} {first later : List Happening}
      {report : SyncReport} (hcycle : s.Cycle cancel first report s')
      (hlater : Cycles s'.maintain.2 later s'') : Cycles s (first ++ later) s''

theorem Cycle.env_eq {s s' : Service} {cancel : Cancellation} {history : List Happening}
    {report : SyncReport} (h : s.Cycle cancel history report s') : s'.env = s.env := by
  cases h
  rfl

theorem Cycles.env_eq {s s' : Service} {history : List Happening} (h : s.Cycles history s') :
    s'.env = s.env := by
  induction h with
  | rest => rfl
  | cycle hcycle _ ih => exact ih.trans hcycle.env_eq

/-- What serving a request may come to: what happens, the answer, and the service after it. -/
inductive Serves (s : Service) : Request → List Happening → Answer → Service → Prop where
  | alone {r : Request} (h : r.isBatch = false) :
      Serves s r (s.history r) (s.serve r).1 (s.serve r).2
  | batchDelays {nodes : List Node} {cancel : Cancellation} {history : List Happening}
      {o : BatchOutcome NodePair Duration} {m : Memory}
      (batch : Pool.Batch s.env (pairJobs nodes) cancel s.memory history o m) :
      Serves s (.batchDelays nodes cancel) history (.delays o) (s.remember m)
  | delayMatrix {history : List Happening} {o : BatchOutcome NodePair Duration} {m : Memory}
      (batch : Pool.Batch s.env (pairJobs s.env.directory.active) .never s.memory history o m) :
      Serves s .delayMatrix history (.delays o) (s.remember m)
  | maxDelay {history : List Happening} {o : BatchOutcome NodePair Duration} {m : Memory}
      (batch : Pool.Batch s.env (pairJobs s.env.directory.active) .never s.memory history o m) :
      Serves s .maxDelay history (.worst (worstPair o.results.entries)) (s.remember m)
  | batchOffsets {ids references : List String} {cancel : Cancellation}
      {history : List Happening} {o : BatchOutcome String NodeOffset} {m : Memory}
      (batch : Pool.Batch s.env (offsetJobs ids references s.now) cancel s.memory history o m) :
      Serves s (.batchOffsets ids references cancel) history (.offsets o) (s.remember m)
  | sync {cancel : Cancellation} {history : List Happening} {report : SyncReport} {s' : Service}
      (hcycle : s.Cycle cancel history report s') :
      Serves s (.sync cancel) history (.synced report) s'
  | runLoop {ms : Nat} {history : List Happening} {s' : Service} (hcycles : s.Cycles history s') :
      Serves s (.runLoop ms) history (.statuses s'.syncStatuses) s'

/-- A request without a batch is served in one way only. -/
theorem Serves.of_alone {s s' : Service} {r : Request} {history : List Happening} {answer : Answer}
    (h : s.Serves r history answer s') (hr : r.isBatch = false) :
    history = s.history r ∧ (answer, s') = s.serve r := by
  cases h with
  | alone => exact ⟨rfl, rfl⟩
  | _ => exact absurd hr Bool.noConfusion

/-- Requests served one after another. `clock` says which times may follow each other. -/
inductive Run (clock : Instant → Instant → Prop) (start : Service) :
    List Request → List Happening → List Answer → Service → Prop where
  | nil : Run clock start [] [] [] start
  | snoc {requests : List Request} {history later : List Happening} {answers : List Answer}
      {answer : Answer} {s s' : Service} {r : Request}
      (earlier : Run clock start requests history answers s)
      (serves : s.Serves r later answer s') (hclock : clock s.now s'.now) :
      Run clock start (requests ++ [r]) (history ++ later) (answers ++ [answer]) s'

/-- Any time may follow. -/
def anyTime (_ _ : Instant) : Prop := True

/-- No earlier time may follow. -/
def notEarlier (now later : Instant) : Prop := now ≤ later

/-! ## Jobs make as many lookups as their batches allow -/

theorem length_insertId_le (id : String) (ids : List String) :
    (insertId id ids).length ≤ ids.length + 1 := by
  induction ids with
  | nil => exact Nat.le_refl _
  | cons x rest ih =>
    simp only [insertId]
    split
    · exact Nat.le_refl _
    · split
      · exact Nat.le_succ _
      · simp only [List.length_cons]
        omega

theorem length_distinctIds_le (ids : List String) : (distinctIds ids).length ≤ ids.length := by
  induction ids with
  | nil => exact Nat.le_refl _
  | cons x rest ih =>
    have hinsert := length_insertId_le x (distinctIds rest)
    show (insertId x (distinctIds rest)).length ≤ rest.length + 1
    omega

theorem length_referencesOf_le (id : String) (references : List String) :
    (referencesOf id references).length ≤ references.length :=
  Nat.le_trans (List.length_filter_le ..) (length_distinctIds_le references)

/-- A job followed by one that looks nothing up. -/
theorem looksUpAtMost_bind {α β : Type} {n : Nat} {job : Job α} {f : α → Job β}
    (hjob : job.LooksUpAtMost n) (hf : ∀ value k, (f value).LooksUpAtMost k) :
    (job.bind f).LooksUpAtMost n := by
  induction job generalizing n with
  | done value => exact hf value n
  | lookup id next ih =>
    cases n with
    | zero => exact hjob.elim
    | succ n => exact fun answer => ih answer (hjob answer)
  | delay a b next ih =>
    simp only [Job.LooksUpAtMost, Job.bind] at hjob ⊢
    exact fun answer => ih answer (hjob answer)
  | keep record next ih =>
    simp only [Job.LooksUpAtMost, Job.bind] at hjob ⊢
    exact ih hjob

theorem looksUpAtMost_pairJob (a b : Node) (n : Nat) : (pairJob a b).LooksUpAtMost n := by
  simp [pairJob, Job.LooksUpAtMost]

theorem looksUpAtMost_measureJob (node : Node) {ids : List String} {n : Nat}
    (h : ids.length ≤ n) : (measureJob node ids).LooksUpAtMost n := by
  induction ids generalizing n with
  | nil => simp [measureJob, Job.LooksUpAtMost]
  | cons id rest ih =>
    cases n with
    | zero => exact absurd h (by simp)
    | succ n =>
      have hrest : (measureJob node rest).LooksUpAtMost n := ih (Nat.le_of_succ_le_succ h)
      intro answer
      cases answer with
      | error fault => exact hrest
      | ok reference =>
        simp only [Job.LooksUpAtMost]
        intro measured
        cases measured with
        | error fault => exact hrest
        | ok result => exact looksUpAtMost_bind hrest fun ms k => by simp [Job.LooksUpAtMost]

theorem looksUpAtMost_offsetJob (id : String) (references : List String) (now : Instant) :
    (offsetJob id references now).LooksUpAtMost (references.length + 1) := by
  intro answer
  cases answer with
  | error fault => simp [Job.LooksUpAtMost]
  | ok node =>
    refine looksUpAtMost_bind (looksUpAtMost_measureJob node (length_referencesOf_le id references))
      fun ms k => ?_
    cases offsetOf node id ms now <;> simp [Job.LooksUpAtMost]

/-! ## The service as it runs -/

theorem batch_pairJobs (env : Environment) (nodes : List Node) (cancel : Cancellation) (m : Memory) :
    ∃ history, Pool.Batch env (pairJobs nodes) cancel m history
      (fanOut env (pairJobs nodes) 0 cancel m).1.outcome
      (fanOut env (pairJobs nodes) 0 cancel m).2 := by
  refine Pool.fanOut_batch cancel m (fresh_pairJobs nodes) fun item hitem => ?_
  obtain ⟨⟨a, b⟩, _, rfl⟩ := List.mem_map.mp hitem
  exact looksUpAtMost_pairJob a b 0

theorem batch_offsetJobs (env : Environment) (ids references : List String) (now : Instant)
    (cancel : Cancellation) (m : Memory) :
    ∃ history, Pool.Batch env (offsetJobs ids references now) cancel m history
      (fanOut env (offsetJobs ids references now) (references.length + 1) cancel m).1.outcome
      (fanOut env (offsetJobs ids references now) (references.length + 1) cancel m).2 := by
  refine Pool.fanOut_batch cancel m fresh_offsetJobs fun item hitem => ?_
  obtain ⟨id, _, rfl⟩ := List.mem_map.mp hitem
  exact looksUpAtMost_offsetJob id references now

theorem cycle_syncRounds (s : Service) (cancel : Cancellation) :
    ∃ history, s.Cycle cancel history (s.syncRounds cancel).1.1 (s.syncRounds cancel).2 := by
  obtain ⟨history, batch⟩ := batch_offsetJobs s.env (Directory.ids s.env.directory.all)
    (Directory.ids s.env.directory.active) s.now cancel
    (s.memory.addPending (Directory.ids s.env.directory.all) s.now)
  exact ⟨history, .mk batch⟩

theorem cycles_runCycles (ending cycles time due : Nat) (s : Service) :
    ∃ history, s.Cycles history (runCycles ending cycles time due s) := by
  induction cycles generalizing time due s with
  | zero => exact ⟨[], .rest s⟩
  | succ cycles ih =>
    simp only [runCycles]
    split
    · obtain ⟨first, hfirst⟩ := cycle_syncRounds s (.after (ending - max time (wakeTime due)))
      split
      · exact ⟨first ++ [], .cycle hfirst (.rest _)⟩
      · obtain ⟨later, hlater⟩ := ih _ _ _
        exact ⟨first ++ later, .cycle hfirst hlater⟩
    · exact ⟨[], .rest s⟩

/-- Serving a request as the service does is one of the ways of serving it. -/
theorem serves_serve (s : Service) (r : Request) :
    ∃ history, s.Serves r history (s.serve r).1 (s.serve r).2 := by
  by_cases h : r.isBatch = false
  · exact ⟨s.history r, .alone h⟩
  · cases r <;> try exact absurd rfl h
    case batchDelays nodes cancel =>
      obtain ⟨history, batch⟩ := batch_pairJobs s.env nodes cancel s.memory
      exact ⟨history, .batchDelays batch⟩
    case delayMatrix =>
      obtain ⟨history, batch⟩ := batch_pairJobs s.env s.env.directory.active .never s.memory
      exact ⟨history, .delayMatrix batch⟩
    case maxDelay =>
      obtain ⟨history, batch⟩ := batch_pairJobs s.env s.env.directory.active .never s.memory
      exact ⟨history, .maxDelay batch⟩
    case batchOffsets ids references cancel =>
      obtain ⟨history, batch⟩ := batch_offsetJobs s.env ids references s.now cancel s.memory
      exact ⟨history, .batchOffsets batch⟩
    case sync cancel =>
      obtain ⟨history, hcycle⟩ := cycle_syncRounds s cancel
      exact ⟨history, .sync hcycle⟩
    case runLoop ms =>
      obtain ⟨history, hcycles⟩ := cycles_runCycles ms
        (ms * nanosPerMilli / loopPeriod s.settings.sync + 1) 0 0 s
      exact ⟨history, .runLoop hcycles⟩

theorem Run.cons {clock : Instant → Instant → Prop} {s s' s'' : Service} {r : Request}
    {requests : List Request} {first later : List Happening} {answer : Answer}
    {answers : List Answer} (hserves : s.Serves r first answer s') (hclock : clock s.now s'.now)
    (hrun : Run clock s' requests later answers s'') :
    Run clock s (r :: requests) (first ++ later) (answer :: answers) s'' := by
  induction hrun with
  | nil =>
    have hnone : Run clock s [] [] [] s := .nil
    have hone := hnone.snoc hserves hclock
    simpa using hone
  | snoc _ serves hnext ih =>
    have hlonger := Run.snoc ih serves hnext
    simpa using hlonger

/-- The service as it runs goes through one of its runs. -/
theorem run_serveAll (s : Service) (requests : List Request) :
    ∃ history, Run anyTime s requests history (s.serveAll requests).1 (s.serveAll requests).2 := by
  induction requests generalizing s with
  | nil => exact ⟨[], .nil⟩
  | cons r requests ih =>
    obtain ⟨first, hfirst⟩ := serves_serve s r
    obtain ⟨later, hlater⟩ := ih (s.serve r).2
    exact ⟨first ++ later, Run.cons hfirst trivial hlater⟩

end Service
end LightCone
