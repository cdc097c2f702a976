import LightCone.Proofs.NodePairs
import LightCone.Proofs.Run.Counting
import LightCone.Proofs.Run.Ledger
import LightCone.Proofs.Run.Effects
import LightCone.Proofs.Run.TwoNodes
import Mathlib.Algebra.Order.BigOperators.Group.List
import Mathlib.Algebra.GroupWithZero.Nat
import Mathlib.Algebra.Order.Group.Nat

/-!
What the counters of a service add up to.

Counters are moved by many requests, and by jobs that may be cut off. This file

1. lists the events that a request counts by itself, next to those of its evaluations and its
   batches (`Service.ownEvents`), and shows that serving a request counts these and no others
   (`Service.Books.counted`);
2. keeps, along every move of a run, the bound of the stored delays by the computed ones, and
   that an evaluation fails only for want of a distance (`Service.Bounded`);
3. concludes, from the ledger of a run, what every counter is the number of
   (`counters_conserved`).
-/
namespace LightCone

/-- The node whose stored offset a request looks up. -/
def Request.storedOffsetOf : Request → Option String
  | .storedOffset id | .currentOffset id | .adjust _ id => some id
  | _ => none

namespace Entry

/-- The events of an entry: an item for each result and each fault, and one synchronization more for
    each in a cycle. -/
def events : Entry → List Event
  | delays o => Pool.outcomeEvents o
  | offsets o => Pool.outcomeEvents o
  | cycle _ _ o => Pool.outcomeEvents o ++ Memory.syncEvents o
  | cleanup _ => []

/-- The numbers of results and of faults of a batch. -/
def items : Entry → Nat × Nat
  | delays o => (o.results.size, o.failures.size)
  | offsets o => (o.results.size, o.failures.size)
  | cycle _ _ o => (o.results.size, o.failures.size)
  | cleanup _ => (0, 0)

/-- The report of a cycle. -/
def report : Entry → Option SyncReport
  | cycle _ now o => some (.of o now)
  | _ => none

/-- The numbers of nodes that the report of a cycle has as synchronized and as failed. -/
def reported (e : Entry) : Nat × Nat :=
  match e.report with
  | some report => (report.synced, report.failed)
  | none => (0, 0)

end Entry

/-! ## Events of requests -/

namespace Service

variable {s s' : Service} {cancel : Cancellation} {history : List Happening}

/-- The event of looking up the timing of a set. -/
def timingEvent (s : Service) (ids : List String) : Event :=
  match s.memory.timings.get? (fingerprint ids) s.now with
  | some _ => .cacheHit .timing
  | none => .cacheMiss .timing

/-- The event of looking up the stored offset of a node. -/
def offsetEvent (s : Service) (id : String) : Event :=
  match s.memory.offsets.lookup id s.now with
  | .fresh _ => .cacheHit .offset
  | _ => .cacheMiss .offset

/-- The event of a verdict. -/
def verdictEvent (s : Service) : Request → Option Event
  | .validate subject claimed position reference =>
    some (.validation (s.validate subject claimed position reference).1.valid)
  | .validateWithin deadline claimed position reference =>
    some (.validation (s.validateWithin deadline claimed position reference).1.valid)
  | _ => none

/-- What a request counts other than the events of its evaluations and its batches: at most one
    event. -/
def ownEvents (s : Service) (r : Request) : List Event :=
  (r.timingOf.map s.timingEvent).toList ++ (r.storedOffsetOf.map s.offsetEvent).toList ++
    (s.verdictEvent r).toList

open Memory

theorem counted_perform {α : Type} (s : Service) (job : Job α) :
    Counted s.memory (s.perform job).2.memory (eventsOf (s.jobHistory none job)) := by
  have hcounted : Counted s.memory (job.trace s.env none s.memory).2 _ := counted_trace job none _
  rwa [← Job.run_snd] at hcounted

theorem counted_performWithin {α : Type} (s : Service) (deadline : Duration) (job : Job α) :
    Counted s.memory (s.performWithin deadline job).2.memory
      (eventsOf (s.jobHistory (s.env.access.lookupsBy deadline) job)) := by
  have hcounted : Counted s.memory (job.trace s.env (s.env.access.lookupsBy deadline) s.memory).2 _ :=
    counted_trace job _ _
  rwa [← Job.runWithin_snd] at hcounted

theorem counted_consensusTiming (s : Service) (ids : List String) :
    Counted s.memory (s.consensusTiming ids).2.memory
      ([s.timingEvent ids] ++ eventsOf (s.timingHistory ids)) := by
  cases hget : s.memory.timings.get? (fingerprint ids) s.now with
  | some timing =>
    rw [consensusTiming_of_hit hget]
    simp only [timingHistory, timingEvent, hget]
    exact .count _ _
  | none =>
    have hperform := (Counted.count s.memory (.cacheMiss .timing)).trans
      (counted_perform (s.count (.cacheMiss .timing)) (worstOfSetJob (distinctIds ids)))
    simp only [timingHistory, timingEvent, hget]
    -- Deriving a timing counts nothing more.
    rcases hjob : (s.count (.cacheMiss .timing)).perform (worstOfSetJob (distinctIds ids))
      with ⟨fault | ⟨validators, worst⟩, s'⟩
    all_goals rw [hjob] at hperform
    · rw [consensusTiming_of_fault hget hjob, List.append_nil]
      exact hperform
    · rw [consensusTiming_of_worst hget hjob, eventsOf_append]
      exact hperform.congr fun e => by simp [eventsOf, Happening.events]

theorem counted_storedOffset (s : Service) (id : String) :
    Counted s.memory (s.storedOffset id).2.memory [s.offsetEvent id] := by
  unfold storedOffset offsetEvent
  cases s.memory.offsets.lookup id s.now <;> exact .count _ _

theorem counted_currentOffset (s : Service) (id : String) :
    Counted s.memory (s.currentOffset id).2.memory
      ([s.offsetEvent id] ++ eventsOf (s.history (.currentOffset id))) := by
  have hstored := counted_storedOffset s id
  rcases hanswer : s.storedOffset id with ⟨fault | record, s'⟩
  all_goals
    rw [hanswer] at hstored
    simp only [history, currentOffset, hanswer]
  · exact hstored.trans (counted_perform s' _)
  · exact hstored.trans (.refl _)

theorem counted_validate (s : Service) (subject : Option Subject) (claimed : Instant)
    (position : Position) (reference : String) :
    Counted s.memory (s.validate subject claimed position reference).2.memory
      [.validation (s.validate subject claimed position reference).1.valid] := by
  have hperform := counted_perform s (s.verdictJob subject claimed position reference)
  rw [jobHistory, trace_verdictJob] at hperform
  exact hperform.trans (.count _ _)

theorem counted_validateWithin (s : Service) (deadline : Duration) (claimed : Instant)
    (position : Position) (reference : String) :
    Counted s.memory (s.validateWithin deadline claimed position reference).2.memory
      [.validation (s.validateWithin deadline claimed position reference).1.valid] := by
  have hperform := counted_performWithin s deadline (s.verdictJob none claimed position reference)
  rw [jobHistory, trace_verdictJob] at hperform
  unfold validateWithin
  rcases hjob : s.performWithin deadline (s.verdictJob none claimed position reference)
    with ⟨_ | verdict, s'⟩
  all_goals
    rw [hjob] at hperform
    exact hperform.trans (.count _ _)

/-- A request without a batch counts its own event, if any, and those of its evaluations. -/
theorem counted_alone {r : Request} (h : r.isBatch = false) :
    Counted s.memory (s.serve r).2.memory (s.ownEvents r ++ eventsOf (s.history r)) := by
  cases r with
  | upsert node =>
    simp only [serve, upsert]
    cases s.env.directory.upsert node <;> exact .refl _
  | delay source target => exact counted_perform s _
  | delayWithin deadline source target =>
    have hperform := counted_performWithin s deadline (delayJob source target)
    simp only [serve, answered, delayWithin]
    rcases hjob : s.performWithin deadline (delayJob source target) with ⟨_ | answer, s'⟩
    all_goals
      rw [hjob] at hperform
      exact hperform
  | validate subject claimed position reference =>
    exact (counted_validate s subject claimed position reference).trans (.refl _)
  | validateWithin deadline claimed position reference =>
    exact (counted_validateWithin s deadline claimed position reference).trans (.refl _)
  | consensusTiming ids => exact counted_consensusTiming s ids
  | timeouts ids => exact counted_consensusTiming s ids
  | votingWindow ids => exact counted_consensusTiming s ids
  | blockInterval ids load => exact counted_consensusTiming s ids
  | measureOffset id references => exact counted_perform s _
  | storedOffset id => exact (counted_storedOffset s id).trans (.refl _)
  | currentOffset id => exact counted_currentOffset s id
  | adjust timestamp id => exact (counted_storedOffset s id).trans (.refl _)
  | batchDelays | delayMatrix | maxDelay | batchOffsets | sync | runLoop =>
    exact absurd h Bool.noConfusion
  | _ => exact .refl _

/-! ## Events of batches and cycles -/

theorem Synced.counted {o : BatchOutcome String NodeOffset} (h : s.Synced cancel history o s') :
    Counted s.memory s'.memory
      (eventsOf history ++ (Entry.cycle s.known s.now o).events) := by
  obtain ⟨batch⟩ := h
  have hbatch := batch.counted fresh_offsetJobs nodup_keys_offsetJobs
  have hrecorded := hbatch.trans
    (counted_recordOutcome _ o s.now s.settings.sync.historyLength)
  rw [List.append_assoc] at hrecorded
  exact hrecorded

theorem CycleBooks.counted {entries : List Entry} (h : s.CycleBooks history entries s') :
    Counted s.memory s'.memory (eventsOf history ++ entries.flatMap Entry.events) := by
  induction h with
  | rest s => exact .refl _
  | cycle hsynced _ ih =>
    -- Maintenance counts nothing.
    refine (hsynced.counted.trans ih).congr fun e => ?_
    simp only [eventsOf_append, List.flatMap_cons, Entry.events, List.nil_append, List.count_append]
    omega

theorem ownEvents_of_isBatch {r : Request} (h : r.isBatch = true) : s.ownEvents r = [] := by
  cases r <;> first | rfl | exact absurd h Bool.noConfusion

/-- Serving a request counts its own event, those of its evaluations, and those of its entries. -/
theorem Books.counted {r : Request} {entries : List Entry} {answer : Answer}
    (h : s.Books r history entries answer s') :
    Counted s.memory s'.memory
      (s.ownEvents r ++ eventsOf history ++ entries.flatMap Entry.events) := by
  cases h with
  | alone h =>
    have hentries : (s.entries r).flatMap Entry.events = [] := by
      unfold Service.entries
      split <;> rfl
    rw [hentries, List.append_nil]
    exact counted_alone h
  | batchDelays batch | delayMatrix batch | maxDelay batch =>
    have hbatch := batch.counted (fresh_pairJobs _) (nodup_keys_pairJobs _)
    rw [ownEvents_of_isBatch rfl, List.nil_append, List.flatMap_singleton]
    exact hbatch
  | batchOffsets batch =>
    have hbatch := batch.counted fresh_offsetJobs nodup_keys_offsetJobs
    rw [ownEvents_of_isBatch rfl, List.nil_append, List.flatMap_singleton]
    exact hbatch
  | sync hsynced =>
    rw [ownEvents_of_isBatch rfl, List.nil_append, List.flatMap_singleton]
    exact hsynced.counted
  | runLoop hcycles => exact hcycles.counted

/-! ## What moves keep -/

/-- No more delays are stored than were computed, and whatever could not be evaluated could not be
    computed. -/
structure Bounded (history : List Happening) (s : Service) : Prop where
  stored : s.storedPairs ≤ s.memory.tally.delaysComputed
  faults : ∀ {a b time fault}, Happening.evaluated a b time (.error fault) ∈ history →
    ∃ detail, fault = .computationFailed detail

theorem bounded_evaluate {m : Memory} (env : Environment) (a b : Node)
    (h : m.delays.size ≤ m.tally.delaysComputed) :
    (m.evaluate env a b).2.delays.size ≤ (m.evaluate env a b).2.tally.delaysComputed ∧
      ∀ fault, (m.evaluate env a b).1 = .error fault → ∃ detail, fault = .computationFailed detail := by
  simp only [evaluate]
  split
  · exact ⟨h, fun _ hfault => by cases hfault⟩
  · split
    · next fault hcompute =>
      refine ⟨h, ?_⟩
      rintro fault' hfault
      cases hfault
      simp only [compute] at hcompute
      split at hcompute
      · cases hcompute
      · cases hcompute
        exact ⟨_, rfl⟩
    · next computed _ =>
      have hinsert := Table.size_insert_le m.delays.entries (.of a.id b.id)
        ⟨computed, env.now, env.now.addCapped m.delays.lifetime⟩
      exact ⟨Nat.le_trans hinsert (Nat.succ_le_succ h), fun _ hfault => by cases hfault⟩

theorem Bounded.move {later : List Happening} (h : Bounded history s) (hmove : s.Move later s') :
    Bounded (history ++ later) s' := by
  -- Only evaluations bring faults into the history.
  have hothers (hnone : ∀ {a b time fault}, Happening.evaluated a b time (.error fault) ∉ later)
      {a b time fault} (hmem : Happening.evaluated a b time (.error fault) ∈ history ++ later) :
      ∃ detail, fault = .computationFailed detail :=
    h.faults ((List.mem_append.mp hmem).resolve_right hnone)
  cases hmove with
  | evaluate a b =>
    obtain ⟨hstored, hfault⟩ := bounded_evaluate s.env a b h.stored
    refine ⟨hstored, fun hmem => ?_⟩
    rcases List.mem_append.mp hmem with hmem | hmem
    · exact h.faults hmem
    · injection List.mem_singleton.mp hmem with _ _ _ hanswer
      exact hfault _ hanswer.symm
  | keepOffset record => exact ⟨h.stored, hothers (by simp)⟩
  | deriveTiming ids validators worst => exact ⟨h.stored, hothers (by simp)⟩
  | count e =>
    refine ⟨Nat.le_trans h.stored ?_, hothers (by simp)⟩
    have hcounter := s.memory.tally.counter_record e .delayComputed
    exact Nat.le.intro hcounter.symm
  | sweepDelays => exact ⟨Nat.le_trans (Table.size_filter_le _ _) h.stored, hothers (by simp)⟩
  | sweepTimings => exact ⟨h.stored, hothers (by simp)⟩
  | sweepOffsets => exact ⟨h.stored, hothers (by simp)⟩
  | clearCaches => exact ⟨Nat.zero_le _, hothers (by simp)⟩
  | statuses statuses => exact ⟨h.stored, hothers (by simp)⟩
  | directory directory => exact ⟨h.stored, hothers (by simp)⟩

end Service

/-! ## What is counted -/

/-- A delay was evaluated. -/
def Happening.isEvaluation : Happening → Bool
  | evaluated .. => true
  | _ => false

/-- An evaluation ended without a delay, since none could be computed. -/
def Happening.isUncomputed : Happening → Bool
  | evaluated _ _ _ (.error (.computationFailed _)) => true
  | _ => false

/-- Every evaluation is a hit or a miss, and every miss is computed or cannot be. -/
theorem count_eventsOf {history : List Happening}
    (h : ∀ {a b time fault}, Happening.evaluated a b time (.error fault) ∈ history →
      ∃ detail, fault = .computationFailed detail) :
    (eventsOf history).count (.cacheHit .delay) + (eventsOf history).count (.cacheMiss .delay) =
        history.countP Happening.isEvaluation ∧
      (eventsOf history).count (.cacheMiss .delay) =
        (eventsOf history).count .delayComputed + history.countP Happening.isUncomputed := by
  induction history with
  | nil => exact ⟨rfl, rfl⟩
  | cons happening history ih =>
    obtain ⟨hall, hmisses⟩ := ih fun hmem => h (List.mem_cons_of_mem _ hmem)
    simp only [eventsOf_cons, List.count_append, List.countP_cons]
    rcases happening with ⟨a, b, time, fault | result⟩ | _ | _ | _
    · obtain ⟨detail, rfl⟩ := h List.mem_cons_self
      simp [Happening.events, Happening.isEvaluation, Happening.isUncomputed]
      omega
    · cases hcached : result.cached <;>
        simp [Happening.events, Happening.isEvaluation, Happening.isUncomputed, hcached] <;> omega
    all_goals
      simp [Happening.events, Happening.isEvaluation, Happening.isUncomputed]
      omega

/-- The parts of serving a request that count events. -/
inductive Part where
  | evaluations
  | entries
  /-- Neither its evaluations nor its entries. -/
  | request
  deriving DecidableEq

/-- The part that an event is counted in. -/
def Event.part : Event → Part
  | .cacheHit .delay | .cacheMiss .delay | .delayComputed => .evaluations
  | .batchItem _ | .sync _ => .entries
  | _ => .request

theorem part_of_mem_eventsOf {history : List Happening} {e : Event} (h : e ∈ eventsOf history) :
    e.part = .evaluations := by
  rcases mem_eventsOf h with rfl | rfl | rfl <;> rfl

namespace Entry

theorem part_of_mem_events {entry : Entry} {e : Event} (h : e ∈ entry.events) : e.part = .entries := by
  cases entry <;>
    simp only [events, Pool.outcomeEvents, Memory.syncEvents, List.mem_append, List.mem_replicate,
      List.not_mem_nil] at h
  case cycle =>
    rcases h with (⟨_, rfl⟩ | ⟨_, rfl⟩) | ⟨_, rfl⟩ | ⟨_, rfl⟩ <;> rfl
  all_goals rcases h with ⟨_, rfl⟩ | ⟨_, rfl⟩ <;> rfl

theorem count_events (entry : Entry) :
    entry.events.count (.batchItem true) = entry.items.1 ∧
      entry.events.count (.batchItem false) = entry.items.2 ∧
      entry.events.count (.sync true) = entry.reported.1 ∧
      entry.events.count (.sync false) = entry.reported.2 := by
  cases entry <;>
    simp [events, items, reported, report, SyncReport.of, Pool.outcomeEvents, Memory.syncEvents,
      List.count_replicate]

end Entry

namespace Service

variable {s s' : Service} {r : Request} {later : List Happening} {new : List Entry} {answer : Answer}

theorem timingEvent_eq (s : Service) (ids : List String) :
    s.timingEvent ids = .cacheHit .timing ∨ s.timingEvent ids = .cacheMiss .timing := by
  unfold timingEvent
  split
  · exact .inl rfl
  · exact .inr rfl

theorem offsetEvent_eq (s : Service) (id : String) :
    s.offsetEvent id = .cacheHit .offset ∨ s.offsetEvent id = .cacheMiss .offset := by
  unfold offsetEvent
  split
  · exact .inl rfl
  · exact .inr rfl

theorem verdictEvent_eq {e : Event} (h : s.verdictEvent r = some e) : ∃ ok, e = .validation ok := by
  unfold verdictEvent at h
  split at h <;> cases h <;> exact ⟨_, rfl⟩

theorem part_of_mem_ownEvents {e : Event} (h : e ∈ s.ownEvents r) : e.part = .request := by
  simp only [ownEvents, List.mem_append, Option.mem_toList, Option.map_eq_some_iff] at h
  rcases h with (⟨ids, _, rfl⟩ | ⟨id, _, rfl⟩) | hverdict
  · rcases s.timingEvent_eq ids with h | h <;> rw [h] <;> rfl
  · rcases s.offsetEvent_eq id with h | h <;> rw [h] <;> rfl
  · obtain ⟨ok, rfl⟩ := verdictEvent_eq hverdict
    rfl

/-- Every counter grows by what one part of serving a request counts. -/
theorem Books.counter_eq (h : s.Books r later new answer s') (e : Event) :
    s'.memory.tally.counter e = s.memory.tally.counter e +
      match e.part with
      | .evaluations => (eventsOf later).count e
      | .entries => (new.flatMap Entry.events).count e
      | .request => (s.ownEvents r).count e := by
  have hown (hpart : e.part ≠ .request) : (s.ownEvents r).count e = 0 :=
    List.count_eq_zero.mpr fun hmem => hpart (part_of_mem_ownEvents hmem)
  have hevaluations (hpart : e.part ≠ .evaluations) : (eventsOf later).count e = 0 :=
    List.count_eq_zero.mpr fun hmem => hpart (part_of_mem_eventsOf hmem)
  have hentries (hpart : e.part ≠ .entries) : (new.flatMap Entry.events).count e = 0 := by
    refine List.count_eq_zero.mpr fun hmem => ?_
    obtain ⟨entry, _, hmem⟩ := List.mem_flatMap.mp hmem
    exact hpart (Entry.part_of_mem_events hmem)
  rw [h.counted e, List.count_append, List.count_append]
  cases hpart : e.part with
  | evaluations => simp [hown, hentries, hpart]
  | entries => simp [hown, hevaluations, hpart]
  | request => simp [hevaluations, hentries, hpart]

/-- Items and synchronizations are counted in the entries of a request. -/
theorem Books.counter_of_entries (h : s.Books r later new answer s') {e : Event}
    {number : Entry → Nat} (hpart : e.part = .entries)
    (hnumber : ∀ entry : Entry, entry.events.count e = number entry) :
    s'.memory.tally.counter e = s.memory.tally.counter e + (new.map number).sum := by
  have hcounter := h.counter_eq e
  rw [hpart] at hcounter
  rw [hcounter, List.count_flatMap, ← funext hnumber]
  rfl

/-- What may be looked up once in one store is a hit or a miss of that store. -/
theorem count_lookup {α : Type} (asked : Option α) {event : α → Event} {kind : CacheKind}
    (h : ∀ a, event a = .cacheHit kind ∨ event a = .cacheMiss kind) (kind' : CacheKind) :
    (asked.map event).toList.count (.cacheHit kind') +
        (asked.map event).toList.count (.cacheMiss kind') =
      if kind = kind' ∧ asked.isSome = true then 1 else 0 := by
  cases asked with
  | none => simp
  | some a =>
    rcases h a with ha | ha <;> by_cases hkind : kind = kind' <;>
      simp [ha, hkind]

/-- A request looks up one timing, one stored offset, or neither. -/
theorem count_ownEvents (s : Service) (r : Request) (kind : CacheKind) :
    (s.ownEvents r).count (.cacheHit kind) + (s.ownEvents r).count (.cacheMiss kind) =
      (if .timing = kind ∧ r.timingOf.isSome = true then 1 else 0) +
        if .offset = kind ∧ r.storedOffsetOf.isSome = true then 1 else 0 := by
  rw [← count_lookup r.timingOf s.timingEvent_eq kind,
    ← count_lookup r.storedOffsetOf s.offsetEvent_eq kind]
  have hverdict (e : Event) (he : ∀ ok, e ≠ .validation ok) : (s.verdictEvent r).toList.count e = 0 := by
    refine List.count_eq_zero.mpr fun hmem => ?_
    obtain ⟨ok, hok⟩ := verdictEvent_eq (Option.mem_toList.mp hmem)
    exact he ok hok
  have hhit := hverdict (.cacheHit kind) (by simp)
  have hmiss := hverdict (.cacheMiss kind) (by simp)
  simp only [ownEvents, List.count_append, hhit, hmiss]
  omega

/-- A request counts one hit or miss of the timings, or of the stored offsets, if it looks one up. -/
theorem Books.lookups_eq (h : s.Books r later new answer s') {kind : CacheKind}
    (hkind : kind ≠ .delay) :
    s'.memory.tally.counter (.cacheHit kind) + s'.memory.tally.counter (.cacheMiss kind) =
      s.memory.tally.counter (.cacheHit kind) + s.memory.tally.counter (.cacheMiss kind) +
        ((if .timing = kind ∧ r.timingOf.isSome = true then 1 else 0) +
          if .offset = kind ∧ r.storedOffsetOf.isSome = true then 1 else 0) := by
  have hown := s.count_ownEvents r kind
  have hhit := h.counter_eq (.cacheHit kind)
  have hmiss := h.counter_eq (.cacheMiss kind)
  cases kind with
  | delay => exact absurd rfl hkind
  | timing | offset =>
    simp only [Event.part] at hhit hmiss
    omega

/-! ## Runs -/

/-- What the counters of a service are the numbers of, after some requests. -/
structure Conserved (requests : List Request) (history : List Happening) (entries : List Entry)
    (t : Tally) : Prop where
  /-- Every evaluation of a delay, by whichever caller, is a hit or a miss. -/
  delays : t.delayHits + t.delayMisses = history.countP Happening.isEvaluation
  /-- A delay that is missed is computed, or its computation fails. -/
  computed : t.delayMisses = t.delaysComputed + history.countP Happening.isUncomputed
  timings : t.timingHits + t.timingMisses = requests.countP fun r => r.timingOf.isSome
  offsets : t.offsetHits + t.offsetMisses = requests.countP fun r => r.storedOffsetOf.isSome
  batchOk : t.batchOk = (entries.map fun entry => entry.items.1).sum
  batchFailed : t.batchFailed = (entries.map fun entry => entry.items.2).sum
  syncsOk : t.syncsOk = (entries.map fun entry => entry.reported.1).sum
  syncsFailed : t.syncsFailed = (entries.map fun entry => entry.reported.2).sum

theorem Conserved.serve {requests : List Request} {history : List Happening} {entries : List Entry}
    (h : Conserved requests history entries s.memory.tally) (hbooks : s.Books r later new answer s')
    (hfaults : ∀ {a b time fault}, Happening.evaluated a b time (.error fault) ∈ later →
      ∃ detail, fault = .computationFailed detail) :
    Conserved (requests ++ [r]) (history ++ later) (entries ++ new) s'.memory.tally := by
  obtain ⟨hevaluations, hmisses⟩ := count_eventsOf hfaults
  have hhit := hbooks.counter_eq (.cacheHit .delay)
  have hmiss := hbooks.counter_eq (.cacheMiss .delay)
  have hcomputed := hbooks.counter_eq .delayComputed
  have htimings := hbooks.lookups_eq (show CacheKind.timing ≠ .delay by decide)
  have hoffsets := hbooks.lookups_eq (show CacheKind.offset ≠ .delay by decide)
  simp only [Tally.counter, Event.part] at hhit hmiss hcomputed
  simp only [Tally.counter, reduceCtorEq, false_and, true_and, if_false, Nat.add_zero, Nat.zero_add]
    at htimings hoffsets
  refine
    { delays := ?_
      computed := ?_
      timings := ?_
      offsets := ?_
      batchOk := ?_
      batchFailed := ?_
      syncsOk := ?_
      syncsFailed := ?_ }
  · rw [hhit, hmiss, List.countP_append, ← h.delays, ← hevaluations]
    omega
  · rw [hmiss, hcomputed, List.countP_append, h.computed, hmisses]
    omega
  · rw [htimings, List.countP_append, ← h.timings, List.countP_singleton]
  · rw [hoffsets, List.countP_append, ← h.offsets, List.countP_singleton]
  · rw [List.map_append, List.sum_append, ← h.batchOk]
    exact hbooks.counter_of_entries rfl fun entry => entry.count_events.1
  · rw [List.map_append, List.sum_append, ← h.batchFailed]
    exact hbooks.counter_of_entries rfl fun entry => entry.count_events.2.1
  · rw [List.map_append, List.sum_append, ← h.syncsOk]
    exact hbooks.counter_of_entries rfl fun entry => entry.count_events.2.2.1
  · rw [List.map_append, List.sum_append, ← h.syncsFailed]
    exact hbooks.counter_of_entries rfl fun entry => entry.count_events.2.2.2

/-- From nothing counted, along every ledger. -/
theorem Ledger.conserved {clock : Instant → Instant → Prop} {start : Service}
    {requests : List Request} {history : List Happening} {entries : List Entry}
    {answers : List Answer} (h : Ledger clock start requests history entries answers s)
    (hstart : start.memory.tally = {})
    (hfaults : ∀ {a b time fault}, Happening.evaluated a b time (.error fault) ∈ history →
      ∃ detail, fault = .computationFailed detail) :
    Conserved requests history entries s.memory.tally := by
  induction h with
  | nil =>
    rw [hstart]
    exact ⟨rfl, rfl, rfl, rfl, rfl, rfl, rfl, rfl⟩
  | snoc _ books _ ih =>
    have hearlier := ih fun hmem => hfaults (List.mem_append_left _ hmem)
    exact hearlier.serve books fun hmem => hfaults (List.mem_append_right _ hmem)

theorem Conserved.syncs_le {requests : List Request} {history : List Happening}
    {entries : List Entry} {t : Tally} (h : Conserved requests history entries t) :
    t.syncsOk ≤ t.batchOk ∧ t.syncsFailed ≤ t.batchFailed := by
  have hentry (entry : Entry) :
      entry.reported.1 ≤ entry.items.1 ∧ entry.reported.2 ≤ entry.items.2 := by
    cases entry <;> simp [Entry.reported, Entry.report, Entry.items, SyncReport.of]
  rw [h.syncsOk, h.batchOk, h.syncsFailed, h.batchFailed]
  exact ⟨List.sum_le_sum fun entry _ => (hentry entry).1,
    List.sum_le_sum fun entry _ => (hentry entry).2⟩

end Service

/-- In every run from an opened service, and so at every point of it: hits and misses of delays are
    the evaluations by all callers, and the misses those computed or failed to be; hits and misses of
    timings and of stored offsets are the requests that look them up; items are the results and the
    faults of all batches, and synchronizations what the reports of all cycles say, which is no more.
    No more delays are stored than were computed. -/
theorem counters_conserved {settings : Settings} {directory : Directory} {access : Access}
    {now : Instant} {metrics : Option Metrics} {start : Service}
    (hstart : Service.start settings directory access now metrics = .ok start)
    {requests : List Request} {history : List Happening} {answers : List Answer} {s : Service}
    (hrun : Service.Run Service.anyTime start requests history answers s) :
    (∃ entries, Service.Ledger Service.anyTime start requests history entries answers s) ∧
    (∀ entries, Service.Ledger Service.anyTime start requests history entries answers s →
      Service.Conserved requests history entries s.memory.tally) ∧
    s.memory.tally.syncsOk ≤ s.memory.tally.batchOk ∧
    s.memory.tally.syncsFailed ≤ s.memory.tally.batchFailed ∧
    s.storedPairs ≤ s.memory.tally.delaysComputed := by
  have hempty := Service.eq_of_start hstart
  have htally : start.memory.tally = {} := by rw [hempty]; rfl
  have hnone : Service.Bounded [] start := by
    rw [hempty]
    exact ⟨Nat.zero_le _, by simp⟩
  have hbounded := hrun.invariant (P := Service.Bounded) (fun h hmove => h.move hmove)
    (fun h _ => ⟨h.stored, h.faults⟩) hnone
  obtain ⟨entries, hledger⟩ := Service.exists_ledger_iff.mpr hrun
  obtain ⟨hok, hfailed⟩ := (hledger.conserved htally hbounded.faults).syncs_le
  exact ⟨⟨entries, hledger⟩, fun entries hledger => hledger.conserved htally hbounded.faults, hok,
    hfailed, hbounded.stored⟩

/-! ## The two nodes -/

open TwoNodes

/-- Evaluations by callers, of a timing and in a cycle, and the counters after them. -/
theorem counters_conserved_two_nodes :
    let requests : List Request :=
      [.delay "a" "b", .consensusTiming ["a", "b"], .timeouts ["b", "a"], .currentOffset "a",
        .sync (.after 0), .storedOffset "b", .batchDelays [lower, upper 0 ground_ok] .never]
    let s := ((service 0 ground_ok).serveAll requests).2
    Service.start {} (directory 0 ground_ok) {} .epoch none = .ok (service 0 ground_ok) ∧
    (∃ history entries, Service.Conserved requests history entries s.memory.tally ∧
      history.countP Happening.isEvaluation = 6) ∧
    s.memory.tally = { delayHits := 5, delayMisses := 1, timingHits := 1, timingMisses := 1,
                       offsetHits := 1, offsetMisses := 1, delaysComputed := 1, batchOk := 3,
                       syncsOk := 2 } := by
  intro requests s
  obtain ⟨history, hrun⟩ := Service.run_serveAll (service 0 ground_ok) requests
  obtain ⟨⟨entries, hledger⟩, hconserved, _⟩ := counters_conserved start_eq hrun
  have htally : s.memory.tally = { delayHits := 5, delayMisses := 1, timingHits := 1,
                                   timingMisses := 1, offsetHits := 1, offsetMisses := 1,
                                   delaysComputed := 1, batchOk := 3, syncsOk := 2 } := by
    decide +kernel
  refine ⟨start_eq, ⟨history, entries, hconserved entries hledger, ?_⟩, htally⟩
  have hevaluations := (hconserved entries hledger).delays
  rw [← hevaluations, htally]
  rfl

end LightCone
