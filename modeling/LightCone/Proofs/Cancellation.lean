import LightCone.Proofs.NodePairs
import LightCone.Proofs.Run.Finishing
import LightCone.Proofs.Run.KeptRecords
import LightCone.Proofs.Run.TwoNodes

/-!
Batches that are cut off.

A batch may be told to stop before its start or at any time, and its jobs may have come to any
point by then. This file

1. says how an outcome sums up, and shows that what a batch reports is what it would have
   reported for the same items had it gone on (`Pool.Accounted`, `Pool.Batch.accounted`);
2. concludes that a batch of delays or of offsets loses nothing that has ended and invents
   nothing, wherever it stops, and that the offsets it stores are those it reports
   (`batches_account_for_ended_jobs`).
-/
namespace LightCone

/-! ## Outcomes in themselves -/

namespace BatchOutcome

variable {κ ν : Type} [Key κ] {o : BatchOutcome κ ν}

theorem AddsUp.isComplete_iff (h : o.AddsUp) : o.isComplete = true ↔ o.results.size = o.total := by
  cases hcancelled : o.cancelled with
  | true =>
    have hcut := h.cut hcancelled
    simp only [completed] at hcut
    simp only [isComplete, hcancelled, Bool.not_true, Bool.false_and, Bool.false_eq_true, false_iff]
    omega
  | false => simp [isComplete, hcancelled]

theorem AddsUp.fault_eq_none_iff (h : o.AddsUp) : o.fault = none ↔ o.isComplete = true := by
  rw [h.isComplete_iff]
  cases hcancelled : o.cancelled with
  | true =>
    have hcut := h.cut hcancelled
    simp only [completed] at hcut
    simp only [fault, hcancelled, if_true, reduceCtorEq, false_iff]
    omega
  | false =>
    have hwhole := h.whole hcancelled
    simp only [completed] at hwhole
    simp only [fault, hcancelled, Bool.false_eq_true, if_false]
    split
    · simp only [reduceCtorEq, false_iff]
      omega
    · simp only [true_iff]
      omega

theorem toExcept_eq_ok_iff : o.toExcept = .ok o.results ↔ o.fault = none := by
  unfold toExcept
  cases o.fault <;> simp

/-- What kept a batch from being complete: it was cut off, or every item that has not succeeded
    has failed. -/
theorem AddsUp.fault_eq_of_some (h : o.AddsUp) {fault : Fault} (hfault : o.fault = some fault) :
    fault = if o.cancelled then .cancelled (o.results.size + o.failures.size) o.total
      else .partialBatch o.failures.size o.total := by
  cases hcancelled : o.cancelled with
  | true =>
    simp only [BatchOutcome.fault, hcancelled, if_true, Option.some.injEq] at hfault
    exact hfault.symm
  | false =>
    have hwhole := h.whole hcancelled
    simp only [completed] at hwhole
    simp only [BatchOutcome.fault, hcancelled, Bool.false_eq_true, if_false,
      Option.ite_none_right_eq_some, Option.some.injEq] at hfault
    have hfailed : o.total - o.results.size = o.failures.size := by omega
    rw [← hfault.2, hfailed]
    rfl

end BatchOutcome

/-! ## Outcomes of batches that stopped somewhere -/

namespace Pool

variable {κ ν : Type} [Key κ] [DecidableEq κ] {env : Environment} {known : Node → Prop}
  {owns : κ → String → Prop}

/-- What can be said of a batch wherever it stops. -/
structure Accounted (env : Environment) (jobs : Pool κ ν) (cancel : Cancellation) (m m' : Memory)
    (history : List Happening) (o : BatchOutcome κ ν) : Prop where
  total : o.total = jobs.length
  /-- No item is reported twice, and none both as a result and as a fault. -/
  keys : (o.results.keys ++ o.failures.keys).Nodup
  launched : ∀ key ∈ o.results.keys ++ o.failures.keys, key ∈ jobs.map Prod.fst
  /-- Reported are the jobs that have ended by then, with what they have ended with. -/
  ended : ∃ pool, Interleaving env (jobs, m) history (pool, m') ∧
    (∀ key value, o.results.find? key = some value ↔ (key, .done (.ok value)) ∈ pool) ∧
    ∀ key fault, o.failures.find? key = some fault ↔ (key, .done (.error fault)) ∈ pool
  /-- The batch reports the same of them when it is not cancelled, in whatever order it runs. -/
  agrees : ∀ ⦃history' o' m''⦄, Batch env jobs .never m history' o' m'' →
    (∀ key value, o.results.find? key = some value → o'.results.find? key = some value) ∧
    ∀ key fault, o.failures.find? key = some fault → o'.failures.find? key = some fault
  cancelled : o.cancelled = true ↔ cancel ≠ .never ∧ o.results.size + o.failures.size < o.total
  complete : o.isComplete = true ↔ ∀ key ∈ jobs.map Prod.fst, (o.results.find? key).isSome = true
  fault_none : o.fault = none ↔ o.isComplete = true
  toExcept_ok : o.toExcept = .ok o.results ↔ o.isComplete = true
  fault_some : ∀ fault, o.fault = some fault → fault =
    if o.cancelled then .cancelled (o.results.size + o.failures.size) o.total
    else .partialBatch o.failures.size o.total
  counted : m'.tally.batchOk = m.tally.batchOk + o.results.size ∧
    m'.tally.batchFailed = m.tally.batchFailed + o.failures.size

/-- As many results as jobs: every job has ended well. -/
theorem size_results_eq_length_iff {pool : Pool κ ν} (hkeys : (pool.map Prod.fst).Nodup) :
    pool.results.size = pool.length ↔
      ∀ key ∈ pool.map Prod.fst, (pool.results.find? key).isSome = true := by
  rw [size_results hkeys, List.filterMap_length_eq_length]
  refine ⟨?_, ?_⟩
  · intro h key hkey
    obtain ⟨item, hitem, rfl⟩ := List.mem_map.mp hkey
    obtain ⟨⟨key, value⟩, hresult⟩ := Option.isSome_iff_exists.mp (h item hitem)
    rw [resultOf_eq_some_iff.mp hresult] at hitem ⊢
    rw [(find?_results hkeys).mpr hitem]
    rfl
  · intro h item hitem
    obtain ⟨value, hfind⟩ := Option.isSome_iff_exists.mp (h item.1 (List.mem_map_of_mem hitem))
    have hone := List.inj_on_of_nodup_map hkeys hitem ((find?_results hkeys).mp hfind) rfl
    rw [resultOf_eq_some_iff.mpr hone]
    rfl

theorem Batch.accounted {jobs : Pool κ ν} {cancel : Cancellation} {m m' : Memory}
    {history : List Happening} {o : BatchOutcome κ ν} (h : Batch env jobs cancel m history o m')
    (hknown : ToldApart known) (hjobs : Separate env known owns jobs)
    (hfresh : ∀ item ∈ jobs, Pool.ended item.2 = none) :
    Accounted env jobs cancel m m' history o := by
  have hitems := h.counted_items hfresh hjobs.nodup
  have haddsUp := h.addsUp hfresh hjobs.nodup
  obtain ⟨htotal, hlaunched, hdistinct⟩ := h.keys_outcome hfresh hjobs.nodup
  obtain ⟨pool, run, rfl, hended⟩ := h.exists_stop hfresh
  have hsame : pool.map Prod.fst = jobs.map Prod.fst := run.keys_eq
  have hkeys : (pool.map Prod.fst).Nodup := hsame ▸ hjobs.nodup
  have hfinish : finish env pool m' = finish env jobs m := finish_interleaving hknown run hjobs
  refine
    { total := htotal
      keys := hdistinct
      launched := hlaunched
      ended := ⟨pool, run, fun _ _ => find?_results hkeys, fun _ _ => find?_failures hkeys⟩
      agrees := ?_
      cancelled := by simp [outcome]
      complete := ?_
      fault_none := haddsUp.fault_eq_none_iff
      toExcept_ok := BatchOutcome.toExcept_eq_ok_iff.trans haddsUp.fault_eq_none_iff
      fault_some := fun fault => haddsUp.fault_eq_of_some
      counted := hitems }
  -- Both batches report what comes of finishing the jobs one after another.
  · intro history' o' m'' hwhole
    obtain ⟨_, hresults, hfailures, _⟩ := finish_batch hknown hjobs hwhole
    refine ⟨fun key value hfind => ?_, fun key fault hfind => ?_⟩
    · rw [hresults, ← hfinish]
      exact mem_finish_of_done m' ((find?_results hkeys).mp hfind)
    · rw [hfailures, ← hfinish]
      exact mem_finish_of_done m' ((find?_failures hkeys).mp hfind)
  · rw [haddsUp.isComplete_iff, ← hsame]
    exact size_results_eq_length_iff hkeys

end Pool

/-! ## Batches of delays -/

/-- The jobs of a batch of delays evaluate the nodes of the batch and keep nothing. -/
theorem separate_pairJobs (env : Environment) (nodes : List Node) :
    Pool.Separate env (· ∈ distinctNodes nodes) (fun _ _ => False) (pairJobs nodes) where
  nodup := nodup_keys_pairJobs nodes
  apart := fun _ _ _ _ h => h.elim
  alone := by
    intro item hitem
    obtain ⟨⟨a, b⟩, hpair, rfl⟩ := List.mem_map.mp hitem
    refine ⟨fun answer => ⟨?_, trivial⟩, mem_of_mem_pairsOf hpair, fun _ => trivial⟩
    cases answer <;> rfl

theorem Pool.Batch.nothing_kept {env : Environment} {nodes : List Node} {cancel : Cancellation}
    {m m' : Memory} {history : List Happening} {o : BatchOutcome NodePair Duration}
    (h : Batch env (pairJobs nodes) cancel m history o m') : keptOf history = [] := by
  refine List.eq_nil_iff_forall_not_mem.mpr fun record hmem => ?_
  exact h.allowed (meets_pairJobs (fun _ => False) nodes) _ (mem_keptOf.mp hmem)

/-! ## Every batch -/

/-- A batch of delays or of offsets, over a directory whose records stand under their own ids and
    with any memory at the start, may be told to stop at any time, while its jobs interleave in any
    order. It then accounts for the jobs that have ended and for no others; a batch of delays keeps
    no offset, and a batch of offsets keeps the records that are its results, and leaves the offsets
    of all other nodes as they were. The batches that the service runs, with its lookups answered in
    rounds, are among these. -/
theorem batches_account_for_ended_jobs {s : Service} (hkeyed : s.env.directory.Keyed)
    (cancel : Cancellation) :
    (∀ nodes history o m, Pool.Batch s.env (pairJobs nodes) cancel s.memory history o m →
      Pool.Accounted s.env (pairJobs nodes) cancel s.memory m history o ∧
      (∀ record, .kept record ∉ history) ∧ m.offsets = s.memory.offsets) ∧
    (∀ ids references history o m,
      Pool.Batch s.env (offsetJobs ids references s.now) cancel s.memory history o m →
      Pool.Accounted s.env (offsetJobs ids references s.now) cancel s.memory m history o ∧
      (∀ record, .kept record ∈ history ↔ o.results.find? record.id = some record) ∧
      ∀ id, m.offsets.entries.find? id =
        match o.results.find? id with
        | some record => some ⟨record, s.now, s.now.addCapped s.memory.offsets.lifetime⟩
        | none => s.memory.offsets.entries.find? id) ∧
    (∀ nodes, ∃ history, Pool.Batch s.env (pairJobs nodes) cancel s.memory history
      (s.batchDelays nodes cancel).1 (s.batchDelays nodes cancel).2.memory) ∧
    ∀ ids references, ∃ history,
      Pool.Batch s.env (offsetJobs ids references s.now) cancel s.memory history
        (s.batchOffsets ids references cancel).1 (s.batchOffsets ids references cancel).2.memory := by
  have henv := Environment.keyed_of_directory hkeyed
  refine ⟨?_, ?_, fun nodes => Service.batch_pairJobs s.env nodes cancel s.memory,
    fun ids references => Service.batch_offsetJobs s.env ids references s.now cancel s.memory⟩
  · intro nodes history o m hbatch
    have hnone := hbatch.nothing_kept
    refine ⟨hbatch.accounted ?_ (separate_pairJobs s.env nodes) (fresh_pairJobs nodes), ?_, ?_⟩
    · exact fun a b ha hb hid => eq_of_mem_distinctNodes ha hb hid
    · intro record hmem
      rw [← mem_keptOf, hnone] at hmem
      exact absurd hmem List.not_mem_nil
    · rw [hbatch.offsets_eq, hnone]
      rfl
  · intro ids references history o m hbatch
    have hnodup : (distinctIds ids).Nodup := (sorted_distinctIds ids).imp String.ne_of_lt
    obtain ⟨hkept, hown⟩ := hbatch.kept_results
    refine ⟨hbatch.accounted henv.toldApart_finds
      (separate_offsetJobs s.env hnodup references s.now) fresh_offsetJobs,
      fun record => mem_keptOf.symm.trans (hkept record), fun id => ?_⟩
    rw [hbatch.offsets_eq]
    rcases find?_keepAll s.now (keptOf history) s.memory.offsets id with
      ⟨record, hmem, rfl, hfind⟩ | ⟨hother, hfind⟩
    · rw [(hkept record).mp hmem]
      exact hfind
    · have hnone : o.results.find? id = none := by
        refine Option.eq_none_iff_forall_ne_some.mpr fun record hresult => ?_
        obtain rfl := hown hresult
        exact hother record ((hkept record).mpr hresult) rfl
      rw [hnone]
      exact hfind

/-! ## A batch cut off among three nodes -/

namespace TwoNodes

/-- A node between the two. -/
def middle : Node := ⟨"m", above 0 ground_ok, true, .epoch⟩

/-- The two nodes with the third, behind lookups that take ten milliseconds and fail for one id. -/
def slowService : Service :=
  ⟨⟨{}, ⟨(directory 0 ground_ok).nodes.insert "m" middle⟩, ⟨10, ["c"]⟩, .epoch⟩, .initial {} none⟩

theorem keyed_slowService : slowService.env.directory.Keyed := by
  have hkeyed : (directory 0 ground_ok).Keyed := .ofList ofList_eq
  show Directory.Keyed ⟨(directory 0 ground_ok).nodes.insert middle.id middle⟩
  exact hkeyed.insert

end TwoNodes

open TwoNodes

/-- Three nodes measured against the two until the second round of lookups: one has its offset, which
    is stored, one has failed, and one is cut off. -/
theorem batches_account_for_two_of_three :
    let (o, s') := slowService.batchOffsets ["a", "c", "m"] ["a", "b"] (.after 25)
    slowService.env.directory.Keyed ∧
    (∃ history, Pool.Accounted slowService.env (offsetJobs ["a", "c", "m"] ["a", "b"] .epoch)
      (.after 25) slowService.memory s'.memory history o) ∧
    o.results.keys = ["a"] ∧ o.failures.keys = ["c"] ∧ o.cancelled = true ∧
    s'.memory.offsets.entries.find? "m" = none ∧
    (s'.memory.offsets.entries.find? "a").isSome = true := by
  obtain ⟨_, hoffsets, _, hserved⟩ := batches_account_for_ended_jobs keyed_slowService (.after 25)
  obtain ⟨history, hbatch⟩ := hserved ["a", "c", "m"] ["a", "b"]
  obtain ⟨haccounted, _⟩ := hoffsets _ _ _ _ _ hbatch
  refine ⟨keyed_slowService, ⟨history, haccounted⟩, by decide +kernel, by decide +kernel,
    by decide +kernel, by decide +kernel, by decide +kernel⟩

end LightCone
