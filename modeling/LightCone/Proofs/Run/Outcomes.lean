import LightCone.Proofs.Run.Interleaving
import LightCone.Proofs.Tables

/-!
What a pool of jobs has come to.

Wherever a batch stops, its outcome holds the jobs that have ended by then and no others. This
file

1. tells the results and the faults of a pool from its jobs (`find?_results`, `find?_failures`),
   and how many there are (`size_results`, `completed_eq_length_iff`);
2. gives the outcome of a pool (`Pool.outcome`), and shows that every batch has the outcome of
   some point of an interleaving (`Batch.exists_stop`), and may stop at any (`Batch.of_stop`);
3. gives the rule by which invariants of interleavings are proved (`Interleaving.invariant`).
-/
namespace LightCone

/-- An outcome is cut off just if fewer items have ended than were launched; else all have. -/
structure BatchOutcome.AddsUp {κ ν : Type} [Key κ] (o : BatchOutcome κ ν) : Prop where
  cut : o.cancelled = true → o.completed < o.total
  whole : o.cancelled = false → o.completed = o.total

namespace Pool

variable {κ ν : Type} {env : Environment} {pool : Pool κ ν}

/-! ## Results and faults -/

/-- The result of a job that has ended well. -/
def resultOf (item : κ × Job (Except Fault ν)) : Option (κ × ν) :=
  match ended item.2 with
  | some (.ok value) => some (item.1, value)
  | _ => none

/-- The fault of a job that has ended with one. -/
def faultOf (item : κ × Job (Except Fault ν)) : Option (κ × Fault) :=
  match ended item.2 with
  | some (.error fault) => some (item.1, fault)
  | _ => none

theorem resultOf_eq_some_iff {item : κ × Job (Except Fault ν)} {key : κ} {value : ν} :
    resultOf item = some (key, value) ↔ item = (key, .done (.ok value)) := by
  obtain ⟨key', job⟩ := item
  rcases job with (_ | _) | _ | _ | _ <;> simp [resultOf, ended]

theorem faultOf_eq_some_iff {item : κ × Job (Except Fault ν)} {key : κ} {fault : Fault} :
    faultOf item = some (key, fault) ↔ item = (key, .done (.error fault)) := by
  obtain ⟨key', job⟩ := item
  rcases job with (_ | _) | _ | _ | _ <;> simp [faultOf, ended]

theorem fst_resultOf {item : κ × Job (Except Fault ν)} {result : κ × ν}
    (h : resultOf item = some result) : result.1 = item.1 :=
  (congrArg Prod.fst (resultOf_eq_some_iff.mp h)).symm

theorem fst_faultOf {item : κ × Job (Except Fault ν)} {fault : κ × Fault}
    (h : faultOf item = some fault) : fault.1 = item.1 :=
  (congrArg Prod.fst (faultOf_eq_some_iff.mp h)).symm

section Outcomes

variable [Key κ] [DecidableEq κ]

/-- The results of a pool are those of its jobs that have ended well. -/
theorem find?_results (h : (pool.map Prod.fst).Nodup) {key : κ} {value : ν} :
    pool.results.find? key = some value ↔ (key, .done (.ok value)) ∈ pool := by
  have hfind := Table.find?_ofList_filterMap (k := key) (v := value) fst_resultOf h
  refine hfind.trans ⟨?_, fun hmem => ⟨_, hmem, rfl⟩⟩
  rintro ⟨item, hmem, hresult⟩
  rwa [resultOf_eq_some_iff.mp hresult] at hmem

theorem find?_failures (h : (pool.map Prod.fst).Nodup) {key : κ} {fault : Fault} :
    pool.failures.find? key = some fault ↔ (key, .done (.error fault)) ∈ pool := by
  have hfind := Table.find?_ofList_filterMap (k := key) (v := fault) fst_faultOf h
  refine hfind.trans ⟨?_, fun hmem => ⟨_, hmem, rfl⟩⟩
  rintro ⟨item, hmem, hfault⟩
  rwa [faultOf_eq_some_iff.mp hfault] at hmem

theorem size_results (h : (pool.map Prod.fst).Nodup) :
    pool.results.size = (pool.filterMap resultOf).length :=
  Table.size_ofList (h.sublist (Table.sublist_keys_filterMap fst_resultOf pool))

theorem size_failures (h : (pool.map Prod.fst).Nodup) :
    pool.failures.size = (pool.filterMap faultOf).length :=
  Table.size_ofList (h.sublist (Table.sublist_keys_filterMap fst_faultOf pool))

/-- There are at most as many results and faults as jobs, and as many just if all have ended. -/
theorem completed_eq_length_iff (h : (pool.map Prod.fst).Nodup) :
    pool.results.size + pool.failures.size ≤ pool.length ∧
      (pool.results.size + pool.failures.size = pool.length ↔
        ∀ item ∈ pool, (ended item.2).isSome = true) := by
  rw [size_results h, size_failures h]
  clear h
  induction pool with
  | nil => simp
  | cons item pool ih =>
    rw [List.forall_mem_cons, List.length_cons]
    cases hended : ended item.2 with
    | none =>
      simp only [resultOf, faultOf, hended, List.filterMap_cons]
      refine ⟨by omega, ⟨fun _ => by omega, fun h => absurd h.1 (by simp)⟩⟩
    | some answer =>
      cases answer with
      | ok value =>
        simp only [resultOf, faultOf, hended, List.filterMap_cons, List.length_cons,
          Option.isSome_some, true_and, ← ih.2]
        omega
      | error fault =>
        simp only [resultOf, faultOf, hended, List.filterMap_cons, List.length_cons,
          Option.isSome_some, true_and, ← ih.2]
        omega

theorem mem_keys_results (h : (pool.map Prod.fst).Nodup) {key : κ} :
    key ∈ pool.results.keys ↔ ∃ value, (key, .done (.ok value)) ∈ pool := by
  rw [Table.mem_keys_iff]
  exact exists_congr fun value => find?_results h

theorem mem_keys_failures (h : (pool.map Prod.fst).Nodup) {key : κ} :
    key ∈ pool.failures.keys ↔ ∃ fault, (key, .done (.error fault)) ∈ pool := by
  rw [Table.mem_keys_iff]
  exact exists_congr fun fault => find?_failures h

/-- No job has both a result and a fault, and none is listed twice. -/
theorem nodup_outcome_keys (h : (pool.map Prod.fst).Nodup) :
    (pool.results.keys ++ pool.failures.keys).Nodup := by
  refine List.nodup_append.mpr ⟨Table.nodup_keys _, Table.nodup_keys _, ?_⟩
  rintro key hresult _ hfailure rfl
  obtain ⟨value, hdone⟩ := (mem_keys_results h).mp hresult
  obtain ⟨fault, hfailed⟩ := (mem_keys_failures h).mp hfailure
  -- Items with one key are one item, which has not ended in two ways.
  have hone := List.inj_on_of_nodup_map h hdone hfailed rfl
  cases hone

/-- Results and faults are those of jobs. -/
theorem mem_keys_of_outcome (h : (pool.map Prod.fst).Nodup) {key : κ}
    (hkey : key ∈ pool.results.keys ++ pool.failures.keys) : key ∈ pool.map Prod.fst := by
  rcases List.mem_append.mp hkey with hkey | hkey
  · obtain ⟨value, hmem⟩ := (mem_keys_results h).mp hkey
    exact List.mem_map_of_mem hmem
  · obtain ⟨fault, hmem⟩ := (mem_keys_failures h).mp hkey
    exact List.mem_map_of_mem hmem

/-! ## Where a batch stops -/

theorem results_of_fresh (h : ∀ item ∈ pool, ended item.2 = none) : pool.results = .empty := by
  have hnone : pool.filterMap resultOf = [] :=
    List.filterMap_eq_nil_iff.mpr fun item hitem => by simp only [resultOf, h item hitem]
  exact congrArg Table.ofList hnone

theorem failures_of_fresh (h : ∀ item ∈ pool, ended item.2 = none) : pool.failures = .empty := by
  have hnone : pool.filterMap faultOf = [] :=
    List.filterMap_eq_nil_iff.mpr fun item hitem => by simp only [faultOf, h item hitem]
  exact congrArg Table.ofList hnone

/-- The outcome of a pool that goes on no further. -/
def outcome (cancel : Cancellation) (pool : Pool κ ν) : BatchOutcome κ ν where
  results := pool.results
  failures := pool.failures
  total := pool.length
  cancelled := decide (cancel ≠ .never) &&
    decide (pool.results.size + pool.failures.size < pool.length)

/-- A batch was cut off if it was cancelled before all its jobs had ended. -/
theorem cancelled_outcome_iff (hkeys : (pool.map Prod.fst).Nodup) {cancel : Cancellation} :
    (pool.outcome cancel).cancelled = true ↔
      cancel ≠ .never ∧ ¬ ∀ item ∈ pool, (ended item.2).isSome = true := by
  obtain ⟨hle, hall⟩ := completed_eq_length_iff hkeys
  simp only [outcome, Bool.and_eq_true, decide_eq_true_eq]
  rw [← hall]
  exact and_congr_right fun _ => ⟨Nat.ne_of_lt, Nat.lt_of_le_of_ne hle⟩

theorem addsUp_outcome {pool : Pool κ ν} {cancel : Cancellation} (hkeys : (pool.map Prod.fst).Nodup)
    (hended : cancel = .never → ∀ item ∈ pool, (ended item.2).isSome = true) :
    (pool.outcome cancel).AddsUp where
  cut h := by
    simp only [outcome, Bool.and_eq_true, decide_eq_true_eq] at h
    exact h.2
  whole h := by
    obtain ⟨hle, hall⟩ := completed_eq_length_iff hkeys
    simp only [outcome, Bool.and_eq_false_iff, decide_eq_false_iff_not, not_not] at h
    rcases h with hnever | hnot
    · exact hall.mpr (hended hnever)
    · exact Nat.le_antisymm hle (Nat.le_of_not_lt hnot)

end Outcomes

theorem Interleaving.keys_eq {x y : Pool κ ν × Memory} {history : List Happening}
    (h : Interleaving env x history y) : y.1.map Prod.fst = x.1.map Prod.fst := by
  induction h with
  | rest x => rfl
  | step _ _ ih => simpa using ih

/-- Without jobs nothing goes on. -/
theorem Interleaving.of_nil {m m' : Memory} {pool : Pool κ ν} {history : List Happening}
    (h : Interleaving env ([], m) history (pool, m')) : history = [] ∧ m' = m := by
  generalize hstart : (([], m) : Pool κ ν × Memory) = x at h
  cases h with
  | rest =>
    cases hstart
    exact ⟨rfl, rfl⟩
  | step _ _ => simp at hstart

/-- What is kept by every step holds wherever an interleaving stops. -/
theorem Interleaving.invariant {P : List Happening → Pool κ ν → Memory → Prop}
    (hstep : ∀ {earlier before after key job m}, ended job = none →
      P earlier (before ++ (key, job) :: after) m →
      P (earlier ++ job.resumed env m) (before ++ (key, (advance env job m).1) :: after)
        (advance env job m).2)
    {x y : Pool κ ν × Memory} {earlier history : List Happening}
    (h : Interleaving env x history y) (hstart : P earlier x.1 x.2) :
    P (earlier ++ history) y.1 y.2 := by
  induction h generalizing earlier with
  | rest x => rwa [List.append_nil]
  | step hjob _ ih =>
    rw [← List.append_assoc]
    exact ih (hstep hjob hstart)

/-- Every batch stops at some point of an interleaving, which is its end if it is never
    cancelled. -/
theorem Batch.exists_stop [Key κ] [DecidableEq κ] {jobs : Pool κ ν} {cancel : Cancellation}
    {m m' : Memory} {history : List Happening} {o : BatchOutcome κ ν}
    (h : Batch env jobs cancel m history o m') (hfresh : ∀ item ∈ jobs, ended item.2 = none) :
    ∃ pool, Interleaving env (jobs, m) history (pool, m') ∧ o = pool.outcome cancel ∧
      (cancel = .never → ∀ item ∈ pool, (ended item.2).isSome = true) := by
  cases h with
  | idle hjobs =>
    subst hjobs
    exact ⟨[], .rest _, by simp [outcome, results, failures, Table.ofList, Table.size, Table.empty],
      fun _ => by simp⟩
  | refused hjobs hcancel =>
    subst hcancel
    refine ⟨jobs, .rest _, ?_, fun hnever => by cases hnever⟩
    have hsome : 0 < jobs.length := List.length_pos_iff.mpr hjobs
    simp [outcome, results_of_fresh hfresh, failures_of_fresh hfresh, Table.size, Table.empty, hsome]
  | @ran _ pool _ _ _ run hended =>
    have hlength : pool.length = jobs.length := by
      have hkeys := congrArg List.length run.keys_eq
      simpa using hkeys
    exact ⟨pool, run, by rw [outcome, hlength], hended⟩

/-- Wherever an interleaving is, a batch may stop there. -/
theorem Batch.of_stop [Key κ] [DecidableEq κ] {jobs pool : Pool κ ν} {cancel : Cancellation}
    {m m' : Memory} {history : List Happening} (run : Interleaving env (jobs, m) history (pool, m'))
    (hcancel : cancel ≠ .before)
    (hended : cancel = .never → ∀ item ∈ pool, (ended item.2).isSome = true) :
    Batch env jobs cancel m history (pool.outcome cancel) m' := by
  have hkeys : pool.map Prod.fst = jobs.map Prod.fst := run.keys_eq
  have hlength : pool.length = jobs.length := by simpa using congrArg List.length hkeys
  by_cases hjobs : jobs = []
  · subst hjobs
    obtain rfl := List.length_eq_zero_iff.mp hlength
    obtain ⟨rfl, rfl⟩ := run.of_nil
    have hidle : Pool.outcome cancel ([] : Pool κ ν) = ⟨.empty, .empty, 0, false⟩ := by
      simp [outcome, results, failures, Table.ofList, Table.size, Table.empty]
    rw [hidle]
    exact .idle rfl
  · rw [outcome, hlength]
    exact .ran hjobs hcancel run hended

/-- The outcome of a batch has results and faults of its jobs only, each of one job. -/
theorem Batch.keys_outcome [Key κ] [DecidableEq κ] {jobs : Pool κ ν} {cancel : Cancellation}
    {m m' : Memory} {history : List Happening} {o : BatchOutcome κ ν}
    (h : Batch env jobs cancel m history o m') (hfresh : ∀ item ∈ jobs, ended item.2 = none)
    (hkeys : (jobs.map Prod.fst).Nodup) :
    o.total = jobs.length ∧ (∀ key ∈ o.results.keys ++ o.failures.keys, key ∈ jobs.map Prod.fst) ∧
      (o.results.keys ++ o.failures.keys).Nodup := by
  obtain ⟨pool, run, rfl, _⟩ := h.exists_stop hfresh
  have hsame : pool.map Prod.fst = jobs.map Prod.fst := run.keys_eq
  have hpool : (pool.map Prod.fst).Nodup := hsame ▸ hkeys
  have hlength : pool.length = jobs.length := by simpa using congrArg List.length hsame
  exact ⟨hlength, fun key hkey => hsame ▸ mem_keys_of_outcome hpool hkey, nodup_outcome_keys hpool⟩

theorem Batch.addsUp [Key κ] [DecidableEq κ] {jobs : Pool κ ν} {cancel : Cancellation}
    {m m' : Memory} {history : List Happening} {o : BatchOutcome κ ν}
    (h : Batch env jobs cancel m history o m') (hfresh : ∀ item ∈ jobs, ended item.2 = none)
    (hkeys : (jobs.map Prod.fst).Nodup) : o.AddsUp := by
  obtain ⟨pool, run, rfl, hended⟩ := h.exists_stop hfresh
  have hpool : (pool.map Prod.fst).Nodup := run.keys_eq ▸ hkeys
  exact addsUp_outcome hpool hended

end Pool
end LightCone
