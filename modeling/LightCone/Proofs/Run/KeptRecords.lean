import LightCone.Proofs.Run.Counting
import LightCone.Proofs.Run.Effects

/-!
The records that the jobs of a batch keep.

Jobs of offsets keep a record each, if all goes well. This file

1. lists the records of a history (`keptOf`), and shows that the offsets after a batch are those
   before it with these put in (`Pool.Batch.offsets_eq`);
2. shows that a job which keeps a record ends with it in the same step (`Job.KeepsResult`), so
   that a batch that stops has kept the records that are its results (`Pool.Batch.kept_results`).
-/
namespace LightCone

/-! ## Offsets after a batch -/

/-- The records that were kept, in order. -/
def keptOf (history : List Happening) : List NodeOffset :=
  history.filterMap fun
    | .kept record => some record
    | _ => none

theorem mem_keptOf {history : List Happening} {record : NodeOffset} :
    record ∈ keptOf history ↔ .kept record ∈ history := by
  simp only [keptOf, List.mem_filterMap]
  refine ⟨?_, fun h => ⟨_, h, rfl⟩⟩
  rintro ⟨happening, hmem, hsame⟩
  cases happening <;> cases hsame
  exact hmem

theorem keptOf_append (history later : List Happening) :
    keptOf (history ++ later) = keptOf history ++ keptOf later := List.filterMap_append

/-- The offsets after some records were kept at one time. -/
def keepAll (now : Instant) (records : List NodeOffset) (offsets : ExpiringCache String NodeOffset) :
    ExpiringCache String NodeOffset :=
  records.foldl (fun c record => c.insert record.id record now) offsets

theorem keepAll_append (now : Instant) (records later : List NodeOffset)
    (offsets : ExpiringCache String NodeOffset) :
    keepAll now (records ++ later) offsets = keepAll now later (keepAll now records offsets) :=
  List.foldl_append

theorem lifetime_keepAll (now : Instant) (records : List NodeOffset)
    (offsets : ExpiringCache String NodeOffset) :
    (keepAll now records offsets).lifetime = offsets.lifetime := by
  induction records generalizing offsets with
  | nil => rfl
  | cons record rest ih => exact ih _

/-- Of each node that has a kept record one of them is stored, and of the others what was before. -/
theorem find?_keepAll (now : Instant) (records : List NodeOffset)
    (offsets : ExpiringCache String NodeOffset) (id : String) :
    (∃ record ∈ records, record.id = id ∧ (keepAll now records offsets).entries.find? id =
      some ⟨record, now, now.addCapped offsets.lifetime⟩) ∨
    ((∀ record ∈ records, record.id ≠ id) ∧
      (keepAll now records offsets).entries.find? id = offsets.entries.find? id) := by
  induction records using List.reverseRecOn with
  | nil => exact .inr ⟨by simp, rfl⟩
  | append_singleton records last ih =>
    have hfind : (keepAll now (records ++ [last]) offsets).entries.find? id =
        if last.id = id then some ⟨last, now, now.addCapped offsets.lifetime⟩
        else (keepAll now records offsets).entries.find? id := by
      rw [keepAll_append, ← lifetime_keepAll now records offsets]
      exact Table.find?_insert ..
    rw [hfind]
    by_cases hlast : last.id = id
    · exact .inl ⟨last, by simp, hlast, if_pos hlast⟩
    · rw [if_neg hlast]
      rcases ih with ⟨record, hmem, hrest⟩ | ⟨hother, hrest⟩
      · exact .inl ⟨record, by simp [hmem], hrest⟩
      · refine .inr ⟨?_, hrest⟩
        intro record hmem
        rcases List.mem_append.mp hmem with hmem | hmem
        · exact hother record hmem
        · rwa [List.mem_singleton.mp hmem]

section Offsets

variable {α κ ν : Type} {env : Environment}

theorem offsets_trace (job : Job α) (limit : Option Nat) (m : Memory) :
    (job.trace env limit m).2.offsets =
      keepAll env.now (keptOf (job.trace env limit m).1) m.offsets := by
  induction job generalizing limit m with
  | done value => cases limit <;> rfl
  | lookup id next ih =>
    match limit with
    | none => exact ih _ none m
    | some 0 => rfl
    | some (n + 1) => exact ih _ (some n) m
  | delay a b next ih =>
    have hframe := (m.evaluate_frame env a b).2.1
    simp only [Job.trace]
    rw [ih, hframe]
    rfl
  | keep record next ih =>
    simp only [Job.trace]
    rw [ih]
    rfl

theorem offsets_resume (job : Job α) (m : Memory) : (job.resume env m).2.offsets =
    keepAll env.now (keptOf (job.resumed env m)) m.offsets := by
  obtain ⟨rest, hresume, hresumed⟩ := job.exists_settle env m
  rw [hresume, hresumed, Job.settle_snd]
  exact offsets_trace rest _ m

namespace Pool

theorem offsets_countEnded (job : Job (Except Fault ν)) (m : Memory) :
    (countEnded job m).offsets = m.offsets := by
  unfold countEnded
  split <;> rfl

/-- The offsets after a batch are those before it with the kept records put in. -/
theorem Batch.offsets_eq [Key κ] [DecidableEq κ] {jobs : Pool κ ν} {cancel : Cancellation}
    {m m' : Memory} {history : List Happening} {o : BatchOutcome κ ν}
    (h : Batch env jobs cancel m history o m') :
    m'.offsets = keepAll env.now (keptOf history) m.offsets := by
  cases h with
  | idle => rfl
  | refused => rfl
  | ran _ _ run =>
    have hstep {earlier : List Happening} {job : Job (Except Fault ν)} {m₁ : Memory}
        (hearlier : m₁.offsets = keepAll env.now (keptOf earlier) m.offsets) :
        (Pool.advance env job m₁).2.offsets =
          keepAll env.now (keptOf (earlier ++ job.resumed env m₁)) m.offsets := by
      rw [keptOf_append, keepAll_append, ← hearlier]
      exact (offsets_countEnded _ _).trans (offsets_resume job m₁)
    have hstart : m.offsets = keepAll env.now (keptOf []) m.offsets := rfl
    exact run.invariant
      (P := fun earlier _ m₁ => m₁.offsets = keepAll env.now (keptOf earlier) m.offsets)
      (fun _ => hstep) hstart

end Pool
end Offsets

/-! ## Records of results -/

/-- A job for a node keeps no record before its last step, in which it ends with the one that it
    keeps. -/
def Job.KeepsResult (env : Environment) (id : String) : Job (Except Fault NodeOffset) → Prop
  | .done answer => ∃ fault, answer = .error fault
  | .lookup asked next => (next (env.answer asked)).KeepsResult env id
  | .delay _ _ next => ∀ answer, (next answer).KeepsResult env id
  | .keep record next => record.id = id ∧ next = .done (.ok record)

section KeepsResult

variable {env : Environment} {id : String} {job : Job (Except Fault NodeOffset)}

/-- A job that keeps nothing, followed by one that keeps its result. -/
theorem keepsResult_bind {α : Type} {evaluates : Node → Node → Prop} {post : α → Prop} {job : Job α}
    {f : α → Job (Except Fault NodeOffset)} (h : job.Meets env ⟨evaluates, fun _ => False⟩ post)
    (hf : ∀ value, (f value).KeepsResult env id) : (job.bind f).KeepsResult env id := by
  induction job with
  | done value => exact hf value
  | lookup asked next ih => exact ih _ h
  | delay a b next ih => exact fun answer => ih answer (h.2 answer)
  | keep record next ih => exact h.1.elim

theorem keepsResult_offsetJob (id : String) (references : List String) (now : Instant) :
    (offsetJob id references now).KeepsResult env id := by
  simp only [offsetJob, Job.KeepsResult]
  cases hanswer : env.answer id with
  | error fault => exact ⟨fault, rfl⟩
  | ok node =>
    have hmeasure := meets_measureJob (fun _ => False) ⟨id, hanswer⟩ (referencesOf id references)
    refine keepsResult_bind hmeasure fun ms => ?_
    cases hoffset : offsetOf node id ms now with
    | error fault => exact ⟨fault, rfl⟩
    | ok record => exact ⟨(offsetOf_eq_ok hoffset).1, rfl⟩

/-- Until its next lookup such a job keeps nothing, or it keeps one record and ends with it. -/
theorem Job.KeepsResult.settle (h : job.KeepsResult env id) (m : Memory) :
    (keptOf (job.trace env (some 0) m).1 = [] ∧ (job.settle env m).1.KeepsResult env id) ∨
    ∃ record, record.id = id ∧ keptOf (job.trace env (some 0) m).1 = [record] ∧
      (job.settle env m).1 = .done (.ok record) := by
  induction job generalizing m with
  | done answer => exact .inl ⟨rfl, h⟩
  | lookup asked next ih => exact .inl ⟨rfl, h⟩
  | delay a b next ih => exact ih _ (h _) _
  | keep record next ih =>
    obtain ⟨hid, rfl⟩ := h
    exact .inr ⟨record, hid, rfl, rfl⟩

theorem Job.KeepsResult.advance (h : job.KeepsResult env id) (m : Memory) :
    (keptOf (job.resumed env m) = [] ∧ (Pool.advance env job m).1.KeepsResult env id) ∨
    ∃ record, record.id = id ∧ keptOf (job.resumed env m) = [record] ∧
      (Pool.advance env job m).1 = .done (.ok record) := by
  cases job with
  | done answer => exact settle h m
  | lookup asked next =>
    have hnext : (next (env.answer asked)).KeepsResult env id := h
    exact hnext.settle m
  | delay a b next => exact settle h m
  | keep record next => exact settle h m

/-- A job that has still to keep its result has not ended with one. -/
theorem Job.KeepsResult.ne_done (h : job.KeepsResult env id) (record : NodeOffset) :
    job ≠ .done (.ok record) := by
  rintro rfl
  obtain ⟨fault, hfault⟩ := h
  cases hfault

namespace Pool

/-- The records kept so far are the results of the jobs that have ended, and the others have still
    to keep theirs. -/
structure KeptResults (env : Environment) (earlier : List Happening)
    (pool : Pool String NodeOffset) : Prop where
  kept : ∀ record, record ∈ keptOf earlier ↔ (record.id, .done (.ok record)) ∈ pool
  own : ∀ item ∈ pool, ∀ record, item.2 = .done (.ok record) → record.id = item.1
  jobs : ∀ item ∈ pool, ended item.2 = none → item.2.KeepsResult env item.1

theorem KeptResults.step {earlier : List Happening} {before after : Pool String NodeOffset}
    {key : String} (hjob : ended job = none) {m : Memory}
    (h : KeptResults env earlier (before ++ (key, job) :: after)) :
    KeptResults env (earlier ++ job.resumed env m)
      (before ++ (key, (Pool.advance env job m).1) :: after) := by
  have hkeeps : job.KeepsResult env key := h.jobs (key, job) (by simp) hjob
  have hmem (item job') : item ∈ before ++ (key, job') :: after ↔
      item = (key, job') ∨ item ∈ before ++ after := by
    simp only [List.mem_append, List.mem_cons]
    exact or_left_comm
  have hearlier (record) : record ∈ keptOf earlier ↔
      (record.id, .done (.ok record)) ∈ before ++ after := by
    rw [h.kept, hmem]
    refine or_iff_right fun hsame => ?_
    cases hsame
    cases hjob
  refine ⟨fun record => ?_, fun item hitem record hdone => ?_, fun item hitem hended => ?_⟩
  · rw [keptOf_append, List.mem_append, hearlier, hmem]
    rcases hkeeps.advance m with ⟨hnone, hlater⟩ | ⟨result, rfl, hone, hdone⟩
    · rw [hnone]
      have hne := hlater.ne_done record
      simp [hne.symm]
    · rw [hone, hdone, or_comm, List.mem_singleton]
      refine or_congr_left ⟨?_, ?_⟩
      · rintro rfl
        rfl
      · intro hsame
        cases congrArg Prod.snd hsame
        rfl
  · rcases (hmem _ _).mp hitem with rfl | hother
    · rcases hkeeps.advance m with ⟨_, hlater⟩ | ⟨result, hid, _, hresult⟩
      · exact absurd hdone (hlater.ne_done record)
      · cases hresult.symm.trans hdone
        exact hid
    · exact h.own item ((hmem _ _).mpr (.inr hother)) record hdone
  · rcases (hmem _ _).mp hitem with rfl | hother
    · rcases hkeeps.advance m with ⟨_, hlater⟩ | ⟨result, _, _, hdone⟩
      · exact hlater
      · rw [hdone] at hended
        cases hended
    · exact h.jobs item ((hmem _ _).mpr (.inr hother)) hended

theorem keptResults_offsetJobs (ids references : List String) (now : Instant) :
    KeptResults env [] (offsetJobs ids references now) where
  kept := by
    refine fun record => ⟨fun hmem => absurd hmem List.not_mem_nil, fun hmem => ?_⟩
    have hended := fresh_offsetJobs _ hmem
    cases hended
  own := by
    intro item hitem record hdone
    have hended := fresh_offsetJobs _ hitem
    rw [hdone] at hended
    cases hended
  jobs := by
    intro item hitem _
    obtain ⟨id, _, rfl⟩ := List.mem_map.mp hitem
    exact keepsResult_offsetJob id references now

/-- The records that a batch of offsets keeps are its results, each that of its node. -/
theorem Batch.kept_results {ids references : List String} {now : Instant} {cancel : Cancellation}
    {m m' : Memory} {history : List Happening} {o : BatchOutcome String NodeOffset}
    (h : Batch env (offsetJobs ids references now) cancel m history o m') :
    (∀ record, record ∈ keptOf history ↔ o.results.find? record.id = some record) ∧
      ∀ {id record}, o.results.find? id = some record → record.id = id := by
  obtain ⟨pool, run, rfl, _⟩ := h.exists_stop fresh_offsetJobs
  have hkeys : (pool.map Prod.fst).Nodup := run.keys_eq ▸ nodup_keys_offsetJobs
  have hkept := run.invariant (P := fun earlier pool _ => KeptResults env earlier pool)
    (fun hjob hearlier => hearlier.step hjob) (keptResults_offsetJobs ids references now)
  refine ⟨fun record => (hkept.kept record).trans (find?_results hkeys).symm, ?_⟩
  intro id record hfind
  exact hkept.own _ ((find?_results hkeys).mp hfind) record rfl

end Pool
end KeepsResult

end LightCone
