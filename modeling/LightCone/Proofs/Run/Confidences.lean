import LightCone.Proofs.Run.Effects
import LightCone.Proofs.Sums
import LightCone.Proofs.Weights

/-!
The confidences of stored offsets.

A stored offset was calculated from measurements at some time before, and has their mean confidence.
This file

1. shows that what is calculated from measurements has a confidence from zero to one
   (`inUnit_of_offsetOf`);
2. so has every record that is kept while a request is served (`Service.Serves.sure_of_kept`);
3. concludes the same for every offset that is stored after a run, since it was kept in it
   (`Service.Run.sure_of_known`).
-/
namespace LightCone

open Binary64 (InUnit hasValue_zero hasValue_one)

/-! ## Calculated records -/

/-- The mean confidence of measurements is from zero to one. -/
theorem inUnit_of_weightedHalfDelay {ms : List Measurement} (h : ∀ m ∈ ms, Weighs m.confidence)
    {offset : Duration} {confidence : Binary64}
    (hmean : weightedHalfDelay ms = some (offset, confidence)) : InUnit confidence := by
  have hsome : ms ≠ [] := by
    rintro rfl
    have hnone : weightedHalfDelay [] = none :=
      if_pos ((hasValue_zero.le_iff hasValue_zero).mpr le_rfl)
    rw [hnone] at hmean
    cases hmean
  obtain ⟨w, hw, hnonneg, hlimit, -⟩ := exists_hasValue_weight h
  have hsmall : |w| ≤ 2 ^ 66 := by
    rw [abs_of_nonneg hnonneg]
    linarith
  obtain ⟨q, hq, -⟩ := exists_hasValue_div hw hsmall (List.length_pos_iff.mpr hsome)
  have hclamp := hq.clamp hasValue_zero hasValue_one zero_le_one
  simp only [weightedHalfDelay] at hmean
  split at hmean
  · cases hmean
  · cases hmean
    exact hclamp.inUnit (le_max_left _ _) (max_le zero_le_one (min_le_right _ _))

theorem inUnit_of_offsetOf {node : Node} {id : String} {ms : List Measurement} {now : Instant}
    {record : NodeOffset} (h : ∀ m ∈ ms, Weighs m.confidence)
    (hrecord : offsetOf node id ms now = .ok record) : InUnit record.confidence := by
  simp only [offsetOf] at hrecord
  split at hrecord
  · cases hrecord
  · next hmean =>
    cases hrecord
    exact inUnit_of_weightedHalfDelay h hmean

/-! ## Kept records -/

/-- The confidence of a record is from zero to one. -/
def Sure (record : NodeOffset) : Prop := InUnit record.confidence

section Jobs

variable {env : Environment}

/-- A node is measured with some confidence each time. -/
theorem weighs_measureJob {node : Node} (hnode : env.Finds node) (ids : List String) :
    (measureJob node ids).Meets env (env.lookedUp Sure) fun ms => ∀ m ∈ ms, Weighs m.confidence := by
  induction ids with
  | nil => exact fun m hm => absurd hm List.not_mem_nil
  | cons id rest ih =>
    simp only [measureJob, Job.Meets]
    cases hanswer : env.answer id with
    | error fault => exact ih
    | ok reference =>
      refine ⟨⟨hnode, id, hanswer⟩, fun answer => ?_⟩
      cases answer with
      | error fault => exact ih
      | ok result =>
        exact ih.bind fun ms hms =>
          List.forall_mem_cons.mpr ⟨Measurement.weighs_of result.distance result.delay, hms⟩

theorem sure_offsetJob (id : String) (references : List String) (now : Instant) :
    (offsetJob id references now).Meets env (env.lookedUp Sure) fun _ => True := by
  simp only [offsetJob, Job.Meets]
  cases hanswer : env.answer id with
  | error fault => trivial
  | ok node =>
    refine (weighs_measureJob ⟨id, hanswer⟩ _).bind fun ms hms => ?_
    cases hoffset : offsetOf node id ms now with
    | error fault => trivial
    | ok record => exact ⟨inUnit_of_offsetOf hms hoffset, trivial⟩

theorem sure_offsetJobs (ids references : List String) (now : Instant) :
    Pool.Have env (env.lookedUp Sure) (offsetJobs ids references now) := by
  intro item hitem
  obtain ⟨id, _, rfl⟩ := List.mem_map.mp hitem
  exact sure_offsetJob id references now

end Jobs

namespace Service

variable {s s' : Service} {record : NodeOffset}

/-- What happens while a timing is asked for keeps no record. -/
theorem not_kept_timingHistory (ids : List String) : .kept record ∉ s.timingHistory ids := by
  intro hmem
  unfold timingHistory at hmem
  split at hmem
  · exact absurd hmem List.not_mem_nil
  · rcases List.mem_append.mp hmem with hmem | hmem
    · have hmeets : (worstOfSetJob (distinctIds ids)).Meets s.env (s.env.lookedUp fun _ => False)
        fun _ => True := meets_worstOfSetJob _ _
      exact hmeets.trace none _ _ hmem
    · split at hmem
      · exact absurd (List.mem_singleton.mp hmem) Happening.noConfusion
      · exact absurd hmem List.not_mem_nil

/-- A request without a batch keeps sure records only. -/
theorem sure_of_kept_alone {r : Request} (h : .kept record ∈ s.history r) : Sure record := by
  have hoffset {id : String} {references : List String} {s' : Service}
      (hmem : .kept record ∈ s'.jobHistory none (offsetJob id references s'.now)) : Sure record := by
    have hallowed := (sure_offsetJob id references s'.now).trace none s'.memory _ hmem
    exact hallowed
  cases r with
  | delay source target => exact (meets_delayJob Sure source target).trace _ _ _ h
  | delayWithin deadline source target => exact (meets_delayJob Sure source target).trace _ _ _ h
  | consensusTiming ids => exact absurd h (not_kept_timingHistory ids)
  | timeouts ids => exact absurd h (not_kept_timingHistory ids)
  | votingWindow ids => exact absurd h (not_kept_timingHistory ids)
  | blockInterval ids load => exact absurd h (not_kept_timingHistory ids)
  | measureOffset id references => exact hoffset h
  | currentOffset id =>
    simp only [history] at h
    split at h
    · exact absurd h List.not_mem_nil
    · exact hoffset h
  | clearCaches => exact absurd (List.mem_singleton.mp h) Happening.noConfusion
  | _ => exact absurd h List.not_mem_nil

theorem Cycle.sure_of_kept {cancel : Cancellation} {history : List Happening} {report : SyncReport}
    (h : s.Cycle cancel history report s') (hmem : .kept record ∈ history) : Sure record := by
  cases h with
  | mk batch => exact batch.allowed (sure_offsetJobs _ _ _) _ hmem

theorem Cycles.sure_of_kept {history : List Happening} (h : s.Cycles history s')
    (hmem : .kept record ∈ history) : Sure record := by
  induction h with
  | rest => exact absurd hmem List.not_mem_nil
  | cycle hcycle _ ih => exact (List.mem_append.mp hmem).elim hcycle.sure_of_kept ih

/-- However a request is served, the records kept are sure. -/
theorem Serves.sure_of_kept {r : Request} {history : List Happening} {answer : Answer}
    (h : s.Serves r history answer s') (hmem : .kept record ∈ history) : Sure record := by
  cases h with
  | alone h => exact sure_of_kept_alone hmem
  | batchDelays batch => exact batch.allowed (meets_pairJobs Sure _) _ hmem
  | delayMatrix batch => exact batch.allowed (meets_pairJobs Sure _) _ hmem
  | maxDelay batch => exact batch.allowed (meets_pairJobs Sure _) _ hmem
  | batchOffsets batch => exact batch.allowed (sure_offsetJobs _ _ _) _ hmem
  | sync hcycle => exact hcycle.sure_of_kept hmem
  | runLoop hcycles => exact hcycles.sure_of_kept hmem

theorem Run.sure_of_kept {clock : Instant → Instant → Prop} {start : Service}
    {requests : List Request} {history : List Happening} {answers : List Answer}
    (hrun : Run clock start requests history answers s) (hmem : .kept record ∈ history) :
    Sure record := by
  induction hrun with
  | nil => exact absurd hmem List.not_mem_nil
  | snoc _ serves _ ih => exact (List.mem_append.mp hmem).elim ih serves.sure_of_kept

/-! ## Stored records -/

/-- Every stored offset was kept before. -/
def OffsetsKept (history : List Happening) (s : Service) : Prop :=
  ∀ ⦃id e⦄, s.memory.offsets.entries.find? id = some e → .kept e.value ∈ history

theorem OffsetsKept.move {history later : List Happening} (h : OffsetsKept history s)
    (hmove : s.Move later s') : OffsetsKept (history ++ later) s' := by
  have hsame (hoffsets : s'.memory.offsets = s.memory.offsets) : OffsetsKept (history ++ later) s' := by
    intro id e hfind
    rw [hoffsets] at hfind
    exact List.mem_append_left _ (h hfind)
  cases hmove with
  | evaluate a b => exact hsame (s.memory.evaluate_frame s.env a b).2.1
  | keepOffset record =>
    intro id e hfind
    have hfind' : (s.memory.offsets.entries.insert record.id _).find? id = some e := hfind
    rw [Table.find?_insert] at hfind'
    split at hfind'
    · cases hfind'
      exact List.mem_append_right _ List.mem_cons_self
    · exact List.mem_append_left _ (h hfind')
  | deriveTiming ids validators worst => exact hsame rfl
  | count e => exact hsame rfl
  | sweepDelays => exact hsame rfl
  | sweepTimings => exact hsame rfl
  | sweepOffsets =>
    intro id e hfind
    have hfind' : (s.memory.offsets.entries.filter _).find? id = some e := hfind
    rw [Table.find?_filter] at hfind'
    exact List.mem_append_left _ (h (Option.filter_eq_some_iff.mp hfind').1)
  | clearCaches =>
    intro id e hfind
    cases hfind
  | statuses statuses => exact hsame rfl
  | directory directory => exact hsame rfl

/-- After every run the known offsets are sure. -/
theorem Run.sure_of_known {clock : Instant → Instant → Prop} {settings : Settings}
    {directory : Directory} {access : Access} {now : Instant} {metrics : Option Metrics}
    {start : Service} (hstart : Service.start settings directory access now metrics = .ok start)
    {requests : List Request} {history : List Happening} {answers : List Answer}
    (hrun : Run clock start requests history answers s) :
    ∀ record ∈ s.knownOffsets, Sure record := by
  have hkept : OffsetsKept history s := by
    refine hrun.invariant (fun h hmove => h.move hmove) (fun h _ => h) ?_
    rw [eq_of_start hstart]
    intro id e hfind
    cases hfind
  intro record hrecord
  obtain ⟨⟨id, value⟩, hentry, rfl⟩ := List.mem_map.mp hrecord
  obtain ⟨⟨id', e⟩, hmem, hsame⟩ := List.mem_map.mp hentry
  cases hsame
  exact hrun.sure_of_kept (hkept (Table.find?_eq_some_iff.mpr (List.mem_filter.mp hmem).1))

end Service
end LightCone
