import LightCone.Proofs.Run.Tandem

/-!
Requests without a batch, side by side.

Two services that no job tells apart serve most requests alike, if they also hold the same timings.
This file

1. says which relations of memories are kept so (`Twins`);
2. runs each operation of a service on two services in such a relation, with one result
   (`Twins.consensusTiming` and others), and the same happenings (`Twins.history_eq`);
3. concludes it for the requests that neither set the clock, nor read stored offsets or statuses,
   nor remove entries (`Twins.serve_common`).
-/
namespace LightCone

/-- A relation of memories that jobs, maintenance and the keeping of timings preserve. Both memories
    find the same timings. -/
structure Twins (R : Instant → Memory → Memory → Prop) : Prop extends Tandem R where
  timing_eq : ∀ {now m n}, R now m n → ∀ name, n.timings.get? name now = m.timings.get? name now
  keepTiming : ∀ {now m n}, R now m n → ∀ timing : ConsensusTiming,
    R now { m with timings := m.timings.insert timing.fingerprint timing now }
      { n with timings := n.timings.insert timing.fingerprint timing now }

/-- The requests that are served alike without more being known: they leave the clock and the
    statuses aside, read no stored offset and remove nothing from a store. -/
def Request.isCommon : Request → Bool
  | .upsert .. | .remove .. | .setActive .. | .node .. | .delay .. | .delayWithin .. | .validate ..
  | .validateWithin .. | .consensusTiming .. | .timeouts .. | .votingWindow .. | .blockInterval ..
  | .faultTolerance .. | .measureOffset .. => true
  | _ => false

namespace Service.Related

variable {R : Instant → Memory → Memory → Prop} {s t : Service}

theorem now_eq (hR : Related R s t) : t.now = s.now := congrArg Environment.now hR.env_eq

theorem setDirectory (hR : Related R s t) (directory : Directory) :
    Related R (s.setDirectory directory) (t.setDirectory directory) where
  env_eq := congrArg (fun env => { env with directory := directory }) hR.env_eq
  memory := hR.memory

/-- A request that leaves both services as they are. -/
theorem same (hR : Related R s t) {α : Type} (value : α) : SameResult R s t (value, s) (value, t) :=
  ⟨rfl, hR, rfl, rfl⟩

theorem verdictJob_eq (hR : Related R s t) (subject : Option Subject) (claimed : Instant)
    (position : Position) (reference : String) :
    t.verdictJob subject claimed position reference =
      s.verdictJob subject claimed position reference := by
  unfold verdictJob settings
  rw [hR.now_eq, hR.env_eq]

end Service.Related

namespace Twins

open Service

variable {R : Instant → Memory → Memory → Prop} {s t : Service}

theorem flip (h : Twins R) : Twins fun now n m => R now m n where
  toTandem := h.toTandem.flip
  timing_eq hR name := (h.timing_eq hR name).symm
  keepTiming := h.keepTiming

theorem counted (h : Twins R) (hR : Related R s t) {α : Type} (value : α) (e : Event) :
    SameResult R s t (value, s.count e) (value, t.count e) :=
  ⟨rfl, h.count hR e, rfl, rfl⟩

theorem measureOffset (h : Twins R) (hR : Related R s t) (id : String) (references : List String) :
    SameResult R s t (s.measureOffset id references) (t.measureOffset id references) := by
  unfold Service.measureOffset
  rw [hR.now_eq]
  exact h.perform hR _

theorem delayWithin (h : Twins R) (hR : Related R s t) (deadline : Duration)
    (source target : String) :
    SameResult R s t (s.delayWithin deadline source target)
      (t.delayWithin deadline source target) := by
  obtain ⟨_ | answer, s', t', hs, ht, hsame⟩ :=
    (h.performWithin hR deadline (delayJob source target)).exists_eq
  all_goals simp only [Service.delayWithin, hs, ht]
  · exact hsame.instead _
  · exact hsame.instead answer

theorem validate (h : Twins R) (hR : Related R s t) (subject : Option Subject) (claimed : Instant)
    (position : Position) (reference : String) :
    SameResult R s t (s.validate subject claimed position reference)
      (t.validate subject claimed position reference) := by
  have hjobs := h.perform hR (s.verdictJob subject claimed position reference)
  unfold Service.validate
  rw [hR.verdictJob_eq]
  simp only [hjobs.value_eq]
  exact hjobs.after (h.counted hjobs.related _ _)

theorem validateWithin (h : Twins R) (hR : Related R s t) (deadline : Duration) (claimed : Instant)
    (position : Position) (reference : String) :
    SameResult R s t (s.validateWithin deadline claimed position reference)
      (t.validateWithin deadline claimed position reference) := by
  obtain ⟨_ | verdict, s', t', hs, ht, hsame⟩ := (h.performWithin hR deadline
    (s.verdictJob none claimed position reference)).exists_eq
  all_goals simp only [Service.validateWithin, hR.verdictJob_eq, hs, ht]
  · have hnow : t'.now = s'.now := hsame.related.now_eq
    rw [hnow]
    exact hsame.after (h.counted hsame.related _ _)
  · exact hsame.after (h.counted hsame.related _ _)

/-! ## Timings -/

theorem keepTiming_related (h : Twins R) (hR : Related R s t) (timing : ConsensusTiming) :
    Related R (s.keepTiming timing) (t.keepTiming timing) where
  env_eq := hR.env_eq
  memory := by
    simp only [Service.keepTiming, hR.now_eq]
    exact h.keepTiming hR.memory timing

/-- A timing is in both stores or in none, and is derived alike. -/
theorem consensusTiming (h : Twins R) (hR : Related R s t) (ids : List String) :
    SameResult R s t (s.consensusTiming ids) (t.consensusTiming ids) ∧
      t.timingHistory ids = s.timingHistory ids := by
  have hsame : t.memory.timings.get? (fingerprint ids) t.now =
      s.memory.timings.get? (fingerprint ids) s.now := by
    rw [hR.now_eq, h.timing_eq hR.memory]
  cases hget : s.memory.timings.get? (fingerprint ids) s.now with
  | some timing =>
    rw [hget] at hsame
    rw [consensusTiming_of_hit hget, consensusTiming_of_hit hsame]
    simp only [timingHistory, hget, hsame]
    exact ⟨h.counted hR _ _, trivial⟩
  | none =>
    rw [hget] at hsame
    have hmiss := h.count hR (.cacheMiss .timing)
    have hhistory := h.jobHistory hmiss none (worstOfSetJob (distinctIds ids))
    obtain ⟨worst, s', t', hs, ht, hjobs⟩ :=
      (h.perform hmiss (worstOfSetJob (distinctIds ids))).exists_eq
    have hresult : SameResult R s t (s.consensusTiming ids) (t.consensusTiming ids) := by
      rcases worst with fault | ⟨validators, worst⟩
      · rw [consensusTiming_of_fault hget hs, consensusTiming_of_fault hsame ht]
        exact (h.counted hR () (.cacheMiss .timing)).after (hjobs.instead _)
      · rw [consensusTiming_of_worst hget hs, consensusTiming_of_worst hsame ht]
        have henv : t'.env = s'.env := hjobs.related.env_eq
        simp only [now, settings, henv]
        exact ⟨rfl, h.keepTiming_related hjobs.related _, hjobs.first_statuses,
          hjobs.second_statuses⟩
    refine ⟨hresult, ?_⟩
    simp only [timingHistory, hget, hsame, hhistory, hresult.value_eq]

theorem fromTiming (h : Twins R) (hR : Related R s t) {α : Type} (ids : List String)
    (f : ConsensusTiming → ConsensusSettings → α) :
    SameResult R s t (s.fromTiming ids f) (t.fromTiming ids f) := by
  have hresult := (h.consensusTiming hR ids).1
  have hsettings : (t.consensusTiming ids).2.settings = (s.consensusTiming ids).2.settings :=
    congrArg Environment.settings hresult.related.env_eq
  unfold Service.fromTiming
  simp only [hsettings]
  exact hresult.map fun timing =>
    timing.map fun x => f x (s.consensusTiming ids).2.settings.consensus

/-! ## Offsets -/

/-- A current offset that is measured anew. -/
theorem measuredAnew (h : Twins R) (hR : Related R s t) (id : String) :
    SameResult R s t (s.measureOffset id (Directory.ids s.env.directory.active))
      (t.measureOffset id (Directory.ids t.env.directory.active)) ∧
    t.jobHistory none (offsetJob id (Directory.ids t.env.directory.active) t.now) =
      s.jobHistory none (offsetJob id (Directory.ids s.env.directory.active) s.now) := by
  rw [hR.env_eq, hR.now_eq]
  exact ⟨h.measureOffset hR _ _, h.jobHistory hR none _⟩

/-- If both services answer alike for a stored offset, they do for the current one. -/
theorem currentOffset (h : Twins R) {id : String}
    (hstored : SameResult R s t (s.storedOffset id) (t.storedOffset id)) :
    SameResult R s t (s.currentOffset id) (t.currentOffset id) ∧
      t.history (.currentOffset id) = s.history (.currentOffset id) := by
  obtain ⟨fault | record, s', t', hs, ht, hsame⟩ := hstored.exists_eq
  all_goals simp only [Service.currentOffset, history, hs, ht]
  · obtain ⟨hresult, hhistory⟩ := h.measuredAnew hsame.related id
    exact ⟨hsame.after hresult, hhistory⟩
  · exact ⟨hsame.instead _, trivial⟩

/-! ## Requests -/

/-- The same things happen in both services, if they do where an offset is asked for. -/
theorem history_eq (h : Twins R) (hR : Related R s t)
    (hoffset : ∀ id, t.history (.currentOffset id) = s.history (.currentOffset id)) (r : Request) :
    t.history r = s.history r := by
  have hjob {α : Type} (limit : Option Nat) (job : Job α) :
      t.jobHistory limit job = s.jobHistory limit job := h.jobHistory hR limit job
  cases r with
  | delay source target => exact hjob none _
  | delayWithin deadline source target =>
    simp only [history, hR.env_eq]
    exact hjob _ _
  | consensusTiming ids => exact (h.consensusTiming hR ids).2
  | timeouts ids => exact (h.consensusTiming hR ids).2
  | votingWindow ids => exact (h.consensusTiming hR ids).2
  | blockInterval ids load => exact (h.consensusTiming hR ids).2
  | measureOffset id references =>
    simp only [history, hR.now_eq]
    exact hjob none _
  | currentOffset id => exact hoffset id
  | _ => rfl

theorem serve_common (h : Twins R) (hR : Related R s t) {r : Request} (hr : r.isCommon = true) :
    SameResult R s t (s.serve r) (t.serve r) := by
  have hchanged {α : Type} (value : α) (directory : Directory) :
      SameResult R s t (value, s.setDirectory directory) (value, t.setDirectory directory) :=
    ⟨rfl, hR.setDirectory directory, rfl, rfl⟩
  cases r with
  | upsert node =>
    simp only [serve, upsert, hR.env_eq]
    cases s.env.directory.upsert node with
    | ok result => exact hchanged _ result.2
    | error fault => exact hR.same _
  | remove id =>
    simp only [serve, remove, answered, hR.env_eq]
    exact hchanged _ _
  | setActive id active seen =>
    simp only [serve, setActive, answered, hR.env_eq]
    exact hchanged _ _
  | node id =>
    simp only [serve, hR.env_eq]
    exact hR.same _
  | delay source target => exact (h.perform hR _).map _
  | delayWithin deadline source target => exact (h.delayWithin hR deadline source target).map _
  | validate subject claimed position reference =>
    exact (h.validate hR subject claimed position reference).map _
  | validateWithin deadline claimed position reference =>
    exact (h.validateWithin hR deadline claimed position reference).map _
  | consensusTiming ids => exact (h.consensusTiming hR ids).1.map _
  | timeouts ids => exact (h.fromTiming hR ids _).map _
  | votingWindow ids => exact (h.fromTiming hR ids _).map _
  | blockInterval ids load => exact (h.fromTiming hR ids _).map _
  | faultTolerance ids => exact hR.same _
  | measureOffset id references => exact (h.measureOffset hR id references).map _
  | _ => exact absurd hr Bool.noConfusion

end Twins
end LightCone
