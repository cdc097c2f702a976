import LightCone.Proofs.FiniteDistance
import LightCone.Proofs.TimingAgreement
import LightCone.Proofs.Weights

/-!
What becomes of a request for the offset of a node.

A node is measured against the references that resolve, and its offset is their weighted mean. This file

1. shows that every evaluation answers, since all distances are finite (`Memory.exists_evaluate`), so that
   there is one measurement for each reference that resolves, and the stored offsets are left alone
   (`exists_run_measureJob`);
2. says which fault a request gives if any, that a fault leaves the service as it was, and which record is
   stored otherwise (`Service.measureOffset_outcome`).
-/
namespace LightCone

open Binary64 (HasValue)

/-! ## Evaluations -/

/-- Any two nodes can be measured. -/
theorem finiteApart (p : Node × Node) : FiniteApart p := Position.isFinite_distance _ _

/-- So every evaluation answers, and touches no offsets. -/
theorem Memory.exists_evaluate (m : Memory) (env : Environment) (a b : Node) :
    ∃ answer m', m.evaluate env a b = (.ok answer, m') ∧ m'.offsets = m.offsets := by
  obtain ⟨answer, hanswer, -⟩ := m.evaluate_of_finite env (finiteApart (a, b))
  exact ⟨answer, (m.evaluate env a b).2, Prod.ext hanswer rfl, (m.evaluate_frame env a b).2.1⟩

/-! ## Measurements -/

namespace Environment

variable {env : Environment}

/-- The references of a node that resolve, itself aside. -/
def usableIds (env : Environment) (id : String) (references : List String) : Finset String :=
  (env.foundIds references).erase id

/-- They are counted once each. -/
theorem length_usable (env : Environment) (id : String) (references : List String) :
    ((referencesOf id references).filter fun r => (env.answer r).isOk).length =
      (env.usableIds id references).card := by
  have hnodup : ((referencesOf id references).filter fun r => (env.answer r).isOk).Nodup :=
    (((sorted_distinctIds references).imp String.ne_of_lt).filter _).filter _
  rw [← List.toFinset_card_of_nodup hnodup]
  congr 1
  ext r
  simp only [usableIds, foundIds, referencesOf, List.mem_toFinset, List.mem_filter, Finset.mem_erase,
    Finset.mem_filter, mem_distinctIds, decide_eq_true_eq]
  tauto

end Environment

/-- There is one measurement for each reference that resolves. Measuring leaves the offsets alone, and
    changes nothing at all where no reference resolves. -/
theorem exists_run_measureJob (env : Environment) (node : Node) (ids : List String) (m : Memory) :
    ∃ ms m', (measureJob node ids).run env m = (ms, m') ∧
      ms.length = (ids.filter fun id => (env.answer id).isOk).length ∧
      (∀ x ∈ ms, Weighs x.confidence) ∧ m'.offsets = m.offsets ∧ (ms = [] → m' = m) := by
  induction ids generalizing m with
  | nil => exact ⟨[], m, rfl, rfl, List.forall_mem_nil _, rfl, fun _ => rfl⟩
  | cons id rest ih =>
    cases hanswer : env.answer id with
    | error fault =>
      obtain ⟨ms, m', hrun, hlength, hrest⟩ := ih m
      refine ⟨ms, m', ?_, ?_, hrest⟩
      · simp only [measureJob, Job.run, hanswer, hrun]
      · rw [hlength, List.filter_cons_of_neg (by simp [hanswer, Except.isOk, Except.toBool])]
    | ok reference =>
      obtain ⟨answer, m₁, hevaluate, hoffsets₁⟩ := m.exists_evaluate env node reference
      obtain ⟨ms, m', hrun, hlength, hweighs, hoffsets, -⟩ := ih m₁
      refine ⟨.of answer.distance answer.delay :: ms, m', ?_, ?_, ?_, hoffsets.trans hoffsets₁,
        fun hnone => absurd hnone (List.cons_ne_nil _ _)⟩
      · simp only [measureJob, Job.run, hanswer, hevaluate, Job.run_bind, hrun]
      · rw [List.filter_cons_of_pos (by simp [hanswer, Except.isOk, Except.toBool]),
          List.length_cons, List.length_cons, hlength]
      · exact List.forall_mem_cons.mpr ⟨Measurement.weighs_of _ _, hweighs⟩

/-! ## Requests -/

/-- A lookup fails for reasons of the directory. -/
theorem Environment.answer_ne_noValidMeasurements {env : Environment} {id other : String} {fault : Fault}
    (h : env.answer id = .error fault) : fault ≠ .noValidMeasurements other := by
  rintro rfl
  unfold answer Directory.get at h
  split at h
  · cases h
  · split at h <;> cases h

/-- The record that a request stores for a node. -/
structure StoresOffset (s after : Service) (id : String) (references : List String) (node : Node)
    (record : NodeOffset) : Prop where
  id_eq : record.id = id
  measurements_eq : record.measurements = (s.env.usableIds id references).card
  region_eq : record.region = .of node.position
  calculatedAt_eq : record.calculatedAt = s.now
  confidence_le : record.confidence ≤ 1
  /-- A list of references that a machine can hold leaves some confidence. -/
  confidence_pos : references.length < wordLimit → 0 < record.confidence
  offsets_eq : after.memory.offsets = s.memory.offsets.insert id record s.now

namespace Service

variable {s : Service} {id : String} {references : List String} {fault : Fault} {node : Node}

theorem measureOffset_of_error (h : s.env.answer id = .error fault) :
    s.measureOffset id references = (.error fault, s) := by
  simp only [measureOffset, perform, offsetJob, Job.run, h]

theorem offsetOf_nil (node : Node) (id : String) (now : Instant) :
    offsetOf node id [] now = .error (.noValidMeasurements id) := by
  have hnone : weightedHalfDelay [] = none := by decide +kernel
  simp only [offsetOf, hnone]

theorem measureOffset_of_empty (h : s.env.answer id = .ok node)
    (hempty : s.env.usableIds id references = ∅) :
    s.measureOffset id references = (.error (.noValidMeasurements id), s) := by
  obtain ⟨ms, m', hrun, hlength, -, -, hsame⟩ :=
    exists_run_measureJob s.env node (referencesOf id references) s.memory
  rw [Environment.length_usable, hempty, Finset.card_empty] at hlength
  obtain rfl := List.eq_nil_of_length_eq_zero hlength
  obtain rfl := hsame rfl
  simp only [measureOffset, perform, offsetJob, Job.run, h, Job.run_bind, hrun, offsetOf_nil]

theorem measureOffset_of_nonempty (h : s.env.answer id = .ok node)
    (hsome : s.env.usableIds id references ≠ ∅) : ∃ record after,
      s.measureOffset id references = (.ok record, after) ∧
        StoresOffset s after id references node record := by
  obtain ⟨ms, m', hrun, hlength, hweighs, hoffsets, -⟩ :=
    exists_run_measureJob s.env node (referencesOf id references) s.memory
  have hfew := List.length_filter_le (fun r => (s.env.answer r).isOk) (referencesOf id references)
  have hfew' := length_referencesOf_le id references
  rw [← hlength] at hfew
  rw [Environment.length_usable] at hlength
  have hms : ms ≠ [] := by
    rintro rfl
    exact hsome (Finset.card_eq_zero.mp hlength.symm)
  obtain ⟨offset, confidence, hmean, hle, hpos⟩ := weightedHalfDelay_of_ne_nil hweighs hms
  let record : NodeOffset := ⟨id, offset, confidence, ms.length, .of node.position, s.now⟩
  refine ⟨record, ⟨s.env, m'.keepOffset s.env record⟩, ?_, ?_⟩
  · simp only [measureOffset, perform, offsetJob, Job.run, h, Job.run_bind, hrun, offsetOf, hmean]
    rfl
  · refine ⟨rfl, hlength, rfl, rfl, hle, ?_, ?_⟩
    · intro hlimit
      unfold wordLimit at hlimit
      exact hpos (by omega)
    · show m'.offsets.insert id record s.now = _
      rw [hoffsets]

/-- A request gives the fault of its lookup if that fails; else it has no valid measurements just if no
    reference resolves, the node itself aside. A fault leaves the service as it was, with any record from
    before. All other requests store the record that they give. -/
theorem measureOffset_outcome (s : Service) (id : String) (references : List String) :
    (∀ fault, s.env.answer id = .error fault ↔
      (s.measureOffset id references).1 = .error fault ∧ fault ≠ .noValidMeasurements id) ∧
    ((s.measureOffset id references).1 = .error (.noValidMeasurements id) ↔
      (∃ node, s.env.answer id = .ok node) ∧ s.env.usableIds id references = ∅) ∧
    (∀ fault, (s.measureOffset id references).1 = .error fault →
      (s.measureOffset id references).2 = s) ∧
    ∀ node, s.env.answer id = .ok node → s.env.usableIds id references ≠ ∅ →
      ∃ record after, s.measureOffset id references = (.ok record, after) ∧
        StoresOffset s after id references node record := by
  cases hanswer : s.env.answer id with
  | error fault =>
    have hother : fault ≠ .noValidMeasurements id :=
      Environment.answer_ne_noValidMeasurements hanswer
    rw [measureOffset_of_error hanswer]
    refine ⟨?_, ?_, fun _ _ => rfl, ?_⟩
    · intro fault'
      refine ⟨?_, ?_⟩
      · rintro ⟨⟩
        exact ⟨rfl, hother⟩
      · rintro ⟨⟨⟩, -⟩
        rfl
    · refine ⟨?_, ?_⟩
      · rintro ⟨⟩
        exact absurd rfl hother
      · rintro ⟨⟨node, ⟨⟩⟩, -⟩
    · rintro node ⟨⟩
  | ok node =>
    by_cases hempty : s.env.usableIds id references = ∅
    · rw [measureOffset_of_empty hanswer hempty]
      refine ⟨?_, ⟨fun _ => ⟨⟨node, rfl⟩, hempty⟩, fun _ => rfl⟩, fun _ _ => rfl, ?_⟩
      · intro fault
        refine ⟨?_, ?_⟩
        · rintro ⟨⟩
        · rintro ⟨⟨⟩, hother⟩
          exact absurd rfl hother
      · intro _ _ hsome
        exact absurd hempty hsome
    · obtain ⟨record, after, hrun, hstores⟩ := measureOffset_of_nonempty hanswer hempty
      rw [hrun]
      refine ⟨?_, ?_, ?_, ?_⟩
      · intro fault
        refine ⟨?_, ?_⟩
        · rintro ⟨⟩
        · rintro ⟨⟨⟩, -⟩
      · refine ⟨?_, fun h => absurd h.2 hempty⟩
        rintro ⟨⟩
      · rintro fault ⟨⟩
      · rintro node' ⟨⟩ -
        exact ⟨record, after, rfl, hstores⟩

end Service

/-! ## The two nodes -/

open TwoNodes

/-- The node on the ground is measured against the one above it, and neither against itself nor against an
    unknown one; and there is no offset of the unknown one. -/
theorem measureOffset_outcome_high :
    (∃ record after, (service 20000000 high_ok).measureOffset "a" ["b", "a", "x", "b"] =
      (.ok record, after) ∧ record.measurements = 1 ∧ 0 < record.confidence) ∧
    (service 20000000 high_ok).measureOffset "a" ["a", "x"] =
      (.error (.noValidMeasurements "a"), service 20000000 high_ok) ∧
    (service 20000000 high_ok).measureOffset "x" ["b"] =
      (.error (.nodeNotFound "x"), service 20000000 high_ok) := by
  have hsome : (service 20000000 high_ok).env.usableIds "a" ["b", "a", "x", "b"] = {"b"} := by
    decide +kernel
  have hempty : (service 20000000 high_ok).env.usableIds "a" ["a", "x"] = ∅ := by decide +kernel
  have hunknown : (service 20000000 high_ok).env.answer "x" = .error (.nodeNotFound "x") := rfl
  refine ⟨?_, ?_, ?_⟩
  · obtain ⟨-, -, -, hok⟩ :=
      Service.measureOffset_outcome (service 20000000 high_ok) "a" ["b", "a", "x", "b"]
    obtain ⟨record, after, hrun, hstores⟩ := hok lower answer_lower (by rw [hsome]; decide)
    refine ⟨record, after, hrun, ?_, hstores.confidence_pos (by decide)⟩
    rw [hstores.measurements_eq, hsome]
    rfl
  · obtain ⟨-, hnone, hsame, -⟩ :=
      Service.measureOffset_outcome (service 20000000 high_ok) "a" ["a", "x"]
    have hfault := hnone.mpr ⟨⟨lower, answer_lower⟩, hempty⟩
    exact Prod.ext hfault (hsame _ hfault)
  · obtain ⟨hlookup, -, hsame, -⟩ := Service.measureOffset_outcome (service 20000000 high_ok) "x" ["b"]
    have hfault := ((hlookup _).mp hunknown).1
    exact Prod.ext hfault (hsame _ hfault)

end LightCone
