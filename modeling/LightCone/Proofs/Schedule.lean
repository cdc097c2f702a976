import LightCone.Proofs.Run.Finishing
import LightCone.Proofs.Run.TwoNodes

/-!
Batches of offsets do not depend on the schedule.

Jobs of a batch share the store of delays, and which of them fills an entry is a matter of who
gets there first. This file

1. measures offsets one after another (`Service.measureEach`), in any order
   (`measureEach_perm`), which is what finishing the jobs of a batch comes to
   (`finish_offsetJobs`);
2. concludes that a batch, whatever its schedule, gives the same records and faults, stores the
   same and counts the same evaluations as measuring each node by itself
   (`batchOffsets_any_schedule`).
-/
namespace LightCone

/-! ## Offsets one after another -/

namespace Service

/-- Measures the offset of each node of a list in order; gives every answer. -/
def measureEach (s : Service) (references : List String) :
    List String → List (String × Except Fault NodeOffset) × Service
  | [] => ([], s)
  | id :: rest =>
    let (answer, s) := s.measureOffset id references
    let (answers, s) := s.measureEach references rest
    ((id, answer) :: answers, s)

variable {s : Service}

/-- Measuring one node is not noticed by measuring another. -/
theorem measureOffset_swap (hkeyed : s.env.Keyed) (references : List String) {x y : String}
    (hne : x ≠ y) :
    ((s.measureOffset x references).2.measureOffset y references).1 =
      (s.measureOffset y references).1 ∧
    ((s.measureOffset x references).2.measureOffset y references).2 =
      ((s.measureOffset y references).2.measureOffset x references).2 := by
  have hknown := hkeyed.toldApart_finds
  have hx := alone_offsetJob s.env x references s.now
  have hy := alone_offsetJob s.env y references s.now
  have hapart : ∀ id, id = y → ¬ id = x := fun _ hother hown => hne (hown.symm.trans hother)
  have hpasses := (detached_run hknown hy.blind hy.meets).passes
    ((detached_run hknown hx.blind hx.meets).unnoticed hknown hapart) s.memory
  have hanswer := congrArg Prod.fst hpasses
  have hmemory := congrArg (fun done => s.remember done.2) hpasses
  exact ⟨hanswer, hmemory⟩

/-- Measured in another order, the nodes give the same answers and leave the same behind. -/
theorem measureEach_perm (hkeyed : s.env.Keyed) (references : List String)
    {order order' : List String} (h : order.Perm order') (hnodup : order.Nodup) :
    (s.measureEach references order).1.Perm (s.measureEach references order').1 ∧
      (s.measureEach references order).2 = (s.measureEach references order').2 := by
  induction h generalizing s with
  | nil => exact ⟨.nil, rfl⟩
  | cons id _ ih =>
    have hkeyed' : (s.measureOffset id references).2.env.Keyed := hkeyed
    have hrest := ih hkeyed' (List.nodup_cons.mp hnodup).2
    exact ⟨hrest.1.cons _, hrest.2⟩
  | swap x y rest =>
    have hne : y ≠ x := fun hsame => (List.nodup_cons.mp hnodup).1 (by simp [hsame])
    obtain ⟨hx, hservice⟩ := measureOffset_swap hkeyed references hne
    obtain ⟨hy, _⟩ := measureOffset_swap hkeyed references hne.symm
    simp only [measureEach]
    rw [hservice, hx, hy]
    exact ⟨.swap _ _ _, rfl⟩
  | trans hfirst _ ih₁ ih₂ =>
    obtain ⟨hanswers, hservice⟩ := ih₁ hkeyed hnodup
    obtain ⟨hanswers', hservice'⟩ := ih₂ hkeyed (hfirst.nodup_iff.mp hnodup)
    exact ⟨hanswers.trans hanswers', hservice.trans hservice'⟩

/-- Finishing a pool of offset jobs measures each node, and counts the items. -/
theorem finish_offsetJobs (hkeyed : s.env.Keyed) (references : List String) {ids : List String}
    (hnodup : ids.Nodup) :
    Pool.finish s.env (ids.map fun id => (id, offsetJob id references s.now)) s.memory =
      ((s.measureEach references ids).1, (s.measureEach references ids).2.memory.countAll
        ((s.measureEach references ids).1.map fun a => .batchItem a.2.isOk)) := by
  induction ids generalizing s with
  | nil => rfl
  | cons id rest ih =>
    have hrest := (List.nodup_cons.mp hnodup).2
    let s' := (s.measureOffset id references).2
    have hlater : Pool.finish s.env (rest.map fun id => (id, offsetJob id references s.now))
        s'.memory = ((s'.measureEach references rest).1,
          (s'.measureEach references rest).2.memory.countAll
            ((s'.measureEach references rest).1.map fun a => .batchItem a.2.isOk)) := by
      have hkeyed' : s'.env.Keyed := hkeyed
      exact ih hkeyed' hrest
    have hcount := Pool.finish_count hkeyed.toldApart_finds
      (separate_offsetJobs s.env hrest references s.now) s'.memory
      (.batchItem (s.measureOffset id references).1.isOk)
    have hjob : Pool.finishJob s.env (offsetJob id references s.now) s.memory =
        ((s.measureOffset id references).1, s'.memory.count
          (.batchItem (s.measureOffset id references).1.isOk)) := by
      have hended : ∀ (answer : Except Fault NodeOffset) (m : Memory),
          Pool.countEnded (.done answer) m = m.count (.batchItem answer.isOk) := by
        intro answer m
        cases answer <;> rfl
      exact Prod.ext rfl (hended _ _)
    simp only [List.map_cons, Pool.finish, hjob, hcount, hlater]
    exact Prod.ext rfl (Memory.countAll_comm _ _ [.batchItem (s.measureOffset id references).1.isOk])

end Service

/-! ## Every schedule -/

/-- Memories with the same offsets, the same delays and the same counts of delays. -/
structure SameDelays (m m' : Memory) : Prop where
  offsets : m'.offsets = m.offsets
  delays : m'.delays = m.delays
  hits : m'.tally.delayHits = m.tally.delayHits
  misses : m'.tally.delayMisses = m.tally.delayMisses
  computed : m'.tally.delaysComputed = m.tally.delaysComputed

theorem SameDelays.trans {m m' m'' : Memory} (h : SameDelays m m') (h' : SameDelays m' m'') :
    SameDelays m m'' where
  offsets := h'.offsets.trans h.offsets
  delays := h'.delays.trans h.delays
  hits := h'.hits.trans h.hits
  misses := h'.misses.trans h.misses
  computed := h'.computed.trans h.computed

/-- Counting items leaves all this. -/
theorem sameDelays_countAll {α : Type} (m : Memory) (succeeded : α → Bool) (items : List α) :
    SameDelays m (m.countAll (items.map fun a => .batchItem (succeeded a))) := by
  induction items generalizing m with
  | nil => exact ⟨rfl, rfl, rfl, rfl, rfl⟩
  | cons a items ih =>
    have hone : SameDelays m (m.count (.batchItem (succeeded a))) := by
      cases succeeded a <;> exact ⟨rfl, rfl, rfl, rfl, rfl⟩
    exact hone.trans (ih _)

/-- Over a directory whose records stand under their own ids, with any memory at the start: however
    the jobs of a batch of offsets interleave, it gives the records and the faults of measuring its
    nodes one after another in any order, stores the same offsets and the same delays, and moves the
    counts of delays that were found, missed and computed alike. -/
theorem batchOffsets_any_schedule {s : Service} (hkeyed : s.env.directory.Keyed)
    {ids references : List String} {history : List Happening}
    {o : BatchOutcome String NodeOffset} {m : Memory}
    (hbatch : Pool.Batch s.env (offsetJobs ids references s.now) .never s.memory history o m)
    {order : List String} (horder : order.Nodup) (hids : ∀ id, id ∈ order ↔ id ∈ ids)
    {answers : List (String × Except Fault NodeOffset)} {s' : Service}
    (heach : s.measureEach references order = (answers, s')) :
    (∀ id record, o.results.find? id = some record ↔ (id, .ok record) ∈ answers) ∧
    (∀ id fault, o.failures.find? id = some fault ↔ (id, .error fault) ∈ answers) ∧
    o.total = order.length ∧ o.cancelled = false ∧ SameDelays s'.memory m := by
  have henv := Environment.keyed_of_directory hkeyed
  have hnodup : (distinctIds ids).Nodup := (sorted_distinctIds ids).imp String.ne_of_lt
  have hperm : (distinctIds ids).Perm order :=
    (List.perm_ext_iff_of_nodup hnodup horder).mpr fun id => by rw [mem_distinctIds, hids]
  obtain ⟨hanswers, hservice⟩ := Service.measureEach_perm henv references hperm hnodup
  rw [heach] at hanswers hservice
  obtain ⟨hm, hresults, hfailures, htotal, hcancelled⟩ := Pool.finish_batch henv.toldApart_finds
    (separate_offsetJobs s.env hnodup references s.now) hbatch
  rw [Service.finish_offsetJobs henv references hnodup, hservice] at hm hresults hfailures
  refine ⟨fun id record => ?_, fun id fault => ?_, ?_, hcancelled, ?_⟩
  · rw [hresults]
    exact hanswers.mem_iff
  · rw [hfailures]
    exact hanswers.mem_iff
  · rw [htotal, List.length_map, hperm.length_eq]
  · rw [← hm]
    exact sameDelays_countAll s'.memory _ _

/-! ## The two nodes -/

open TwoNodes

/-- Each of the two nodes measured against the other, in a batch and from the upper one on: the delay
    between them is computed once and found once, whoever comes first. -/
theorem batchOffsets_two_nodes : ∃ history o m answers s',
    Pool.Batch (service 0 ground_ok).env (offsetJobs ["a", "b"] ["a", "b"] .epoch) .never
      (service 0 ground_ok).memory history o m ∧
    (service 0 ground_ok).measureEach ["a", "b"] ["b", "a"] = (answers, s') ∧
    (∀ id record, o.results.find? id = some record ↔ (id, .ok record) ∈ answers) ∧
    SameDelays s'.memory m ∧ m.tally.delaysComputed = 1 ∧ m.tally.delayHits = 1 := by
  obtain ⟨history, hbatch⟩ := Service.batch_offsetJobs (service 0 ground_ok).env ["a", "b"] ["a", "b"]
    .epoch .never (service 0 ground_ok).memory
  have hkeyed : (service 0 ground_ok).env.directory.Keyed := .ofList ofList_eq
  have horder : ["b", "a"].Nodup := by decide
  have hids : ∀ id, id ∈ ["b", "a"] ↔ id ∈ ["a", "b"] := by simp [or_comm]
  obtain ⟨hresults, _, _, _, hsame⟩ := batchOffsets_any_schedule hkeyed hbatch horder hids rfl
  exact ⟨history, _, _, _, _, hbatch, rfl, hresults, hsame, by decide +kernel, by decide +kernel⟩

end LightCone
