import LightCone.Proofs.CountedVerdicts
import LightCone.Proofs.Deadlines
import LightCone.Proofs.OffsetOutcomes

/-!
No request fails for want of a distance.

Delays, verdicts and batches each have a way out for two nodes whose distance is no number. Since every
distance is one, these ways are never taken. This file

1. shows that a delay fails for what a lookup fails for, and for nothing else (`Service.delayVia_fault`);
2. goes through the reasons that a verdict can give (`Service.measured_validateVia`);
3. keeps track of the jobs of a batch, each of which ends with a delay (`Pool.Batch.failures_eq_empty`);
4. concludes for every answer, and every evaluation, of a run (`no_distance_fails`).
-/
namespace LightCone

/-! ## Delays -/

/-- A delay fails for what one of its lookups fails for. -/
theorem Service.delayVia_fault {s : Service} {port : Port} {source target : String} {fault : Fault}
    (h : (s.delayVia port source target).1 = .error fault) :
    port.answer 0 source = .error fault ∨ port.answer 1 target = .error fault := by
  cases ha : port.answer 0 source with
  | error fault' =>
    rw [delayVia_of_source_fault ha] at h
    cases h
    exact .inl rfl
  | ok a =>
    cases hb : port.answer 1 target with
    | error fault' =>
      rw [delayVia_of_target_fault ha hb] at h
      cases h
      exact .inr rfl
    | ok b =>
      obtain ⟨r, m', hevaluate, -⟩ := s.memory.exists_evaluate s.env a b
      rw [delayVia_of_found ha hb, hevaluate] at h
      cases h

theorem Environment.answer_ne_computationFailed (env : Environment) (id text : String) :
    env.answer id ≠ .error (.computationFailed text) := by
  intro h
  unfold answer Directory.get at h
  split at h
  · cases h
  · split at h <;> cases h

theorem Service.delay_ne_computationFailed (s : Service) (source target text : String) :
    (s.delay source target).1 ≠ .error (.computationFailed text) := by
  rw [delay_eq_delayVia]
  intro h
  rcases delayVia_fault h with h | h <;> exact s.env.answer_ne_computationFailed _ text h

theorem Service.delayWithin_ne_computationFailed (s : Service) (deadline : Duration)
    (source target text : String) :
    (s.delayWithin deadline source target).1 ≠ .error (.computationFailed text) := by
  rw [delayWithin_eq_delayWithinVia, delayWithinVia_eq, ← delay_eq_delayVia]
  split
  · exact s.delay_ne_computationFailed source target text
  · exact fun h => by cases h

/-! ## Verdicts -/

/-- Whether a verdict gives another reason than that there was no distance. -/
def Verdict.Measured (v : Verdict) : Prop := v.reason ≠ "distance computation failed"

/-- Reasons are told apart by their first letters. -/
theorem append_ne_of_head {text rest other : String} {x y : Char} {later later' : List Char}
    (htext : text.toList = x :: later) (hother : other.toList = y :: later') (hne : x ≠ y) :
    text ++ rest ≠ other := by
  rintro rfl
  rw [String.toList_append, htext, List.cons_append, List.cons.injEq] at hother
  exact hne hother.1

namespace Verdict

theorem measured_ofLookupFault (reference : String) (fault : Fault) (now : Instant) :
    (ofLookupFault reference fault now).Measured := by
  unfold ofLookupFault
  split
  · show "reference node " ++ reference ++ " not found" ≠ _
    rw [String.append_assoc]
    exact append_ne_of_head rfl rfl (by decide)
  · exact append_ne_of_head rfl rfl (by decide)

theorem measured_ofDifference (s : PropagationSettings) (expected tolerance actual : Duration)
    (now : Instant) : (ofDifference s expected tolerance actual now).Measured := by
  simp only [ofDifference]
  split
  · show "time difference " ++ actual.text ++ " exceeds bound " ++ (expected + tolerance).text ≠ _
    rw [String.append_assoc, String.append_assoc]
    exact append_ne_of_head rfl rfl (by decide)
  · split
    · show "confidence " ++ _ ++ " below minimum " ++ _ ≠ _
      rw [String.append_assoc, String.append_assoc]
      exact append_ne_of_head rfl rfl (by decide)
    · show "within propagation bound" ≠ "distance computation failed"
      decide

end Verdict

namespace Service

variable (s : Service) (port : Port) (subject : Option Subject) (deadline : Duration)
  (claimed : Instant) (position : Position) (reference : String)

theorem measured_validateVia : (s.validateVia port subject claimed position reference).1.Measured := by
  rw [validateVia_eq]
  show (s.verdictOn subject claimed position reference (port.answer 0 reference)).Measured
  cases port.answer 0 reference with
  | error fault => exact Verdict.measured_ofLookupFault reference fault s.now
  | ok node =>
    have hjudge : Verdict.judge s.settings.propagation (node.position.distance position)
        (s.settings.propagation.tolerance subject) s.now claimed = _ :=
      if_pos (Position.isFinite_distance node.position position)
    simp only [verdictOn, hjudge]
    exact Verdict.measured_ofDifference _ _ _ _ _

theorem measured_validateWithinVia :
    (s.validateWithinVia port deadline claimed position reference).1.Measured := by
  rw [validateWithinVia_eq]
  split
  · exact s.measured_validateVia port none claimed position reference
  · show "deadline exceeded" ≠ "distance computation failed"
    decide

end Service

/-! ## Batches -/

section Batches

variable {env : Environment} {nodes : List Node} {cancel : Cancellation} {m m' : Memory}
  {history : List Happening} {o : BatchOutcome NodePair Duration}

/-- Whether a job has yet to evaluate its pair, or has ended with the delay. -/
def Job.Answering (job : Job (Except Fault Duration)) : Prop :=
  (∃ a b, job = pairJob a b) ∨ ∃ d, job = .done (.ok d)

theorem Job.Answering.advance {job : Job (Except Fault Duration)} (h : job.Answering) (m : Memory) :
    (Pool.advance env job m).1.Answering := by
  rcases h with ⟨a, b, rfl⟩ | ⟨d, rfl⟩
  · obtain ⟨r, m', hevaluate, -⟩ := m.exists_evaluate env a b
    refine .inr ⟨r.delay, ?_⟩
    simp only [Pool.advance, pairJob, resume, settle, hevaluate]
    rfl
  · exact .inr ⟨d, rfl⟩

theorem Pool.Interleaving.answering {x y : Pool NodePair Duration × Memory}
    (h : Interleaving env x history y) (hstart : ∀ item ∈ x.1, item.2.Answering) :
    ∀ item ∈ y.1, item.2.Answering := by
  apply h.invariant (P := fun _ pool _ => ∀ item ∈ pool, item.2.Answering) ?step hstart
  case step =>
    intro _ before after key job m _ hall item hitem
    rcases List.mem_append.mp hitem with hitem | hitem
    · exact hall item (List.mem_append_left _ hitem)
    · rcases List.mem_cons.mp hitem with rfl | hitem
      · exact (hall (key, job) (List.mem_append_right _ List.mem_cons_self)).advance m
      · exact hall item (List.mem_append_right _ (List.mem_cons_of_mem _ hitem))
  -- nothing is asked of what has happened before
  exact []

/-- Wherever a batch of delays stops, none of its jobs has failed. -/
theorem Pool.Batch.failures_eq_empty (h : Batch env (pairJobs nodes) cancel m history o m') :
    o.failures = .empty := by
  obtain ⟨pool, hrun, rfl, -⟩ := h.exists_stop (fresh_pairJobs nodes)
  have hall := hrun.answering fun item hitem => by
    obtain ⟨⟨a, b⟩, -, rfl⟩ := List.mem_map.mp hitem
    exact .inl ⟨a, b, rfl⟩
  have hnone : pool.filterMap faultOf = [] := by
    refine List.filterMap_eq_nil_iff.mpr fun item hitem => ?_
    obtain ⟨key, job⟩ := item
    rcases hall _ hitem with ⟨a, b, rfl⟩ | ⟨d, rfl⟩ <;> rfl
  exact congrArg Table.ofList hnone

end Batches

/-! ## Runs -/

/-- Whether an answer bears no trace of a distance that is no number. -/
def Answer.Measured : Answer → Prop
  | .delay result => ∀ text, result ≠ .error (.computationFailed text)
  | .verdict v => v.Measured
  | .delays outcome => outcome.failures = .empty
  | _ => True

namespace Service

variable {clock : Instant → Instant → Prop} {s s' : Service} {r : Request} {requests : List Request}
  {history : List Happening} {answer : Answer} {answers : List Answer}

theorem Serves.measured (h : s.Serves r history answer s') : answer.Measured := by
  cases h with
  | batchDelays batch => exact batch.failures_eq_empty
  | delayMatrix batch => exact batch.failures_eq_empty
  | maxDelay batch => trivial
  | batchOffsets batch => trivial
  | sync hcycle => trivial
  | runLoop hcycles => trivial
  | alone halone =>
    cases r with
    | delay source target => exact s.delay_ne_computationFailed source target
    | delayWithin deadline source target =>
      exact s.delayWithin_ne_computationFailed deadline source target
    | validate subject claimed position reference =>
      show (s.validate subject claimed position reference).1.Measured
      rw [validate_eq_validateVia]
      exact s.measured_validateVia _ subject claimed position reference
    | validateWithin deadline claimed position reference =>
      show (s.validateWithin deadline claimed position reference).1.Measured
      rw [validateWithin_eq_validateWithinVia]
      exact s.measured_validateWithinVia _ deadline claimed position reference
    | upsert node =>
      simp only [serve]
      split <;> trivial
    | batchDelays nodes cancel => exact absurd halone Bool.noConfusion
    | delayMatrix => exact absurd halone Bool.noConfusion
    | _ => trivial

theorem Run.measured (hrun : Run clock s requests history answers s') :
    ∀ answer ∈ answers, answer.Measured := by
  induction hrun with
  | nil => exact List.forall_mem_nil _
  | snoc _ serves _ ih =>
    intro answer hmem
    rcases List.mem_append.mp hmem with hmem | hmem
    · exact ih answer hmem
    · rw [List.mem_singleton.mp hmem]
      exact serves.measured

/-- Every evaluation of a run gives a delay. -/
theorem Run.evaluated (hrun : Run clock s requests history answers s') {a b : Node} {time : Instant}
    {result : Except Fault DelayResult} (h : .evaluated a b time result ∈ history) :
    ∃ delay, result = .ok delay := by
  have hall : ∀ {a b : Node} {time : Instant} {result : Except Fault DelayResult},
      Happening.evaluated a b time result ∈ history → ∃ delay, result = .ok delay := by
    refine hrun.invariant (P := fun history _ => ∀ {a b : Node} {time : Instant}
      {result : Except Fault DelayResult}, Happening.evaluated a b time result ∈ history →
        ∃ delay, result = .ok delay) ?_ (fun h _ => h) (fun h => absurd h List.not_mem_nil)
    intro history s later s' hearlier hmove a b time result hmem
    rcases List.mem_append.mp hmem with hmem | hmem
    · exact hearlier hmem
    · cases hmove with
      | evaluate x y =>
        obtain ⟨delay, m', hevaluate, -⟩ := s.memory.exists_evaluate s.env x y
        injection List.mem_singleton.mp hmem with _ _ _ hresult
        exact ⟨delay, hresult.trans (congrArg Prod.fst hevaluate)⟩
      | _ => simp at hmem
  exact hall h

end Service

/-- Over any functions that keep to their ranges, the distance of every two positions is a finite number
    and not below zero, however high they are; lengths that are rounded once keep to theirs. So it is over
    the library's own functions. Therefore every evaluation gives a delay, whatever is stored. A delay fails
    for what a lookup fails for, and for no distance; no verdict says that there was no distance, whatever
    its lookup found; and no job of a batch of delays fails, in whatever order they go on and wherever the
    batch stops. So it is with all answers and all evaluations of every run. -/
theorem no_distance_fails :
    (∀ E : Elementary, E.Bounded → ∀ a b, (E.distance a b).isFinite = true ∧ 0 ≤ E.distance a b) ∧
    (∀ E : Elementary, E.RoundsLengths → ∀ x y, x.isFinite = true → y.isFinite = true →
      x.abs ≤ E.hypot x y ∧ y.abs ≤ E.hypot x y ∧ E.hypot x y ≤ x.abs + y.abs) ∧
    (∀ a b : Position, (a.distance b).isFinite = true ∧ 0 ≤ a.distance b) ∧
    (∀ (m : Memory) env a b, ∃ r, (m.evaluate env a b).1 = .ok r) ∧
    (∀ (s : Service) port source target fault, (s.delayVia port source target).1 = .error fault →
      port.answer 0 source = .error fault ∨ port.answer 1 target = .error fault) ∧
    (∀ (s : Service) port subject deadline claimed position reference,
      (s.validateVia port subject claimed position reference).1.Measured ∧
        (s.validateWithinVia port deadline claimed position reference).1.Measured) ∧
    (∀ {env nodes cancel m history o m'},
      Pool.Batch env (pairJobs nodes) cancel m history o m' → o.failures = .empty) ∧
    ∀ {s s' requests history answers}, Service.Run Service.anyTime s requests history answers s' →
      (∀ answer ∈ answers, answer.Measured) ∧
      ∀ {a b time result}, .evaluated a b time result ∈ history → ∃ delay, result = .ok delay := by
  refine ⟨fun E hE => hE.distance_mem, fun E hE => Elementary.hypot_mem_of_roundsLengths hE, ?_, ?_,
    fun s port source target fault => Service.delayVia_fault, ?_, Pool.Batch.failures_eq_empty, ?_⟩
  · exact fun a b => ⟨a.isFinite_distance b, a.distance_nonneg b⟩
  · intro m env a b
    obtain ⟨r, m', hevaluate, -⟩ := m.exists_evaluate env a b
    exact ⟨r, congrArg Prod.fst hevaluate⟩
  · exact fun s port subject deadline claimed position reference =>
      ⟨s.measured_validateVia port subject claimed position reference,
        s.measured_validateWithinVia port deadline claimed position reference⟩
  · exact fun hrun => ⟨hrun.measured, hrun.evaluated⟩

/-! ## As high as numbers go -/

open TwoNodes

theorem highest_ok : (1.7976931348623157e308 : Binary64).isMagnitude = true := by decide +kernel

/-- From the ground to the greatest height that is a number, all requests are answered by distances. -/
theorem no_distance_fails_two_nodes :
    let s := service 1.7976931348623157e308 highest_ok
    let top := above 1.7976931348623157e308 highest_ok
    Elementary.own.Bounded ∧
    (Elementary.own.distance (above 0 ground_ok) top).isFinite = true ∧
    (∃ r, (s.memory.evaluate s.env lower (upper _ highest_ok)).1 = .ok r) ∧
    (s.validateVia s.env.port none .epoch top "a").1.Measured ∧
    ∀ answer ∈ (s.serveAll [.delay "a" "b", .validate none .epoch top "a", .delayMatrix]).1,
      answer.Measured := by
  intro s top
  obtain ⟨hdistance, -, -, hevaluate, -, hverdict, -, hruns⟩ := no_distance_fails
  obtain ⟨history, hrun⟩ :=
    s.run_serveAll [.delay "a" "b", .validate none .epoch top "a", .delayMatrix]
  exact ⟨Elementary.bounded_own, (hdistance _ Elementary.bounded_own _ _).1, hevaluate _ _ _ _,
    (hverdict s s.env.port none .zero .epoch top "a").1, (hruns hrun).1⟩

end LightCone
