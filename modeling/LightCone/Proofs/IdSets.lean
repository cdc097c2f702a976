import LightCone.Proofs.Run.TwoNodes
import LightCone.Proofs.SetNames
import Mathlib.Data.Finset.Card

/-!
Lists of ids as sets.

Validators, references and the nodes of a batch are given as lists, but only their distinct ids
in text order are ever used. This file

1. shows that lists of the same ids give the same names, jobs and batches (`distinctIds_congr`),
   whatever the order of the ids and however often one is listed;
2. pairs the requests that differ only so (`Request.SameSets`), and shows that each is served
   like the other (`Request.SameSets.serve_eq`);
3. concludes that whole runs of such requests have the same answers and end in the same state
   (`id_lists_are_sets`).
-/
namespace LightCone

section Lists

variable {ids ids' : List String}

theorem distinctIds_congr (h : ∀ id, id ∈ ids ↔ id ∈ ids') : distinctIds ids = distinctIds ids' :=
  distinctIds_eq_iff.mpr h

theorem length_distinctIds (ids : List String) : (distinctIds ids).length = ids.toFinset.card := by
  have hnodup : (distinctIds ids).Nodup := (sorted_distinctIds ids).imp String.ne_of_lt
  have hsame : (distinctIds ids).toFinset = ids.toFinset := by
    ext id
    rw [List.mem_toFinset, List.mem_toFinset, mem_distinctIds]
  rw [← hsame, List.toFinset_card_of_nodup hnodup]

theorem fingerprint_congr (h : ∀ id, id ∈ ids ↔ id ∈ ids') : fingerprint ids = fingerprint ids' := by
  unfold fingerprint fingerprintBytes
  rw [distinctIds_congr h]

/-! ## Jobs -/

theorem offsetJob_congr (h : ∀ id, id ∈ ids ↔ id ∈ ids') (id : String) (now : Instant) :
    offsetJob id ids now = offsetJob id ids' now := by
  unfold offsetJob referencesOf
  rw [distinctIds_congr h]

theorem offsetJobs_congr {references references' : List String} (hids : ∀ id, id ∈ ids ↔ id ∈ ids')
    (href : ∀ id, id ∈ references ↔ id ∈ references') (now : Instant) :
    offsetJobs ids references now = offsetJobs ids' references' now := by
  unfold offsetJobs
  rw [distinctIds_congr hids]
  exact List.map_congr_left fun id _ => by rw [offsetJob_congr href]

/-- A job of a batch makes a lookup for its node and one for each distinct reference. -/
theorem looksUpAtMost_offsetJobs (ids references : List String) (now : Instant) :
    ∀ item ∈ offsetJobs ids references now,
      item.2.LooksUpAtMost ((distinctIds references).length + 1) := by
  intro item hitem
  obtain ⟨id, _, rfl⟩ := List.mem_map.mp hitem
  rw [← offsetJob_congr (fun _ => mem_distinctIds)]
  exact Service.looksUpAtMost_offsetJob id (distinctIds references) now

end Lists

/-! ## Requests -/

/-- Requests that ask the same of the same sets. -/
inductive Request.SameSets : Request → Request → Prop where
  | same (r : Request) : SameSets r r
  | consensusTiming {ids ids' : List String} (h : ∀ id, id ∈ ids ↔ id ∈ ids') :
      SameSets (.consensusTiming ids) (.consensusTiming ids')
  | timeouts {ids ids' : List String} (h : ∀ id, id ∈ ids ↔ id ∈ ids') :
      SameSets (.timeouts ids) (.timeouts ids')
  | votingWindow {ids ids' : List String} (h : ∀ id, id ∈ ids ↔ id ∈ ids') :
      SameSets (.votingWindow ids) (.votingWindow ids')
  | blockInterval {ids ids' : List String} (h : ∀ id, id ∈ ids ↔ id ∈ ids') (load : Binary64) :
      SameSets (.blockInterval ids load) (.blockInterval ids' load)
  | faultTolerance {ids ids' : List String} (h : ∀ id, id ∈ ids ↔ id ∈ ids') :
      SameSets (.faultTolerance ids) (.faultTolerance ids')
  | measureOffset (id : String) {references references' : List String}
      (h : ∀ id, id ∈ references ↔ id ∈ references') :
      SameSets (.measureOffset id references) (.measureOffset id references')
  | batchOffsets {ids ids' references references' : List String} (hids : ∀ id, id ∈ ids ↔ id ∈ ids')
      (href : ∀ id, id ∈ references ↔ id ∈ references') (cancel : Cancellation) :
      SameSets (.batchOffsets ids references cancel) (.batchOffsets ids' references' cancel)

namespace Service

variable {s : Service} {ids ids' : List String}

theorem faultTolerance_congr (h : ∀ id, id ∈ ids ↔ id ∈ ids') :
    faultTolerance ids = faultTolerance ids' := by
  unfold faultTolerance
  rw [distinctIds_congr h]

/-- The fault tolerance of a list counts its distinct ids. -/
theorem faultTolerance_eq (ids : List String) : faultTolerance ids =
    if ids.toFinset.card = 0 then .error .emptyValidatorSet else .ok (.of ids.toFinset.card) := by
  rw [← length_distinctIds]
  unfold faultTolerance
  cases distinctIds ids <;> simp

theorem consensusTiming_congr (h : ∀ id, id ∈ ids ↔ id ∈ ids') :
    s.consensusTiming ids = s.consensusTiming ids' := by
  unfold consensusTiming
  rw [fingerprint_congr h, distinctIds_congr h]

theorem fromTiming_congr {α : Type} (h : ∀ id, id ∈ ids ↔ id ∈ ids')
    (f : ConsensusTiming → ConsensusSettings → α) : s.fromTiming ids f = s.fromTiming ids' f := by
  unfold fromTiming
  rw [consensusTiming_congr h]

theorem measureOffset_congr (id : String) (h : ∀ id, id ∈ ids ↔ id ∈ ids') :
    s.measureOffset id ids = s.measureOffset id ids' := by
  unfold measureOffset
  rw [offsetJob_congr h]

/-- A batch may take a round for each listed reference, but needs one for each distinct one. -/
theorem fanOut_offsetJobs (s : Service) (ids references : List String) (cancel : Cancellation) :
    fanOut s.env (offsetJobs ids references s.now) (references.length + 1) cancel s.memory =
      fanOut s.env (offsetJobs ids references s.now) ((distinctIds references).length + 1) cancel
        s.memory :=
  Pool.fanOut_of_le (Nat.succ_le_succ (length_distinctIds_le references))
    (looksUpAtMost_offsetJobs ids references s.now) cancel s.memory

theorem runOffsets_congr {references references' : List String} (hids : ∀ id, id ∈ ids ↔ id ∈ ids')
    (href : ∀ id, id ∈ references ↔ id ∈ references') (cancel : Cancellation) :
    s.runOffsets ids references cancel = s.runOffsets ids' references' cancel := by
  unfold runOffsets performAll
  rw [fanOut_offsetJobs, fanOut_offsetJobs, offsetJobs_congr hids href, distinctIds_congr href]

theorem batchOffsets_congr {references references' : List String} (hids : ∀ id, id ∈ ids ↔ id ∈ ids')
    (href : ∀ id, id ∈ references ↔ id ∈ references') (cancel : Cancellation) :
    s.batchOffsets ids references cancel = s.batchOffsets ids' references' cancel := by
  unfold batchOffsets
  rw [runOffsets_congr hids href]

end Service

namespace Request.SameSets

variable {s : Service} {r r' : Request}

theorem symm (h : SameSets r r') : SameSets r' r := by
  cases h with
  | same => exact .same _
  | consensusTiming h => exact .consensusTiming fun id => (h id).symm
  | timeouts h => exact .timeouts fun id => (h id).symm
  | votingWindow h => exact .votingWindow fun id => (h id).symm
  | blockInterval h load => exact .blockInterval (fun id => (h id).symm) load
  | faultTolerance h => exact .faultTolerance fun id => (h id).symm
  | measureOffset id h => exact .measureOffset id fun id => (h id).symm
  | batchOffsets hids href cancel =>
    exact .batchOffsets (fun id => (hids id).symm) (fun id => (href id).symm) cancel

theorem isBatch_eq (h : SameSets r r') : r'.isBatch = r.isBatch := by
  cases h <;> rfl

/-- Each is answered like the other and leaves the same service. -/
theorem serve_eq (h : SameSets r r') (s : Service) : s.serve r = s.serve r' := by
  cases h with
  | same => rfl
  | consensusTiming h => exact congrArg (Service.answered _) (Service.consensusTiming_congr h)
  | timeouts h => exact congrArg (Service.answered _) (Service.fromTiming_congr h _)
  | votingWindow h => exact congrArg (Service.answered _) (Service.fromTiming_congr h _)
  | blockInterval h load => exact congrArg (Service.answered _) (Service.fromTiming_congr h _)
  | faultTolerance h => exact congrArg (fun answer => (Answer.tolerance answer, s)) (Service.faultTolerance_congr h)
  | measureOffset id h => exact congrArg (Service.answered _) (Service.measureOffset_congr id h)
  | batchOffsets hids href cancel =>
    exact congrArg (Service.answered _) (Service.batchOffsets_congr hids href cancel)

/-- However one of them is served, the other may be served so too. -/
theorem serves (h : SameSets r r') {history : List Happening} {answer : Answer} {s' : Service}
    (hserves : s.Serves r history answer s') : ∃ history', s.Serves r' history' answer s' := by
  cases hserves with
  | alone halone =>
    have hother := Service.Serves.alone (s := s) (h.isBatch_eq.trans halone)
    rw [← h.serve_eq s] at hother
    exact ⟨_, hother⟩
  | batchOffsets batch =>
    cases h with
    | same => exact ⟨_, .batchOffsets batch⟩
    | batchOffsets hids href =>
      rw [offsetJobs_congr hids href] at batch
      exact ⟨_, .batchOffsets batch⟩
  -- No other batch is asked for by lists of ids.
  | batchDelays batch =>
    cases h
    exact ⟨_, .batchDelays batch⟩
  | delayMatrix batch =>
    cases h
    exact ⟨_, .delayMatrix batch⟩
  | maxDelay batch =>
    cases h
    exact ⟨_, .maxDelay batch⟩
  | sync hcycle =>
    cases h
    exact ⟨_, .sync hcycle⟩
  | runLoop hcycles =>
    cases h
    exact ⟨_, .runLoop hcycles⟩

end Request.SameSets

/-! ## Runs -/

namespace Service

variable {clock : Instant → Instant → Prop} {start s : Service} {requests requests' : List Request}

theorem serveAll_congr (h : List.Forall₂ Request.SameSets requests requests') (s : Service) :
    s.serveAll requests = s.serveAll requests' := by
  induction h generalizing s with
  | nil => rfl
  | cons hfirst _ ih => simp only [serveAll, hfirst.serve_eq, ih]

/-- The last element of a list, and those before it, have their own counterparts. -/
theorem forall₂_snoc {α β : Type} {R : α → β → Prop} {l : List α} {x : α} {l' : List β}
    (h : List.Forall₂ R (l ++ [x]) l') :
    ∃ earlier x', l' = earlier ++ [x'] ∧ List.Forall₂ R l earlier ∧ R x x' := by
  rw [← List.forall₂_reverse_iff, List.reverse_append, List.reverse_singleton,
    List.singleton_append, List.forall₂_cons_left_iff] at h
  obtain ⟨x', earlier, hx, hearlier, hsame⟩ := h
  refine ⟨earlier.reverse, x', ?_, ?_, hx⟩
  · rw [← List.reverse_cons, ← hsame, List.reverse_reverse]
  · rwa [← List.forall₂_reverse_iff, List.reverse_reverse]

theorem Run.of_sameSets {history : List Happening} {answers : List Answer}
    (hrun : Run clock start requests history answers s)
    (h : List.Forall₂ Request.SameSets requests requests') :
    ∃ history', Run clock start requests' history' answers s := by
  induction hrun generalizing requests' with
  | nil =>
    cases h
    exact ⟨[], .nil⟩
  | snoc _ serves hclock ih =>
    obtain ⟨earlier, r', rfl, hearlier, hr⟩ := forall₂_snoc h
    obtain ⟨history', hrun'⟩ := ih hearlier
    obtain ⟨later', hserves'⟩ := hr.serves serves
    exact ⟨history' ++ later', .snoc hrun' hserves' hclock⟩

end Service

open Service in
/-- From any state, and request by request: lists of the same ids, in any order and with any
    repetition, as validators, as references and as nodes of a batch, are answered alike and lead to
    the same state. The same runs are possible for both, in whatever order the jobs of batches go on.
    The fault tolerance of a list is that of the number of its distinct ids. -/
theorem id_lists_are_sets {requests requests' : List Request}
    (h : List.Forall₂ Request.SameSets requests requests') (s : Service) :
    s.serveAll requests = s.serveAll requests' ∧
    (∀ answers s', (∃ history, Run anyTime s requests history answers s') ↔
      ∃ history, Run anyTime s requests' history answers s') ∧
    ∀ ids, faultTolerance ids =
      if ids.toFinset.card = 0 then .error .emptyValidatorSet else .ok (.of ids.toFinset.card) := by
  have hback : List.Forall₂ Request.SameSets requests' requests :=
    (h.imp fun _ _ => Request.SameSets.symm).flip
  refine ⟨serveAll_congr h s, fun answers s' => ⟨?_, ?_⟩, faultTolerance_eq⟩
  · rintro ⟨history, hrun⟩
    exact hrun.of_sameSets h
  · rintro ⟨history, hrun⟩
    exact hrun.of_sameSets hback

/-! ## The two nodes -/

open TwoNodes

/-- The two nodes listed in order and once, or otherwise. -/
theorem id_lists_are_sets_two_nodes :
    let requests : List Request := [.consensusTiming ["a", "b"], .blockInterval ["b", "a"] 0,
      .measureOffset "a" ["b"], .batchOffsets ["a", "b"] ["a", "b"] .never]
    let requests' : List Request := [.consensusTiming ["b", "a", "b"], .blockInterval ["a", "b", "b"] 0,
      .measureOffset "a" ["b", "b"], .batchOffsets ["b", "b", "a"] ["b", "a", "a"] .never]
    List.Forall₂ Request.SameSets requests requests' ∧
      (service 0 ground_ok).serveAll requests = (service 0 ground_ok).serveAll requests' ∧
      ((service 0 ground_ok).serveAll requests').2.memory.tally.timingHits = 1 ∧
      Service.faultTolerance ["b", "a", "b"] = .ok (.of 2) := by
  have htiming : ∀ id, id ∈ ["a", "b"] ↔ id ∈ ["b", "a", "b"] := by grind
  have hinterval : ∀ id, id ∈ ["b", "a"] ↔ id ∈ ["a", "b", "b"] := by grind
  have hreference : ∀ id, id ∈ ["b"] ↔ id ∈ ["b", "b"] := by grind
  have hids : ∀ id, id ∈ ["a", "b"] ↔ id ∈ ["b", "b", "a"] := by grind
  have hreferences : ∀ id, id ∈ ["a", "b"] ↔ id ∈ ["b", "a", "a"] := by grind
  intro requests requests'
  have hsame : List.Forall₂ Request.SameSets requests requests' := .cons (.consensusTiming htiming)
    (.cons (.blockInterval hinterval 0) (.cons (.measureOffset "a" hreference)
      (.cons (.batchOffsets hids hreferences .never) .nil)))
  obtain ⟨hserved, _, htolerance⟩ := id_lists_are_sets hsame (service 0 ground_ok)
  exact ⟨hsame, hserved, by decide +kernel, htolerance _⟩

end LightCone
