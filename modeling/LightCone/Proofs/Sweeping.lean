import LightCone.Proofs.Run.Effects
import LightCone.Proofs.Run.TwoNodes
import LightCone.Proofs.Swept

/-!
Sweeping goes unnoticed.

Take a run of a service, and the same requests with sweeps and maintenance put in anywhere. This
file

1. lists the answers in which the two may differ (`Request.Alike`): a stale offset may turn into
   none, counts of removed entries differ, and so do statuses that a cleanup removed;
2. serves one request in a service and in one that has been swept more often, whichever of the two
   is given (`Swept.serves`, `Swept.served`), and a sweep in the second one alone
   (`Swept.sweep_right`);
3. puts two runs side by side, step by step (`Alongside`), and shows that each of them has the other
   beside it (`sweeping_unnoticed`).
-/
namespace LightCone

/-! ## The answers that may differ -/

/-- The requests that sweep: maintenance, and each sweep by itself. -/
def Request.isSweep : Request → Bool
  | .maintain | .sweepDelays | .sweepTimings | .sweepOffsets | .cleanupStatuses => true
  | _ => false

/-- The answers to one request in a service and in one that has been swept more often: the same, but
    for the following. Statuses are told as they stand in either service. -/
inductive Request.Alike (s t : Service) : Request → Answer → Answer → Prop where
  | same (r : Request) (answer : Answer) : Alike s t r answer answer
  | storedOffset (id : String) (age : Duration) : Alike s t (.storedOffset id)
      (.offset (.error (.staleOffset id age))) (.offset (.error (.offsetNotFound id)))
  | adjust (timestamp : Instant) (id : String) (age : Duration) : Alike s t (.adjust timestamp id)
      (.adjusted (.error (.staleOffset id age))) (.adjusted (.error (.offsetNotFound id)))
  | syncStatus (id : String) :
      Alike s t (.syncStatus id) (.status (s.syncStatus id)) (.status (t.syncStatus id))
  | syncStatuses : Alike s t .syncStatuses (.statuses s.syncStatuses) (.statuses t.syncStatuses)
  | runLoop (ms : Nat) :
      Alike s t (.runLoop ms) (.statuses s.syncStatuses) (.statuses t.syncStatuses)
  | maintain (counts counts' : Maintenance) :
      Alike s t .maintain (.maintained counts) (.maintained counts')
  | sweep {r : Request} (h : r.isSweep = true) (entries entries' : Nat) :
      Alike s t r (.removed entries) (.removed entries')
  | clear (counts counts' : Cleared) :
      Alike s t .clearCaches (.cleared counts) (.cleared counts')

namespace Service

/-- What a service and one that has been swept more often make of the same request. -/
structure ServedAlike (r : Request) (s t : Service) (x y : Answer × Service) : Prop where
  answers : r.Alike x.2 y.2 x.1 y.1
  swept : x.2.Swept y.2
  statuses : ChangedAlike s x.2 t y.2

theorem SameResult.served {s t : Service} {α : Type} {x y : α × Service}
    (h : SameResult Memory.Swept s t x y) (r : Request) (form : α → Answer) :
    ServedAlike r s t (answered form x) (answered form y) where
  answers := by
    rw [answered, answered, h.value_eq]
    exact .same r _
  swept := h.related
  statuses := h.changedAlike

namespace Swept

variable {s t : Service}

/-- A request that leaves both services as they are. -/
theorem asked (h : s.Swept t) {r : Request} {answer answer' : Answer}
    (halike : r.Alike s t answer answer') : ServedAlike r s t (answer, s) (answer', t) :=
  ⟨halike, h, .of_statuses rfl rfl⟩

theorem knownOffsets_eq (h : s.Swept t) : t.knownOffsets = s.knownOffsets := by
  unfold knownOffsets
  rw [h.now_eq, h.memory.offsets.freshEntries_eq]

theorem globalOffset_eq (h : s.Swept t) : t.globalOffset = s.globalOffset := by
  unfold Service.globalOffset settings
  rw [h.knownOffsets_eq, h.env_eq]

/-- Any request but one with a batch. The clock goes back in neither service, if not in one. -/
theorem serve_alone (h : s.Swept t) {r : Request} (hr : r.isBatch = false)
    (hclock : notEarlier s.now (s.serve r).2.now ∨ notEarlier t.now (t.serve r).2.now) :
    ServedAlike r s t (s.serve r) (t.serve r) := by
  obtain ⟨env, n⟩ := t
  obtain ⟨rfl, hmemory⟩ := h
  have h : s.Swept ⟨s.env, n⟩ := ⟨rfl, hmemory⟩
  have hsettled {s' t' : Service} {r : Request} {answer : Answer} (hswept : s'.Swept t')
      (hs : s'.memory.statuses = s.memory.statuses) (ht : t'.memory.statuses = n.statuses) :
      ServedAlike r s ⟨s.env, n⟩ (answer, s') (answer, t') :=
    ⟨.same _ _, hswept, .of_statuses hs ht⟩
  have hcommon {r : Request} (hr : r.isCommon = true) :
      ServedAlike r s ⟨s.env, n⟩ (s.serve r) (serve ⟨s.env, n⟩ r) :=
    (Memory.Swept.twins.serve_common h hr).served r id
  cases r with
  | advance span => exact hsettled (h.setNow (hclock.elim id id)) rfl rfl
  | setNow now => exact hsettled (h.setNow (hclock.elim id id)) rfl rfl
  | storedOffset id =>
    rcases h.storedOffset id with hsame | ⟨age, hs, ht⟩
    · exact hsame.served _ _
    · simp only [serve, hs, ht]
      exact ⟨.storedOffset id age, Memory.Swept.tandem.count h _, .of_statuses rfl rfl⟩
  | currentOffset id => exact (h.currentOffset id).1.served _ _
  | knownOffsets =>
    simp only [serve, h.knownOffsets_eq]
    exact h.asked (.same _ _)
  | globalOffset =>
    simp only [serve, h.globalOffset_eq]
    exact h.asked (.same _ _)
  | adjust timestamp id =>
    rcases h.storedOffset id with hsame | ⟨age, hs, ht⟩
    · exact (hsame.map fun record => record.bind fun x => shift timestamp id x.offset).served _ _
    · simp only [serve, Service.adjust, hs, ht]
      exact ⟨.adjust timestamp id age, Memory.Swept.tandem.count h _, .of_statuses rfl rfl⟩
  | syncStatus id => exact h.asked (.syncStatus id)
  | syncStatuses => exact h.asked .syncStatuses
  | maintain =>
    obtain ⟨hswept, hstatuses⟩ := Memory.Swept.tandem.maintain_related h
    exact ⟨.maintain _ _, hswept, hstatuses⟩
  | sweepDelays =>
    exact ⟨.sweep rfl _ _, ⟨rfl, { hmemory with delays := hmemory.delays.sweep_both }⟩,
      .of_statuses rfl rfl⟩
  | sweepTimings =>
    exact ⟨.sweep rfl _ _, ⟨rfl, { hmemory with timings := hmemory.timings.sweep_both }⟩,
      .of_statuses rfl rfl⟩
  | sweepOffsets =>
    exact ⟨.sweep rfl _ _, ⟨rfl, { hmemory with offsets := hmemory.offsets.sweep_both }⟩,
      .of_statuses rfl rfl⟩
  | cleanupStatuses =>
    exact ⟨.sweep rfl _ _, ⟨rfl, { hmemory with }⟩,
      fun id => ⟨_, changes_cleanup _ id, changes_cleanup _ id⟩⟩
  | clearCaches =>
    have hcleared : Memory.Swept s.now s.clearCaches.2.memory
        (clearCaches ⟨s.env, n⟩).2.memory :=
      { hmemory with
        delays := hmemory.delays.clear
        timings := hmemory.timings.clear
        offsets := hmemory.offsets.clear }
    exact ⟨.clear _ _, ⟨rfl, hcleared⟩, .of_statuses rfl rfl⟩
  | batchDelays nodes cancel => exact absurd hr Bool.noConfusion
  | delayMatrix => exact absurd hr Bool.noConfusion
  | maxDelay => exact absurd hr Bool.noConfusion
  | batchOffsets ids references cancel => exact absurd hr Bool.noConfusion
  | sync cancel => exact absurd hr Bool.noConfusion
  | runLoop ms => exact absurd hr Bool.noConfusion
  | _ => exact hcommon rfl

/-- A sweep of the second service alone. -/
theorem sweep_right (h : s.Swept t) {r : Request} (hr : r.isSweep = true) :
    s.Swept (t.serve r).2 ∧ t.history r = [] ∧
      ∀ id, t.Changes (t.serve r).2 id [] ∨ t.Changes (t.serve r).2 id [.cleanup] := by
  obtain ⟨env, n⟩ := t
  obtain ⟨rfl, hmemory⟩ := h
  cases r with
  | maintain =>
    have hswept : Memory.Swept s.now s.memory (Service.maintain ⟨s.env, n⟩).2.memory :=
      { hmemory with
        delays := hmemory.delays.sweep_right
        timings := hmemory.timings.sweep_right
        offsets := hmemory.offsets.sweep_right }
    exact ⟨⟨rfl, hswept⟩, rfl, fun id => .inr (changes_maintain _ id)⟩
  | sweepDelays =>
    exact ⟨⟨rfl, { hmemory with delays := hmemory.delays.sweep_right }⟩, rfl,
      fun id => .inl (changes_nil rfl id)⟩
  | sweepTimings =>
    exact ⟨⟨rfl, { hmemory with timings := hmemory.timings.sweep_right }⟩, rfl,
      fun id => .inl (changes_nil rfl id)⟩
  | sweepOffsets =>
    exact ⟨⟨rfl, { hmemory with offsets := hmemory.offsets.sweep_right }⟩, rfl,
      fun id => .inl (changes_nil rfl id)⟩
  | cleanupStatuses =>
    exact ⟨⟨rfl, { hmemory with }⟩, rfl, fun id => .inr (changes_cleanup _ id)⟩
  | _ => exact absurd hr Bool.noConfusion

end Swept

namespace Swept

variable {s s' t t' : Service} {r : Request} {history : List Happening} {answer : Answer}

/-- Whatever a request comes to in a service, it can come to in one that has been swept more. -/
theorem serves (h : s.Swept t) (hserves : s.Serves r history answer s')
    (hclock : notEarlier s.now s'.now) :
    ∃ answer' t', t.Serves r history answer' t' ∧ ServedAlike r s t (answer, s') (answer', t') := by
  cases hr : r.isBatch with
  | false =>
    obtain ⟨rfl, hserve⟩ := hserves.of_alone hr
    rw [hserve]
    have hs' : s' = (s.serve r).2 := congrArg Prod.snd hserve
    rw [hs'] at hclock
    rw [← h.history_eq]
    exact ⟨_, _, .alone hr, h.serve_alone hr (.inl hclock)⟩
  | true =>
    obtain ⟨answer', t', hserves', hswept, hstatuses, hanswers⟩ :=
      Memory.Swept.tandem.serves_batch h hr hserves
    refine ⟨answer', t', hserves', ?_, hswept, hstatuses⟩
    rcases hanswers with rfl | ⟨ms, rfl, rfl, rfl⟩
    · exact .same r _
    · exact .runLoop ms

/-- Whatever a request comes to in the service that has been swept more, it can come to in the
    other. -/
theorem served (h : s.Swept t) (hserves : t.Serves r history answer t')
    (hclock : notEarlier t.now t'.now) :
    ∃ answer' s', s.Serves r history answer' s' ∧ ServedAlike r s t (answer', s') (answer, t') := by
  cases hr : r.isBatch with
  | false =>
    obtain ⟨rfl, hserve⟩ := hserves.of_alone hr
    rw [hserve]
    have ht' : t' = (t.serve r).2 := congrArg Prod.snd hserve
    rw [ht'] at hclock
    rw [h.history_eq]
    exact ⟨_, _, .alone hr, h.serve_alone hr (.inr hclock)⟩
  | true =>
    obtain ⟨answer', s', hserves', hswept, hstatuses, hanswers⟩ :=
      Memory.Swept.tandem.flip.serves_batch h.flip hr hserves
    refine ⟨answer', s', hserves', ?_, hswept.flip, hstatuses.symm⟩
    rcases hanswers with rfl | ⟨ms, rfl, rfl, rfl⟩
    · exact .same r _
    · exact .runLoop ms

end Swept
end Service

/-! ## Runs side by side -/

/-- A list of requests, and the same with sweeps put in anywhere. -/
inductive Inserted : List Request → List Request → Prop where
  | nil : Inserted [] []
  | both {requests requests' : List Request} (h : Inserted requests requests') (r : Request) :
      Inserted (requests ++ [r]) (requests' ++ [r])
  | sweep {requests requests' : List Request} (h : Inserted requests requests') {r : Request}
      (hr : r.isSweep = true) : Inserted requests (requests' ++ [r])

/-- Two runs from one service, with the requests and answers of each and the service after it. Both
    serve the same requests alike, and the second serves sweeps besides, at which a status stays or
    is cleaned up. -/
inductive Alongside (start : Service) : List Request → List Answer → Service →
    List Request → List Answer → Service → Prop where
  | start : Alongside start [] [] start [] [] start
  | both {requests requests' : List Request} {answers answers' : List Answer}
      {s s' t t' : Service} {r : Request} {history : List Happening} {answer answer' : Answer}
      (earlier : Alongside start requests answers s requests' answers' t)
      (first : s.Serves r history answer s') (second : t.Serves r history answer' t')
      (alike : Service.ServedAlike r s t (answer, s') (answer', t')) :
      Alongside start (requests ++ [r]) (answers ++ [answer]) s'
        (requests' ++ [r]) (answers' ++ [answer']) t'
  | sweep {requests requests' : List Request} {answers answers' : List Answer} {s t t' : Service}
      {r : Request} {answer : Answer}
      (earlier : Alongside start requests answers s requests' answers' t)
      (hr : r.isSweep = true) (second : t.Serves r [] answer t') (swept : s.Swept t')
      (statuses : ∀ id, t.Changes t' id [] ∨ t.Changes t' id [.cleanup]) :
      Alongside start requests answers s (requests' ++ [r]) (answers' ++ [answer]) t'

/-- What two such runs come to still differs by sweeps only. -/
theorem Alongside.swept {start s t : Service} {requests requests' : List Request}
    {answers answers' : List Answer} (h : Alongside start requests answers s requests' answers' t) :
    s.Swept t := by
  cases h with
  | start => exact .refl start
  | both _ _ _ alike => exact alike.swept
  | sweep _ _ _ swept => exact swept

namespace Service

variable {start s t : Service} {requests requests' : List Request} {history : List Happening}
  {answers answers' : List Answer}

theorem Run.of_nil {clock : Instant → Instant → Prop} (h : Run clock start [] history answers s) :
    history = [] ∧ answers = [] ∧ s = start := by
  generalize hall : ([] : List Request) = all at h
  cases h with
  | nil => exact ⟨rfl, rfl, rfl⟩
  | snoc => exact absurd hall (by simp)

/-- The last step of a run. -/
theorem Run.last {clock : Instant → Instant → Prop} {r : Request}
    (h : Run clock start (requests ++ [r]) history answers t) :
    ∃ earlier later answers₀ answer s, history = earlier ++ later ∧ answers = answers₀ ++ [answer] ∧
      Run clock start requests earlier answers₀ s ∧ s.Serves r later answer t ∧
      clock s.now t.now := by
  generalize hall : requests ++ [r] = all at h
  cases h with
  | nil => exact absurd hall (by simp)
  | snoc earlier serves hclock =>
    obtain ⟨rfl, hr⟩ := List.append_inj' hall rfl
    cases hr
    exact ⟨_, _, _, _, _, rfl, rfl, earlier, serves, hclock⟩

theorem isBatch_of_isSweep {r : Request} (hr : r.isSweep = true) : r.isBatch = false := by
  cases r <;> first | rfl | exact absurd hr Bool.noConfusion

/-- A run has beside it one that serves sweeps besides. -/
theorem Run.with_sweeps (hinserted : Inserted requests requests')
    (hrun : Run notEarlier start requests history answers s) :
    ∃ answers' t, Run notEarlier start requests' history answers' t ∧
      Alongside start requests answers s requests' answers' t := by
  induction hinserted generalizing history answers s with
  | nil =>
    obtain ⟨rfl, rfl, rfl⟩ := hrun.of_nil
    exact ⟨[], _, .nil, .start⟩
  | both _ r ih =>
    obtain ⟨earlier, later, answers₀, answer, s₀, rfl, rfl, hbefore, hserves, hclock⟩ := hrun.last
    obtain ⟨answers', t₀, hrun', halong⟩ := ih hbefore
    obtain ⟨answer', t, hserves', halike⟩ := halong.swept.serves hserves hclock
    have hclock' : notEarlier t₀.now t.now := by
      rw [halong.swept.now_eq, halike.swept.now_eq]
      exact hclock
    exact ⟨answers' ++ [answer'], t, hrun'.snoc hserves' hclock',
      halong.both hserves hserves' halike⟩
  | @sweep _ _ _ r hr ih =>
    -- The second run sweeps while the first one stays where it is.
    obtain ⟨answers', t, hrun', halong⟩ := ih hrun
    obtain ⟨hswept, hquiet, hstatuses⟩ := halong.swept.sweep_right hr
    have hserves : t.Serves r (t.history r) _ _ := .alone (isBatch_of_isSweep hr)
    rw [hquiet] at hserves
    have hclock : notEarlier t.now (t.serve r).2.now := by
      rw [halong.swept.now_eq, hswept.now_eq]
      exact le_refl _
    have hrun'' := hrun'.snoc hserves hclock
    rw [List.append_nil] at hrun''
    exact ⟨_, _, hrun'', halong.sweep hr hserves hswept hstatuses⟩

/-- A run that serves sweeps has beside it one that does not. -/
theorem Run.without_sweeps (hinserted : Inserted requests requests')
    (hrun : Run notEarlier start requests' history answers' t) :
    ∃ answers s, Run notEarlier start requests history answers s ∧
      Alongside start requests answers s requests' answers' t := by
  induction hinserted generalizing history answers' t with
  | nil =>
    obtain ⟨rfl, rfl, rfl⟩ := hrun.of_nil
    exact ⟨[], _, .nil, .start⟩
  | both _ r ih =>
    obtain ⟨earlier, later, answers₀, answer', t₀, rfl, rfl, hbefore, hserves', hclock⟩ := hrun.last
    obtain ⟨answers, s₀, hrun', halong⟩ := ih hbefore
    obtain ⟨answer, s, hserves, halike⟩ := halong.swept.served hserves' hclock
    rw [halong.swept.now_eq, halike.swept.now_eq] at hclock
    exact ⟨answers ++ [answer], s, hrun'.snoc hserves hclock, halong.both hserves hserves' halike⟩
  | @sweep _ _ _ r hr ih =>
    obtain ⟨earlier, later, answers₀, answer', t₀, rfl, rfl, hbefore, hserves', _⟩ := hrun.last
    obtain ⟨answers, s, hrun', halong⟩ := ih hbefore
    obtain ⟨hswept, hquiet, hstatuses⟩ := halong.swept.sweep_right hr
    -- A sweep can be served in one way only, so the given step is the one that was related.
    obtain ⟨rfl, hserve⟩ := hserves'.of_alone (isBatch_of_isSweep hr)
    have ht : t = (t₀.serve r).2 := congrArg Prod.snd hserve
    rw [hquiet] at hserves' ⊢
    rw [List.append_nil]
    subst ht
    exact ⟨answers, s, hrun', halong.sweep hr hserves' hswept hstatuses⟩

end Service

/-- In runs whose clock does not go back, with the jobs of a batch in any order, sweeping goes
    unnoticed: a run of some requests and one with sweeps put in always stand beside each other, with
    the same happenings, counts and answers, but for those that tell of what was swept. -/
theorem sweeping_unnoticed {start : Service} {requests requests' : List Request}
    (hinserted : Inserted requests requests') :
    (∀ history answers s, Service.Run Service.notEarlier start requests history answers s →
      ∃ answers' t, Service.Run Service.notEarlier start requests' history answers' t ∧
        Alongside start requests answers s requests' answers' t) ∧
    (∀ history answers' t, Service.Run Service.notEarlier start requests' history answers' t →
      ∃ answers s, Service.Run Service.notEarlier start requests history answers s ∧
        Alongside start requests answers s requests' answers' t) :=
  ⟨fun _ _ _ hrun => hrun.with_sweeps hinserted, fun _ _ _ hrun => hrun.without_sweeps hinserted⟩

/-! ## The two nodes -/

open TwoNodes

/-- An offset is measured, left alone for the staleness, and asked for. -/
def askedStale : List Request :=
  [.measureOffset "a" ["b"], .advance (.ofSecs 1800), .storedOffset "a"]

/-- The same with maintenance before the offset is asked for. -/
def askedSwept : List Request :=
  [.measureOffset "a" ["b"], .advance (.ofSecs 1800), .maintain, .storedOffset "a"]

theorem sweeping_unnoticed_maintained : Inserted askedStale askedSwept ∧
    ∃ history answers s answers' t,
      Service.Run Service.notEarlier (service 0 ground_ok) askedStale history answers s ∧
      Service.Run Service.notEarlier (service 0 ground_ok) askedSwept history answers' t ∧
      Alongside (service 0 ground_ok) askedStale answers s askedSwept answers' t := by
  have hinserted : Inserted askedStale askedSwept := .both (.sweep (.both (.both .nil _) _) rfl) _
  have hnone : Service.Run Service.notEarlier (service 0 ground_ok) [] [] [] _ := .nil
  have hforward : Instant.epoch ≤ Instant.epoch.addCapped (.ofSecs 1800) := by decide
  have hread (s : Service) : Service.notEarlier s.now (s.storedOffset "a").2.now := by
    rw [Service.now, Service.now, s.env_storedOffset]
    exact le_refl _
  have hrun := ((hnone.snoc (.alone (r := .measureOffset "a" ["b"]) rfl) (le_refl Instant.epoch)).snoc
    (.alone (r := .advance (.ofSecs 1800)) rfl) hforward).snoc
    (.alone (r := .storedOffset "a") rfl) (hread _)
  obtain ⟨answers', t, hrun', halong⟩ := (sweeping_unnoticed hinserted).1 _ _ _ hrun
  exact ⟨hinserted, _, _, _, answers', t, hrun, hrun', halong⟩

end LightCone
