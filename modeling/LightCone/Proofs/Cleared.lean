import LightCone.Proofs.Run.Moves
import LightCone.Proofs.Run.TwoNodes
import LightCone.Proofs.Run.Twins

/-!
Clearing the stores makes a service new.

The three stores are all that a service remembers for its answers; statuses and counts are kept
beside them. This file

1. relates memories with the same stores, whatever their statuses and counts
   (`Memory.SameStores`), which jobs do not tell apart;
2. says what an answer tells besides statuses (`Request.withoutStatuses`), and serves every request
   alike in two services with the same stores, up to that (`SameStores.serves`);
3. shows that the stores of a service that was opened keep the lifetimes of its settings
   (`Service.Configured`), so that they are as at its opening once cleared;
4. concludes that a cleared service and a new one have the same runs
   (`clearCaches_renews`).
-/
namespace LightCone

/-! ## Memories with the same stores -/

/-- Two memories with the same delays, timings and offsets. -/
structure Memory.SameStores (m n : Memory) : Prop where
  delays_eq : n.delays = m.delays
  timings_eq : n.timings = m.timings
  offsets_eq : n.offsets = m.offsets

namespace Memory.SameStores

variable {m n : Memory}

theorem symm (h : m.SameStores n) : n.SameStores m :=
  ⟨h.delays_eq.symm, h.timings_eq.symm, h.offsets_eq.symm⟩

theorem count (h : m.SameStores n) (e : Event) : (m.count e).SameStores (n.count e) :=
  ⟨h.delays_eq, h.timings_eq, h.offsets_eq⟩

theorem evaluate (h : m.SameStores n) (env : Environment) (a b : Node) :
    (n.evaluate env a b).1 = (m.evaluate env a b).1 ∧
      (m.evaluate env a b).2.SameStores (n.evaluate env a b).2 := by
  simp only [Memory.evaluate, h.delays_eq]
  split
  · exact ⟨rfl, h.count _⟩
  · split
    · exact ⟨rfl, h.count _⟩
    · refine ⟨rfl, ?_, h.timings_eq, h.offsets_eq⟩
      show n.delays.insert _ _ _ = m.delays.insert _ _ _
      rw [h.delays_eq]

theorem lockstep (env : Environment) : Lockstep env SameStores where
  answer h a b := (h.evaluate env a b).1
  evaluate h a b := (h.evaluate env a b).2
  keep h record := { h with offsets_eq := congrArg (·.insert record.id record env.now) h.offsets_eq }
  count h e := h.count e

theorem tandem : Tandem fun _ => SameStores where
  lockstep := lockstep
  statuses h _ _ := { h with }
  maintain {env _ _} h :=
    { delays_eq := congrArg (fun c => (c.sweep env.now).2) h.delays_eq
      timings_eq := congrArg (fun c => (c.sweep env.now).2) h.timings_eq
      offsets_eq := congrArg (fun c => (c.sweep env.now).2) h.offsets_eq }

theorem twins : Twins fun _ => SameStores where
  toTandem := tandem
  timing_eq {now _ _} h name := congrArg (·.get? name now) h.timings_eq
  keepTiming {now _ _} h timing :=
    { h with timings_eq := congrArg (·.insert timing.fingerprint timing now) h.timings_eq }

end Memory.SameStores

/-! ## Services with the same stores -/

/-- An answer without what it tells of sync statuses. -/
def Request.withoutStatuses : Request → Answer → Answer
  | .syncStatus _, _ => .status none
  | .syncStatuses, _ => .statuses []
  | .runLoop _, _ => .statuses []
  | .cleanupStatuses, _ => .removed 0
  | .maintain, .maintained counts => .maintained { counts with statuses := 0 }
  | _, answer => answer

namespace Service

/-- Two services with one environment and the same stores. -/
abbrev SameStores (s t : Service) : Prop := Related (fun _ => Memory.SameStores) s t

namespace SameStores

variable {s s' t : Service}

theorem symm (h : s.SameStores t) : t.SameStores s := ⟨h.env_eq.symm, h.memory.symm⟩

/-- What two services with the same stores answer to a request, and how they go on. -/
structure Served (r : Request) (x y : Answer × Service) : Prop where
  answer_eq : r.withoutStatuses y.1 = r.withoutStatuses x.1
  same : x.2.SameStores y.2

theorem served (r : Request) {α : Type} {x y : α × Service}
    (h : SameResult (fun _ => Memory.SameStores) s t x y) (form : α → Answer) :
    Served r (answered form x) (answered form y) where
  answer_eq := by
    rw [answered, answered, h.value_eq]
  same := h.related

theorem storedOffset (h : s.SameStores t) (id : String) :
    SameResult (fun _ => Memory.SameStores) s t (s.storedOffset id) (t.storedOffset id) := by
  unfold Service.storedOffset
  rw [h.now_eq, h.memory.offsets_eq]
  split
  · exact Memory.SameStores.twins.counted h _ _
  · exact Memory.SameStores.twins.counted h _ _
  · exact Memory.SameStores.twins.counted h _ _

theorem history_eq (h : s.SameStores t) (r : Request) : t.history r = s.history r :=
  Memory.SameStores.twins.history_eq h
    (fun id => (Memory.SameStores.twins.currentOffset (h.storedOffset id)).2) r

/-- Any request but one with a batch. -/
theorem serve_alone (h : s.SameStores t) {r : Request} (hr : r.isBatch = false) :
    Served r (s.serve r) (t.serve r) := by
  have hstored := h.storedOffset
  have hcommon {r : Request} (hr : r.isCommon = true) : Served r (s.serve r) (t.serve r) :=
    served r (Memory.SameStores.twins.serve_common h hr) id
  obtain ⟨env, n⟩ := t
  obtain ⟨rfl, hmemory⟩ := h
  have h : s.SameStores ⟨s.env, n⟩ := ⟨rfl, hmemory⟩
  have hdelays : n.delays = s.memory.delays := hmemory.delays_eq
  have htimings : n.timings = s.memory.timings := hmemory.timings_eq
  have hoffsets : n.offsets = s.memory.offsets := hmemory.offsets_eq
  cases r with
  | advance span => exact ⟨rfl, rfl, hmemory⟩
  | setNow now => exact ⟨rfl, rfl, hmemory⟩
  | storedOffset id => exact served _ (hstored id) _
  | currentOffset id => exact served _ (Memory.SameStores.twins.currentOffset (hstored id)).1 _
  | adjust timestamp id =>
    exact served (r := .adjust timestamp id)
      ((hstored id).map fun record => record.bind fun x => shift timestamp id x.offset) .adjusted
  | knownOffsets =>
    refine ⟨?_, h⟩
    simp only [serve, knownOffsets, now, hoffsets]
  | globalOffset =>
    refine ⟨?_, h⟩
    simp only [serve, Service.globalOffset, knownOffsets, settings, now, hoffsets]
  | syncStatus id => exact ⟨rfl, h⟩
  | syncStatuses => exact ⟨rfl, h⟩
  | maintain =>
    refine ⟨?_, (Memory.SameStores.tandem.maintain_related h).1⟩
    simp only [serve, answered, maintain, cleanupStatuses, Service.sweepOffsets,
      Service.sweepDelays, Service.sweepTimings, Request.withoutStatuses, now, hdelays, htimings, hoffsets]
  | sweepDelays =>
    refine ⟨?_, rfl, { hmemory with
      delays_eq := congrArg (fun c => (c.sweep s.now).2) hdelays }⟩
    simp only [serve, answered, Service.sweepDelays, now, hdelays]
  | sweepTimings =>
    refine ⟨?_, rfl, { hmemory with
      timings_eq := congrArg (fun c => (c.sweep s.now).2) htimings }⟩
    simp only [serve, answered, Service.sweepTimings, now, htimings]
  | sweepOffsets =>
    refine ⟨?_, rfl, { hmemory with
      offsets_eq := congrArg (fun c => (c.sweep s.now).2) hoffsets }⟩
    simp only [serve, answered, Service.sweepOffsets, now, hoffsets]
  | cleanupStatuses => exact ⟨rfl, rfl, { hmemory with }⟩
  | clearCaches =>
    refine ⟨?_, rfl, congrArg (·.clear.2) hdelays, congrArg (·.clear.2) htimings,
      congrArg (·.clear.2) hoffsets⟩
    simp only [serve, answered, Service.clearCaches, clearDelays, clearTimings, clearOffsets,
      hdelays, htimings, hoffsets]
  | batchDelays nodes cancel => exact absurd hr Bool.noConfusion
  | delayMatrix => exact absurd hr Bool.noConfusion
  | maxDelay => exact absurd hr Bool.noConfusion
  | batchOffsets ids references cancel => exact absurd hr Bool.noConfusion
  | sync cancel => exact absurd hr Bool.noConfusion
  | runLoop ms => exact absurd hr Bool.noConfusion
  | _ => exact hcommon rfl

/-- Whatever a request comes to in one service, it can come to in the other. -/
theorem serves (h : s.SameStores t) {r : Request} {history : List Happening} {answer : Answer}
    (hserves : s.Serves r history answer s') :
    ∃ answer' t', t.Serves r history answer' t' ∧ Served r (answer, s') (answer', t') := by
  cases hr : r.isBatch with
  | false =>
    obtain ⟨rfl, hserve⟩ := hserves.of_alone hr
    rw [hserve, ← h.history_eq]
    exact ⟨_, _, .alone hr, h.serve_alone hr⟩
  | true =>
    obtain ⟨answer', t', hserves', hsame, _, hanswers⟩ :=
      Memory.SameStores.tandem.serves_batch h hr hserves
    refine ⟨answer', t', hserves', ?_, hsame⟩
    -- Only the background loop answers with statuses.
    rcases hanswers with rfl | ⟨ms, rfl, rfl, rfl⟩
    · rfl
    · rfl

end SameStores
end Service

/-! ## Runs -/

/-- Answers to some requests, from two services: alike but for what they tell of sync statuses. -/
inductive AnsweredAlike : List Request → List Answer → List Answer → Prop where
  | nil : AnsweredAlike [] [] []
  | snoc {requests : List Request} {answers answers' : List Answer} {r : Request}
      {answer answer' : Answer} (earlier : AnsweredAlike requests answers answers')
      (h : r.withoutStatuses answer' = r.withoutStatuses answer) :
      AnsweredAlike (requests ++ [r]) (answers ++ [answer]) (answers' ++ [answer'])

namespace Service

variable {s t u : Service} {requests : List Request} {history : List Happening}
  {answers : List Answer}

/-- A run of one service is one of the other, with the same happenings and like answers. -/
theorem SameStores.run (h : s.SameStores t) (hrun : Run anyTime s requests history answers u) :
    ∃ answers' v, Run anyTime t requests history answers' v ∧
      AnsweredAlike requests answers answers' ∧ u.SameStores v := by
  induction hrun with
  | nil => exact ⟨[], t, .nil, .nil, h⟩
  | snoc _ hserves _ ih =>
    obtain ⟨answers', v, hrun', halike, hsame⟩ := ih
    obtain ⟨answer', v', hserves', hserved⟩ := hsame.serves hserves
    exact ⟨answers' ++ [answer'], v', hrun'.snoc hserves' trivial, halike.snoc hserved.answer_eq,
      hserved.same⟩

/-! ## Clearing -/

/-- A service runs with some settings, and its stores with the lifetimes of these. -/
structure Configured (settings : Settings) (access : Access) (s : Service) : Prop where
  settings_eq : s.settings = settings
  access_eq : s.env.access = access
  delays : s.memory.delays.lifetime = settings.propagation.delayLifetime
  timings : s.memory.timings.lifetime = settings.consensus.timingLifetime
  offsets : s.memory.offsets.lifetime = settings.offsets.staleness

theorem lifetime_evaluate (m : Memory) (env : Environment) (a b : Node) :
    (m.evaluate env a b).2.delays.lifetime = m.delays.lifetime := by
  simp only [Memory.evaluate]
  split
  · rfl
  · split <;> rfl

theorem Configured.move {settings : Settings} {access : Access} {later : List Happening}
    (h : Configured settings access s) (hmove : s.Move later t) : Configured settings access t := by
  cases hmove with
  | evaluate a b =>
    obtain ⟨htimings, hoffsets, _⟩ := s.memory.evaluate_frame s.env a b
    exact
      { h with
        delays := (lifetime_evaluate s.memory s.env a b).trans h.delays
        timings := (congrArg ExpiringCache.lifetime htimings).trans h.timings
        offsets := (congrArg ExpiringCache.lifetime hoffsets).trans h.offsets }
  | _ => exact { h with }

theorem configured_of_run {settings : Settings} {directory : Directory} {access : Access}
    {now : Instant} {metrics : Option Metrics}
    (hstart : start settings directory access now metrics = .ok s)
    (hrun : Run anyTime s requests history answers t) : Configured settings access t := by
  have hopened : Configured settings access s := by
    rw [eq_of_start hstart]
    exact ⟨rfl, rfl, rfl, rfl, rfl⟩
  exact hrun.invariant (P := fun _ => Configured settings access) (fun h => h.move)
    (fun h _ => { h with }) hopened

/-- A cleared service has the stores of a new one. -/
theorem Configured.cleared {settings : Settings} {access : Access}
    (h : Configured settings access s) (metrics : Option Metrics) :
    s.clearCaches.2.SameStores
      ⟨⟨settings, s.env.directory, access, s.now⟩, .initial settings metrics⟩ where
  env_eq := by
    rw [← h.settings_eq, ← h.access_eq]
    rfl
  memory :=
    { delays_eq := congrArg ExpiringCache.empty h.delays.symm
      timings_eq := congrArg ExpiringCache.empty h.timings.symm
      offsets_eq := congrArg ExpiringCache.empty h.offsets.symm }

/-- Settings that a service was opened with open another one. -/
theorem start_again {settings : Settings} {directory directory' : Directory} {access : Access}
    {now now' : Instant} {metrics metrics' : Option Metrics}
    (hstart : start settings directory access now metrics = .ok s) :
    start settings directory' access now' metrics' =
      .ok ⟨⟨settings, directory', access, now'⟩, .initial settings metrics'⟩ := by
  unfold start at hstart ⊢
  split at hstart
  · rfl
  · cases hstart

end Service

/-- After any run of a service, with the jobs of a batch in any order, clearing its stores leaves the
    directory, the clock, the sync statuses and all counts as they are. A service that is opened then,
    with the same settings and directory and at the same time, goes on like the cleared one: a run
    of either is a run of the other, with the same happenings, and with the same answers but for
    what they tell of sync statuses. -/
theorem clearCaches_renews {settings : Settings} {directory : Directory} {access : Access}
    {now : Instant} {metrics : Option Metrics} {start s : Service}
    (hstart : Service.start settings directory access now metrics = .ok start)
    {requests : List Request} {history : List Happening} {answers : List Answer}
    (hrun : Service.Run Service.anyTime start requests history answers s)
    (metrics' : Option Metrics) :
    s.clearCaches.2.env = s.env ∧ s.clearCaches.2.memory.statuses = s.memory.statuses ∧
      s.clearCaches.2.memory.tally = s.memory.tally ∧
      s.clearCaches.2.memory.metrics = s.memory.metrics ∧
    ∃ t, Service.start settings s.env.directory access s.now metrics' = .ok t ∧
      (∀ later happened told u,
        Service.Run Service.anyTime s.clearCaches.2 later happened told u →
        ∃ told' v, Service.Run Service.anyTime t later happened told' v ∧
          AnsweredAlike later told told' ∧ u.SameStores v) ∧
      (∀ later happened told' v, Service.Run Service.anyTime t later happened told' v →
        ∃ told u, Service.Run Service.anyTime s.clearCaches.2 later happened told u ∧
          AnsweredAlike later told' told ∧ v.SameStores u) := by
  have hsame := (Service.configured_of_run hstart hrun).cleared metrics'
  refine ⟨rfl, rfl, rfl, rfl, _, Service.start_again hstart, ?_, ?_⟩
  · intro later happened told u hlater
    exact hsame.run hlater
  · intro later happened told' v hlater
    exact hsame.symm.run hlater

open TwoNodes in
/-- A delay that was stored is answered after clearing as by a service that is just opened. -/
theorem clearCaches_renews_two_nodes : ∃ history s t happened told u told' v,
    Service.Run Service.anyTime (service 0 ground_ok) [.delay "a" "b"] history
      ((service 0 ground_ok).serveAll [.delay "a" "b"]).1 s ∧
    Service.start {} s.env.directory {} s.now none = .ok t ∧
    Service.Run Service.anyTime s.clearCaches.2 [.delay "a" "b"] happened told u ∧
    Service.Run Service.anyTime t [.delay "a" "b"] happened told' v ∧
    AnsweredAlike [.delay "a" "b"] told told' := by
  obtain ⟨history, hrun⟩ := Service.run_serveAll (service 0 ground_ok) [.delay "a" "b"]
  obtain ⟨_, _, _, _, t, ht, hthere, _⟩ := clearCaches_renews start_eq hrun none
  obtain ⟨happened, hlater⟩ := Service.run_serveAll _ [.delay "a" "b"]
  obtain ⟨told', v, hlater', halike, _⟩ := hthere _ _ _ _ hlater
  exact ⟨history, _, t, happened, _, _, told', v, hrun, ht, hlater, hlater', halike⟩

end LightCone
