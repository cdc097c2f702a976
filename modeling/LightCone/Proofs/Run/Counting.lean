import LightCone.Proofs.Run.Outcomes
import LightCone.Proofs.Run.Requests

/-!
What jobs and batches count.

Every event moves one counter by one, so what was counted between two memories is told by a
list of events, in any order. This file

1. reads the counter of an event off a tally (`Tally.counter`), and compares two memories by
   the events counted in between (`Memory.Counted`);
2. tells the events of an evaluation from its answer (`Happening.events`), hence those of a job
   from what happens in it (`counted_trace`);
3. shows that a batch counts, whenever it stops, the events of what has happened in it, and
   one item for each result and each fault (`Pool.Batch.counted`); recording its outcome then
   counts one synchronization for each (`Memory.counted_recordOutcome`).
-/
namespace LightCone

namespace Tally

/-- The counter that an event moves. -/
def counter (t : Tally) : Event → Nat
  | .cacheHit .delay => t.delayHits
  | .cacheHit .timing => t.timingHits
  | .cacheHit .offset => t.offsetHits
  | .cacheMiss .delay => t.delayMisses
  | .cacheMiss .timing => t.timingMisses
  | .cacheMiss .offset => t.offsetMisses
  | .delayComputed => t.delaysComputed
  | .validation true => t.accepted
  | .validation false => t.rejected
  | .batchItem true => t.batchOk
  | .batchItem false => t.batchFailed
  | .sync true => t.syncsOk
  | .sync false => t.syncsFailed

theorem counter_record (t : Tally) (e e' : Event) :
    (t.record e).counter e' = t.counter e' + [e].count e' := by
  rcases e with (_ | _ | _) | (_ | _ | _) | _ | (_ | _) | (_ | _) | (_ | _) <;>
    rcases e' with (_ | _ | _) | (_ | _ | _) | _ | (_ | _) | (_ | _) | (_ | _) <;> rfl

end Tally

namespace Memory

/-- Since a memory certain events were counted, in any order, and no others. -/
def Counted (m m' : Memory) (es : List Event) : Prop :=
  ∀ e, m'.tally.counter e = m.tally.counter e + es.count e

namespace Counted

variable {m m' m'' : Memory} {es es' : List Event}

theorem refl (m : Memory) : Counted m m [] := fun _ => rfl

/-- A memory with the same tally has counted nothing. -/
theorem of_tally (h : m'.tally = m.tally) : Counted m m' [] := fun e => congrArg (·.counter e) h

theorem trans (h : Counted m m' es) (h' : Counted m' m'' es') : Counted m m'' (es ++ es') := by
  intro e
  rw [h' e, h e, List.count_append, Nat.add_assoc]

theorem congr (h : Counted m m' es) (hsame : ∀ e, es'.count e = es.count e) : Counted m m' es' :=
  fun e => (h e).trans (congrArg _ (hsame e).symm)

theorem count (m : Memory) (e : Event) : Counted m (m.count e) [e] := m.tally.counter_record e

/-- Events followed by none. -/
theorem andThen (h : Counted m m' es) (h' : m''.tally = m'.tally) : Counted m m'' es := by
  have hboth := h.trans (of_tally h')
  rwa [List.append_nil] at hboth

end Counted
end Memory

/-! ## Evaluations and jobs -/

/-- The events of an evaluation, by its answer; nothing else that happens counts an event. -/
def Happening.events : Happening → List Event
  | evaluated _ _ _ (.ok result) =>
    if result.cached then [.cacheHit .delay] else [.cacheMiss .delay, .delayComputed]
  | evaluated _ _ _ (.error _) => [.cacheMiss .delay]
  | _ => []

/-- The events of what happens, one after another. -/
def eventsOf (history : List Happening) : List Event := history.flatMap Happening.events

theorem eventsOf_append (history later : List Happening) :
    eventsOf (history ++ later) = eventsOf history ++ eventsOf later := List.flatMap_append

theorem eventsOf_cons (h : Happening) (history : List Happening) :
    eventsOf (h :: history) = h.events ++ eventsOf history := List.flatMap_cons

/-- Only evaluations of delays happen in jobs, as far as events go. -/
theorem mem_eventsOf {history : List Happening} {e : Event} (h : e ∈ eventsOf history) :
    e = .cacheHit .delay ∨ e = .cacheMiss .delay ∨ e = .delayComputed := by
  obtain ⟨happening, _, he⟩ := List.mem_flatMap.mp h
  unfold Happening.events at he
  split at he
  · split at he
    · exact .inl (List.mem_singleton.mp he)
    · simp only [List.mem_cons, List.not_mem_nil, or_false] at he
      exact .inr he
  · exact .inr (.inl (List.mem_singleton.mp he))
  · exact absurd he List.not_mem_nil

namespace Memory

theorem counted_evaluate (m : Memory) (env : Environment) (a b : Node) :
    Counted m (m.evaluate env a b).2 (m.evaluation env a b).events := by
  simp only [evaluation, evaluate]
  cases m.delays.get? (.of a.id b.id) env.now with
  | some stored => exact .count m _
  | none =>
    cases compute env a b with
    | error fault => exact .count m _
    | ok computed => exact (Counted.count m _).trans (.count _ .delayComputed)

end Memory

section Jobs

open Memory

variable {α : Type} {env : Environment}

theorem counted_trace (job : Job α) (limit : Option Nat) (m : Memory) :
    Counted m (job.trace env limit m).2 (eventsOf (job.trace env limit m).1) := by
  induction job generalizing limit m with
  | done value => cases limit <;> exact .refl m
  | lookup id next ih =>
    match limit with
    | none => exact ih _ none m
    | some 0 => exact .refl m
    | some (n + 1) => exact ih _ (some n) m
  | delay a b next ih =>
    simp only [Job.trace, eventsOf_cons]
    exact (m.counted_evaluate env a b).trans (ih _ limit _)
  | keep record next ih =>
    simp only [Job.trace, eventsOf_cons]
    exact (Counted.of_tally rfl).trans (ih limit _)

theorem counted_resumed (job : Job α) (m : Memory) :
    Counted m (job.resume env m).2 (eventsOf (job.resumed env m)) := by
  obtain ⟨rest, hresume, hresumed⟩ := job.exists_settle env m
  rw [hresume, hresumed, Job.settle_snd]
  exact counted_trace rest _ m

end Jobs

/-! ## Batches -/

namespace Pool

open Memory

variable {κ ν : Type} {env : Environment}

/-- The item that a job counts when it ends. -/
def itemEvents (job : Job (Except Fault ν)) : List Event :=
  match ended job with
  | some (.ok _) => [.batchItem true]
  | some (.error _) => [.batchItem false]
  | none => []

/-- The items of the jobs that have ended. -/
def itemsOf (pool : Pool κ ν) : List Event := pool.flatMap fun item => itemEvents item.2

theorem itemEvents_of_not_ended {job : Job (Except Fault ν)} (h : ended job = none) :
    itemEvents job = [] := by
  simp only [itemEvents, h]

theorem counted_countEnded (job : Job (Except Fault ν)) (m : Memory) :
    Counted m (countEnded job m) (itemEvents job) := by
  unfold countEnded itemEvents
  cases ended job with
  | none => exact .refl m
  | some result => cases result <;> exact .count m _

theorem counted_advance (env : Environment) (job : Job (Except Fault ν)) (m : Memory) :
    Counted m (advance env job m).2
      (eventsOf (job.resumed env m) ++ itemEvents (advance env job m).1) :=
  (counted_resumed job m).trans (counted_countEnded _ _)

/-- What has been counted at a point of an interleaving, beyond the items of jobs that had
    ended before. -/
theorem Interleaving.counted {x y : Pool κ ν × Memory} {history : List Happening}
    (h : Interleaving env x history y) (e : Event) :
    y.2.tally.counter e + (itemsOf x.1).count e =
      x.2.tally.counter e + (eventsOf history).count e + (itemsOf y.1).count e := by
  induction h with
  | rest x => rfl
  | @step before after key job m history y hjob _ ih =>
    have hadvance := counted_advance env job m e
    simp only [itemsOf, eventsOf_append, List.flatMap_append, List.flatMap_cons, List.count_append,
      itemEvents_of_not_ended hjob, List.count_nil] at ih hadvance ⊢
    omega

theorem itemsOf_of_fresh {pool : Pool κ ν} (h : ∀ item ∈ pool, ended item.2 = none) :
    itemsOf pool = [] :=
  List.flatMap_eq_nil_iff.mpr fun item hitem => itemEvents_of_not_ended (h item hitem)

section Outcomes

variable [Key κ] [DecidableEq κ]

/-- One item for each result and each fault. -/
def outcomeEvents (o : BatchOutcome κ ν) : List Event :=
  List.replicate o.results.size (.batchItem true) ++
    List.replicate o.failures.size (.batchItem false)

/-- The items of the jobs that have ended are the results and the faults. -/
theorem count_itemsOf {pool : Pool κ ν} (h : (pool.map Prod.fst).Nodup) (cancel : Cancellation)
    (e : Event) : (itemsOf pool).count e = (outcomeEvents (pool.outcome cancel)).count e := by
  simp only [outcomeEvents, outcome, size_results h, size_failures h, List.count_append,
    List.count_replicate]
  clear h
  induction pool with
  | nil => simp [itemsOf]
  | cons item pool ih =>
    have hcons : itemsOf (item :: pool) = itemEvents item.2 ++ itemsOf pool := List.flatMap_cons
    rw [hcons, List.count_append, ih]
    cases hended : ended item.2 with
    | none => simp [itemEvents, resultOf, faultOf, hended]
    | some answer =>
      cases answer with
      | ok value =>
        simp only [itemEvents, resultOf, faultOf, hended, List.filterMap_cons, List.length_cons,
          List.count_singleton]
        split <;> omega
      | error fault =>
        simp only [itemEvents, resultOf, faultOf, hended, List.filterMap_cons, List.length_cons,
          List.count_singleton]
        split <;> omega

theorem Batch.counted {jobs : Pool κ ν} {cancel : Cancellation} {m m' : Memory}
    {history : List Happening} {o : BatchOutcome κ ν} (h : Batch env jobs cancel m history o m')
    (hfresh : ∀ item ∈ jobs, ended item.2 = none) (hkeys : (jobs.map Prod.fst).Nodup) :
    Counted m m' (eventsOf history ++ outcomeEvents o) := by
  obtain ⟨pool, run, rfl, _⟩ := h.exists_stop hfresh
  have hkeys' : (pool.map Prod.fst).Nodup := by rwa [run.keys_eq]
  intro e
  have hcounted := run.counted e
  rw [itemsOf_of_fresh hfresh, List.count_nil, count_itemsOf hkeys' cancel] at hcounted
  rw [List.count_append, ← Nat.add_assoc]
  exact hcounted

/-- The counts of items grow by the results and the faults. -/
theorem Batch.counted_items {jobs : Pool κ ν} {cancel : Cancellation} {m m' : Memory}
    {history : List Happening} {o : BatchOutcome κ ν} (h : Batch env jobs cancel m history o m')
    (hfresh : ∀ item ∈ jobs, ended item.2 = none) (hkeys : (jobs.map Prod.fst).Nodup) :
    m'.tally.batchOk = m.tally.batchOk + o.results.size ∧
      m'.tally.batchFailed = m.tally.batchFailed + o.failures.size := by
  have hnone (ok : Bool) : (eventsOf history).count (.batchItem ok) = 0 :=
    List.count_eq_zero.mpr fun hmem => by simpa using mem_eventsOf hmem
  have hcounted (ok : Bool) := h.counted hfresh hkeys (.batchItem ok)
  simp only [List.count_append, hnone, outcomeEvents, List.count_replicate] at hcounted
  exact ⟨by simpa [Tally.counter] using hcounted true, by simpa [Tally.counter] using hcounted false⟩

end Outcomes
end Pool

/-! ## Synchronization -/

namespace Memory

theorem counted_foldl {β : Type} {step : Memory → β → Memory} {e : Event}
    (hstep : ∀ m x, Counted m (step m x) [e]) (l : List β) (m : Memory) :
    Counted m (l.foldl step m) (List.replicate l.length e) := by
  induction l generalizing m with
  | nil => exact .refl m
  | cons x l ih => exact (hstep m x).trans (ih _)

/-- One synchronization for each result and each fault. -/
def syncEvents (o : BatchOutcome String NodeOffset) : List Event :=
  List.replicate o.results.size (.sync true) ++ List.replicate o.failures.size (.sync false)

theorem counted_recordOutcome (m : Memory) (o : BatchOutcome String NodeOffset) (now : Instant)
    (historyLength : Nat) : Counted m (m.recordOutcome o now historyLength) (syncEvents o) := by
  refine (counted_foldl (fun m _ => ?_) _ m).trans (counted_foldl (fun m _ => ?_) _ _)
  · exact (Counted.count m (.sync true)).andThen rfl
  · exact (Counted.count m (.sync false)).andThen rfl

end Memory
end LightCone
