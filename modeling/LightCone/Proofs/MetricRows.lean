import LightCone.Proofs.Run.Commuting
import LightCone.Proofs.Run.Counting

/-!
Two counts of the same events.

Events are counted twice: by a tally, in counters with names, and by metrics, in rows with labels.
The two are written down apart from each other. This file

1. lists which row shows which counter (`counterRows`), with texts and fields of its own: every event
   has a counter in the list, and no two of them share a row (`Metrics.place_injective`);
2. says what recording an event does to a row (`Metrics.at?_record`) and what the rows are after
   any events (`Metrics.at?_ofEvents`);
3. shows that events may be recorded in any order (`Tally.ofEvents_perm`, `Metrics.ofEvents_perm`);
4. concludes that the rows show the counters, and nothing else (`metrics_show_tally`).
-/
namespace LightCone

/-! ## The row of each counter -/

/-- A counter of a tally, the events that it counts, and the row that shows it. -/
structure CounterRow where
  counter : String
  value : Tally → Nat
  event : Event
  metric : String
  labels : String

/-- The counters in the order of their listing, each with its row. -/
def counterRows : List CounterRow :=
  [⟨"delay_cache_hits", Tally.delayHits, .cacheHit .delay,
     "light_timing_cache_lookups_total", "cache=delay,result=hit"⟩,
   ⟨"delay_cache_misses", Tally.delayMisses, .cacheMiss .delay,
     "light_timing_cache_lookups_total", "cache=delay,result=miss"⟩,
   ⟨"timing_cache_hits", Tally.timingHits, .cacheHit .timing,
     "light_timing_cache_lookups_total", "cache=timing,result=hit"⟩,
   ⟨"timing_cache_misses", Tally.timingMisses, .cacheMiss .timing,
     "light_timing_cache_lookups_total", "cache=timing,result=miss"⟩,
   ⟨"offset_cache_hits", Tally.offsetHits, .cacheHit .offset,
     "light_timing_cache_lookups_total", "cache=offset,result=hit"⟩,
   ⟨"offset_cache_misses", Tally.offsetMisses, .cacheMiss .offset,
     "light_timing_cache_lookups_total", "cache=offset,result=miss"⟩,
   ⟨"delays_computed", Tally.delaysComputed, .delayComputed,
     "light_timing_delays_computed_total", ""⟩,
   ⟨"validations_accepted", Tally.accepted, .validation true,
     "light_timing_validations_total", "verdict=accepted"⟩,
   ⟨"validations_rejected", Tally.rejected, .validation false,
     "light_timing_validations_total", "verdict=rejected"⟩,
   ⟨"batch_items_ok", Tally.batchOk, .batchItem true,
     "light_timing_batch_items_total", "result=ok"⟩,
   ⟨"batch_items_failed", Tally.batchFailed, .batchItem false,
     "light_timing_batch_items_total", "result=failed"⟩,
   ⟨"syncs_ok", Tally.syncsOk, .sync true, "light_timing_syncs_total", "result=ok"⟩,
   ⟨"syncs_failed", Tally.syncsFailed, .sync false, "light_timing_syncs_total", "result=failed"⟩]

/-- The metric and the label text of the row that an event falls into. -/
def Metrics.place (e : Event) : String × String := ((row e).metric, (row e).labelText)

/-- The list of rows fits what the tally and the metrics do, and only the row of computed delays has
    no labels. -/
theorem counterRows_fit : ∀ r ∈ counterRows, (∀ t, r.value t = t.counter r.event) ∧
    Metrics.place r.event = (r.metric, r.labels) ∧ (r.labels = "" ↔ r.event = .delayComputed) := by
  intro r hr
  simp only [counterRows, List.mem_cons, List.not_mem_nil, or_false] at hr
  rcases hr with rfl | rfl | rfl | rfl | rfl | rfl | rfl | rfl | rfl | rfl | rfl | rfl | rfl <;>
    exact ⟨fun _ => rfl, by decide, by decide⟩

theorem exists_counterRow (e : Event) : ∃ r ∈ counterRows, r.event = e := by
  rcases e with (_ | _ | _) | (_ | _ | _) | _ | (_ | _) | (_ | _) | (_ | _) <;> simp [counterRows]

/-- No counter has the row of another. -/
theorem nodup_counterRows : (counterRows.map fun r => (r.metric, r.labels)).Nodup := by decide

/-- No two events that differ fall into one row. -/
theorem Metrics.place_injective : Function.Injective place := by
  intro e e' hplace
  obtain ⟨r, hr, rfl⟩ := exists_counterRow e
  obtain ⟨r', hr', rfl⟩ := exists_counterRow e'
  have hrows : (r.metric, r.labels) = (r'.metric, r'.labels) := by
    rw [← (counterRows_fit r hr).2.1, ← (counterRows_fit r' hr').2.1, hplace]
  rw [List.inj_on_of_nodup_map nodup_counterRows hr hr' hrows]

/-! ## Counters -/

namespace Tally

variable {events events' : List Event}

/-- The tally of some events, one after another. -/
def ofEvents (events : List Event) : Tally := events.foldl record {}

theorem ofEvents_append (events : List Event) (e : Event) :
    ofEvents (events ++ [e]) = (ofEvents events).record e := by
  simp only [ofEvents, List.foldl_append, List.foldl_cons, List.foldl_nil]

/-- Each counter is the number of its events. -/
theorem counter_ofEvents (events : List Event) (e : Event) :
    (ofEvents events).counter e = events.count e := by
  induction events using List.reverseRecOn with
  | nil => rcases e with (_ | _ | _) | (_ | _ | _) | _ | (_ | _) | (_ | _) | (_ | _) <;> rfl
  | append_singleton events last ih =>
    rw [ofEvents_append, counter_record, ih, List.count_append]

theorem ofEvents_perm (h : events.Perm events') : ofEvents events = ofEvents events' :=
  h.foldl_eq' (fun _ _ _ _ t => record_comm t _ _) {}

end Tally

/-! ## Rows -/

namespace Metrics

variable {m : Metrics} {events events' : List Event} {e e' : Event} {metric labels : String} {n : Nat}

/-- The metrics after some events, one after another. -/
def ofEvents (events : List Event) : Metrics := events.foldl record initial

/-- The count in the row of a metric with some labels, if there is such a row. -/
def at? (m : Metrics) (metric labels : String) : Option Nat :=
  (m.counts.find? metric).bind fun rows => rows.find? labels

theorem ofEvents_append (events : List Event) (e : Event) :
    ofEvents (events ++ [e]) = (ofEvents events).record e := by
  simp only [ofEvents, List.foldl_append, List.foldl_cons, List.foldl_nil]

theorem at?_initial (metric labels : String) :
    initial.at? metric labels = if (metric, labels) = (delaysComputed, "") then some 0 else none := by
  simp only [at?, initial, Table.find?_insert, Prod.mk.injEq]
  by_cases hmetric : delaysComputed = metric
  · by_cases hlabels : "" = labels
    · subst hmetric hlabels
      simp [Table.find?_insert]
    · simp [hmetric, hlabels, Ne.symm hlabels, Table.find?_insert]
  · simp [hmetric, Ne.symm hmetric]

/-- An event adds one to its own row, which is there from then on, and to no other. -/
theorem at?_record (m : Metrics) (e : Event) (metric labels : String) :
    (m.record e).at? metric labels =
      if place e = (metric, labels) then some ((m.at? metric labels).getD 0 + 1)
      else m.at? metric labels := by
  simp only [at?, record, place, Table.find?_insert, Prod.mk.injEq]
  by_cases hmetric : (row e).metric = metric
  · subst hmetric
    by_cases hlabels : (row e).labelText = labels
    · subst hlabels
      cases m.counts.find? (row e).metric <;> simp [Table.find?_insert]
    · cases m.counts.find? (row e).metric <;> simp [hlabels, Table.find?_insert]
  · simp [hmetric]

theorem mem_rows_iff : (metric, labels, n) ∈ m.rows ↔ m.at? metric labels = some n := by
  simp only [rows, at?, List.mem_flatMap, List.mem_map, Option.bind_eq_some_iff]
  refine ⟨?_, ?_⟩
  · rintro ⟨⟨metric, rows⟩, hmetric, ⟨labels, n⟩, hlabels, hrow⟩
    cases hrow
    exact ⟨rows, Table.find?_eq_some_iff.mpr hmetric, Table.find?_eq_some_iff.mpr hlabels⟩
  · rintro ⟨rows, hmetric, hlabels⟩
    exact ⟨(metric, rows), Table.find?_eq_some_iff.mp hmetric, (labels, n),
      Table.find?_eq_some_iff.mp hlabels, rfl⟩

/-- Each row is listed once. -/
theorem nodup_rows (m : Metrics) : m.rows.Nodup := by
  unfold rows
  refine List.nodup_flatMap.mpr ⟨?_, ?_⟩
  · rintro ⟨metric, rows⟩ _
    refine (List.Nodup.of_map _ rows.nodup_keys).map fun entry entry' hsame => ?_
    simpa [Prod.ext_iff] using hsame
  · refine m.counts.sorted.imp fun hbefore row hrow hrow' => ?_
    simp only [List.mem_map] at hrow hrow'
    obtain ⟨_, _, rfl⟩ := hrow
    obtain ⟨_, _, hsame⟩ := hrow'
    exact Key.ne_of_before hbefore (congrArg Prod.fst hsame).symm

/-- The row of an event holds how often the event occurred. It is there if the event did occur, and
    the row without labels is there anyway. -/
theorem at?_ofEvents (events : List Event) (e : Event) :
    (ofEvents events).at? (place e).1 (place e).2 =
      if events.count e = 0 ∧ e ≠ .delayComputed then none else some (events.count e) := by
  induction events using List.reverseRecOn with
  | nil =>
    show initial.at? (place e).1 (place e).2 = _
    have hplace : (place e = (delaysComputed, "")) ↔ e = .delayComputed :=
      place_injective.eq_iff (b := .delayComputed)
    simp only [at?_initial, Prod.eta, hplace, List.count_nil, true_and, ite_not]
  | append_singleton events last ih =>
    rw [ofEvents_append, at?_record, ih, List.count_append, List.count_singleton]
    simp only [Prod.eta, place_injective.eq_iff, beq_iff_eq]
    by_cases hlast : last = e
    · by_cases hnone : events.count e = 0 ∧ e ≠ .delayComputed <;> simp [hlast, hnone]
    · simp [hlast]

/-- There are no rows but those of events. -/
theorem at?_ofEvents_of_forall_ne (events : List Event) (h : ∀ e, place e ≠ (metric, labels)) :
    (ofEvents events).at? metric labels = none := by
  induction events using List.reverseRecOn with
  | nil =>
    have hnot : (metric, labels) ≠ (delaysComputed, "") := fun hsame => h .delayComputed hsame.symm
    show initial.at? metric labels = none
    rw [at?_initial, if_neg hnot]
  | append_singleton events last ih => rw [ofEvents_append, at?_record, if_neg (h last), ih]

theorem ofEvents_perm (h : events.Perm events') : ofEvents events = ofEvents events' :=
  h.foldl_eq' (fun _ _ _ _ m => record_comm m _ _) initial

end Metrics

/-! ## What the rows show -/

section Shown

variable {r : CounterRow} {events : List Event}

theorem value_ofEvents (hr : r ∈ counterRows) : r.value (.ofEvents events) = events.count r.event := by
  rw [(counterRows_fit r hr).1, Tally.counter_ofEvents]

/-- The row of a counter holds it, and a row with labels is left out while the counter is zero. -/
theorem mem_rows_of_counterRow (hr : r ∈ counterRows) {n : Nat} :
    (r.metric, r.labels, n) ∈ (Metrics.ofEvents events).rows ↔
      n = r.value (.ofEvents events) ∧ (r.labels ≠ "" → n ≠ 0) := by
  obtain ⟨_, hplace, hlabels⟩ := counterRows_fit r hr
  have hrow := Metrics.at?_ofEvents events r.event
  rw [hplace, ← value_ofEvents hr] at hrow
  simp only [Metrics.mem_rows_iff, hrow, hlabels, ne_eq]
  split
  · next hnone =>
    simp only [reduceCtorEq, false_iff, not_and]
    rintro rfl hlabelled
    exact hlabelled hnone.2 hnone.1
  · next hsome =>
    rw [Option.some.injEq, eq_comm, and_iff_left_of_imp]
    rintro rfl hlabelled hzero
    exact hsome ⟨hzero, hlabelled⟩

/-- There are no rows but those of the counters. -/
theorem exists_counterRow_of_mem_rows {metric labels : String} {n : Nat}
    (h : (metric, labels, n) ∈ (Metrics.ofEvents events).rows) :
    ∃ r ∈ counterRows, r.metric = metric ∧ r.labels = labels := by
  by_contra hnone
  refine absurd h ?_
  rw [Metrics.mem_rows_iff, Metrics.at?_ofEvents_of_forall_ne]
  · simp
  · intro e he
    obtain ⟨r, hr, rfl⟩ := exists_counterRow e
    have hsame := (counterRows_fit r hr).2.1.symm.trans he
    exact hnone ⟨r, hr, congrArg Prod.fst hsame, congrArg Prod.snd hsame⟩

end Shown

/-- Whatever events are fed to a tally and to metrics, with fewer of each kind than there are words,
    the thirteen counters are those of the list, each counts the events of its kind, and none is past
    a word. Each has a row of its own, which holds its count and is there just if the count is not
    zero, or there are no labels; and there are no other rows. Neither the tally nor the metrics tell
    in what order the events came. -/
theorem metrics_show_tally (events : List Event) (hfew : ∀ e, events.count e < wordLimit) :
    (Tally.ofEvents events).counters =
      counterRows.map (fun r => (r.counter, r.value (.ofEvents events))) ∧
    (counterRows.map fun r => (r.metric, r.labels)).Nodup ∧
    (∀ r ∈ counterRows, r.value (.ofEvents events) = events.count r.event ∧
      r.value (.ofEvents events) < wordLimit ∧
      ∀ n, (r.metric, r.labels, n) ∈ (Metrics.ofEvents events).rows ↔
        n = r.value (.ofEvents events) ∧ (r.labels ≠ "" → n ≠ 0)) ∧
    (∀ metric labels n, (metric, labels, n) ∈ (Metrics.ofEvents events).rows →
      ∃ r ∈ counterRows, r.metric = metric ∧ r.labels = labels) ∧
    (Metrics.ofEvents events).rows.Nodup ∧
    ∀ events', events.Perm events' → Tally.ofEvents events' = .ofEvents events ∧
      Metrics.ofEvents events' = .ofEvents events := by
  refine ⟨rfl, nodup_counterRows, ?_, ?_, Metrics.nodup_rows _, ?_⟩
  · intro r hr
    refine ⟨value_ofEvents hr, ?_, fun n => mem_rows_of_counterRow hr⟩
    rw [value_ofEvents hr]
    exact hfew r.event
  · exact fun _ _ _ => exists_counterRow_of_mem_rows
  · intro events' hperm
    exact ⟨(Tally.ofEvents_perm hperm).symm, (Metrics.ofEvents_perm hperm).symm⟩

/-- Two misses of one cache and a failed synchronization make two rows, and the third is the one
    without labels. -/
theorem metrics_show_tally_three_events :
    let events : List Event := [.cacheMiss .timing, .sync false, .cacheMiss .timing]
    (∀ e, events.count e < wordLimit) ∧
    ("light_timing_cache_lookups_total", "cache=timing,result=miss", 2) ∈ (Metrics.ofEvents events).rows ∧
    ("light_timing_delays_computed_total", "", 0) ∈ (Metrics.ofEvents events).rows ∧
    (∀ n, ("light_timing_syncs_total", "result=ok", n) ∉ (Metrics.ofEvents events).rows) ∧
    Metrics.ofEvents [.sync false, .cacheMiss .timing, .cacheMiss .timing] = .ofEvents events := by
  intro events
  have hfew (e : Event) : events.count e < wordLimit :=
    Nat.lt_of_le_of_lt List.count_le_length (by decide)
  obtain ⟨_, _, hshown, _, _, hperm⟩ := metrics_show_tally events hfew
  refine ⟨hfew, ?_, ?_, ?_, (hperm _ (by decide)).2⟩
  · exact ((hshown ⟨"timing_cache_misses", Tally.timingMisses, .cacheMiss .timing, _, _⟩
      (by simp [counterRows])).2.2 2).mpr ⟨rfl, fun _ => by decide⟩
  · exact ((hshown ⟨"delays_computed", Tally.delaysComputed, .delayComputed, _, _⟩
      (by simp [counterRows])).2.2 0).mpr ⟨rfl, fun hlabels => absurd rfl hlabels⟩
  · intro n hrow
    obtain ⟨hn, hnonzero⟩ := ((hshown ⟨"syncs_ok", Tally.syncsOk, .sync true, _, _⟩
      (by simp [counterRows])).2.2 n).mp hrow
    exact hnonzero (by decide) hn

end LightCone
