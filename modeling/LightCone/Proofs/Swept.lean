import LightCone.Proofs.Expiry
import LightCone.Proofs.Run.Twins

/-!
Services that have been swept more often than others.

Sweeps remove what has expired, and an expired entry is as good as none: a read refuses both. This
file

1. relates a cache to one that has been swept more often (`ExpiringCache.Swept`): they give the same
   fresh values, and stay so related whatever is done to both;
2. does the same for memories, which no job tells apart (`Memory.Swept.tandem`);
3. runs each operation of a service on two services with such memories. All give one result in both,
   but for the one read that tells an expired entry from none (`Service.Swept.storedOffset`).
-/
namespace LightCone

/-! ## Caches -/

namespace ExpiringCache

variable {κ α : Type} [Key κ] [DecidableEq κ]

/-- A cache is another one without some of its expired entries. -/
structure Swept (now : Instant) (c d : ExpiringCache κ α) : Prop where
  lifetime_eq : d.lifetime = c.lifetime
  stored : ∀ {k e}, d.entries.find? k = some e → c.entries.find? k = some e
  fresh : ∀ {k e}, c.entries.find? k = some e → e.isFresh now = true → d.entries.find? k = some e

namespace Swept

variable {now : Instant} {c d : ExpiringCache κ α}

theorem refl (now : Instant) (c : ExpiringCache κ α) : Swept now c c := ⟨rfl, id, fun h _ => h⟩

theorem later {later : Instant} (h : Swept now c d) (hlater : now ≤ later) :
    Swept later c d where
  lifetime_eq := h.lifetime_eq
  stored := h.stored
  fresh := by
    intro k e hfind hfresh
    refine h.fresh hfind ?_
    simp only [Stamped.isFresh, decide_eq_true_eq] at hfresh ⊢
    exact hlater.trans_lt hfresh

/-- A fresh value is found in both caches or in none. -/
theorem get?_eq (h : Swept now c d) (k : κ) : d.get? k now = c.get? k now := by
  apply Option.ext
  intro value
  rw [get?_eq_some_iff, get?_eq_some_iff]
  refine ⟨?_, ?_⟩
  · rintro ⟨e, hfind, hfresh, hvalue⟩
    exact ⟨e, h.stored hfind, hfresh, hvalue⟩
  · rintro ⟨e, hfind, hfresh, hvalue⟩
    exact ⟨e, h.fresh hfind (decide_eq_true hfresh), hfresh, hvalue⟩

/-- What is not fresh may be expired in one cache and missing in the other. -/
theorem lookup_eq_or (h : Swept now c d) (k : κ) : d.lookup k now = c.lookup k now ∨
    (∃ value age, c.lookup k now = .expired value age) ∧ d.lookup k now = .missing := by
  cases hd : d.entries.find? k with
  | some e => exact .inl (by rw [lookup, lookup, hd, h.stored hd])
  | none =>
    have hmissing : d.lookup k now = .missing := lookup_eq_missing_iff.mpr hd
    cases hc : c.lookup k now with
    | fresh value =>
      have hnone : d.get? k now = none := by simp only [get?, hmissing]
      rw [h.get?_eq, lookup_eq_fresh_iff.mp hc] at hnone
      exact absurd hnone (Option.some_ne_none value)
    | expired value age => exact .inr ⟨⟨value, age, rfl⟩, hmissing⟩
    | missing => exact .inl hmissing

theorem freshEntries_eq (h : Swept now c d) : d.freshEntries now = c.freshEntries now := by
  have hkept : (d.entries.filter fun _ e => e.isFresh now) =
      c.entries.filter fun _ e => e.isFresh now := by
    apply Table.ext
    intro k
    apply Option.ext
    intro e
    simp only [Table.find?_filter, Option.filter_eq_some_iff]
    exact ⟨fun hd => ⟨h.stored hd.1, hd.2⟩, fun hc => ⟨h.fresh hc.1 hc.2, hc.2⟩⟩
  exact congrArg (fun t : Table κ (Stamped α) => t.entries.map fun e => (e.1, e.2.value)) hkept

theorem insert (h : Swept now c d) (k : κ) (v : α) :
    Swept now (c.insert k v now) (d.insert k v now) where
  lifetime_eq := h.lifetime_eq
  stored := by
    intro j e
    simp only [ExpiringCache.insert, insertFor, Table.find?_insert, h.lifetime_eq]
    split
    · exact id
    · exact h.stored
  fresh := by
    intro j e
    simp only [ExpiringCache.insert, insertFor, Table.find?_insert, h.lifetime_eq]
    split
    · exact fun hsome _ => hsome
    · exact h.fresh

/-- One more sweep of the second cache. -/
theorem sweep_right (h : Swept now c d) : Swept now c (d.sweep now).2 where
  lifetime_eq := h.lifetime_eq
  stored := by
    intro k e hfind
    simp only [sweep, Table.find?_filter, Option.filter_eq_some_iff] at hfind
    exact h.stored hfind.1
  fresh := by
    intro k e hfind hfresh
    simp only [sweep, Table.find?_filter, Option.filter_eq_some_iff]
    exact ⟨h.fresh hfind hfresh, hfresh⟩

theorem sweep_both (h : Swept now c d) : Swept now (c.sweep now).2 (d.sweep now).2 where
  lifetime_eq := h.lifetime_eq
  stored := by
    intro k e hfind
    simp only [sweep, Table.find?_filter, Option.filter_eq_some_iff] at hfind ⊢
    exact ⟨h.stored hfind.1, hfind.2⟩
  fresh := by
    intro k e hfind hfresh
    simp only [sweep, Table.find?_filter, Option.filter_eq_some_iff] at hfind ⊢
    exact ⟨h.fresh hfind.1 hfresh, hfresh⟩

theorem clear (h : Swept now c d) : Swept now c.clear.2 d.clear.2 where
  lifetime_eq := h.lifetime_eq
  stored := id
  fresh := fun hfind _ => hfind

end Swept
end ExpiringCache

/-! ## Memories -/

/-- A memory is another one without some expired entries, as far as its caches and counts go. -/
structure Memory.Swept (now : Instant) (m n : Memory) : Prop where
  delays : m.delays.Swept now n.delays
  timings : m.timings.Swept now n.timings
  offsets : m.offsets.Swept now n.offsets
  tally_eq : n.tally = m.tally
  metrics_eq : n.metrics = m.metrics

namespace Memory.Swept

variable {now : Instant} {m n : Memory}

theorem refl (now : Instant) (m : Memory) : Swept now m m :=
  ⟨.refl now _, .refl now _, .refl now _, rfl, rfl⟩

theorem later {later : Instant} (h : Swept now m n) (hlater : now ≤ later) :
    Swept later m n :=
  { h with
    delays := h.delays.later hlater
    timings := h.timings.later hlater
    offsets := h.offsets.later hlater }

theorem count (h : Swept now m n) (e : Event) : Swept now (m.count e) (n.count e) :=
  { h with
    tally_eq := congrArg (Tally.record · e) h.tally_eq
    metrics_eq := congrArg (Option.map (Metrics.record · e)) h.metrics_eq }

theorem storeDelay (h : Swept now m n) (pair : NodePair) (d : StoredDelay) :
    Swept now { m with delays := m.delays.insert pair d now }
      { n with delays := n.delays.insert pair d now } :=
  { h with delays := h.delays.insert pair d }

theorem storeOffset (h : Swept now m n) (record : NodeOffset) :
    Swept now { m with offsets := m.offsets.insert record.id record now }
      { n with offsets := n.offsets.insert record.id record now } :=
  { h with offsets := h.offsets.insert record.id record }

theorem evaluate {env : Environment} (h : Swept env.now m n) (a b : Node) :
    (n.evaluate env a b).1 = (m.evaluate env a b).1 ∧
      Swept env.now (m.evaluate env a b).2 (n.evaluate env a b).2 := by
  simp only [Memory.evaluate, h.delays.get?_eq]
  split
  · exact ⟨rfl, h.count _⟩
  · split
    · exact ⟨rfl, h.count _⟩
    · exact ⟨rfl, ((h.count (.cacheMiss .delay)).storeDelay _ _).count .delayComputed⟩

theorem lockstep (env : Environment) : Lockstep env (Swept env.now) where
  answer h a b := (h.evaluate a b).1
  evaluate h a b := (h.evaluate a b).2
  keep h record := h.storeOffset record
  count h e := h.count e

theorem tandem : Tandem Swept where
  lockstep := lockstep
  statuses h _ _ := { h with }
  maintain h :=
    { h with
      delays := h.delays.sweep_both
      timings := h.timings.sweep_both
      offsets := h.offsets.sweep_both }

theorem twins : Twins Swept where
  toTandem := tandem
  timing_eq h name := h.timings.get?_eq name
  keepTiming h timing := { h with timings := h.timings.insert timing.fingerprint timing }

end Memory.Swept

/-! ## Requests without a batch -/

namespace Service

/-- A service is another one that has been swept less often. -/
abbrev Swept (s t : Service) : Prop := Related Memory.Swept s t

namespace Swept

variable {s t : Service}

theorem refl (s : Service) : s.Swept s := ⟨rfl, .refl _ _⟩

theorem setNow (h : s.Swept t) {now : Instant} (hclock : notEarlier s.now now) :
    (s.setNow now).Swept (t.setNow now) where
  env_eq := congrArg (fun env => { env with now := now }) h.env_eq
  memory := h.memory.later hclock

/-- The one read that tells an expired entry from none. -/
theorem storedOffset (h : s.Swept t) (id : String) :
    SameResult Memory.Swept s t (s.storedOffset id) (t.storedOffset id) ∨
    ∃ age, s.storedOffset id = (.error (.staleOffset id age), s.count (.cacheMiss .offset)) ∧
      t.storedOffset id = (.error (.offsetNotFound id), t.count (.cacheMiss .offset)) := by
  unfold Service.storedOffset
  rw [h.now_eq]
  rcases h.memory.offsets.lookup_eq_or id with hsame | ⟨⟨record, age, hexpired⟩, hmissing⟩
  · left
    rw [hsame]
    split
    · exact Memory.Swept.twins.counted h _ _
    · exact Memory.Swept.twins.counted h _ _
    · exact Memory.Swept.twins.counted h _ _
  · right
    rw [hexpired, hmissing]
    exact ⟨age, rfl, rfl⟩

/-- An offset that is not fresh is measured anew, whether it is stale or missing. -/
theorem currentOffset (h : s.Swept t) (id : String) :
    SameResult Memory.Swept s t (s.currentOffset id) (t.currentOffset id) ∧
      t.history (.currentOffset id) = s.history (.currentOffset id) := by
  rcases h.storedOffset id with hsame | ⟨age, hs, ht⟩
  · exact Memory.Swept.twins.currentOffset hsame
  · have hmiss := Memory.Swept.twins.counted h () (.cacheMiss .offset)
    obtain ⟨hresult, hhistory⟩ := Memory.Swept.twins.measuredAnew hmiss.related id
    simp only [Service.currentOffset, history, hs, ht]
    exact ⟨hmiss.after hresult, hhistory⟩

/-- The same things happen in both services. -/
theorem history_eq (h : s.Swept t) (r : Request) : t.history r = s.history r :=
  Memory.Swept.twins.history_eq h (fun id => (h.currentOffset id).2) r

end Swept
end Service

end LightCone
