import LightCone.Proofs.Run.Effects
import LightCone.Proofs.TimingSeparation

/-!
No stale timing or offset is ever used.

Timings and offsets are stored for a lifetime, and every way of reading them must look at it: a
timing on its own or inside the values derived from it, one offset, all offsets, their mean, a
shifted timestamp. This file

1. defines the latest offset of a node in a history (`LatestOffset`), and keeps along every run
   that the store holds nothing else (`OffsetMemo.move`);
2. says what every such answer is (`NothingStale`);
3. shows it for runs whose clock does not go back (`nothingStale_of_run`).
-/
namespace LightCone

/-! ## The latest offset of a node -/

/-- A record is kept for a node. -/
def Happening.KeepsFor (id : String) (h : Happening) : Prop :=
  ∃ record, h = .kept record ∧ record.id = id

/-- The last record calculated for a node; nothing was cleared since. -/
def LatestOffset (history : List Happening) (id : String) (record : NodeOffset) : Prop :=
  Latest (Happening.KeepsFor id) history (.kept record)

theorem LatestOffset.id_eq {history : List Happening} {id : String} {record : NodeOffset}
    (h : LatestOffset history id record) : record.id = id := by
  obtain ⟨record', hsame, hid⟩ := h.of_kind
  cases hsame
  exact hid

theorem LatestOffset.mem {history : List Happening} {id : String} {record : NodeOffset}
    (h : LatestOffset history id record) : .kept record ∈ history := by
  obtain ⟨earlier, later, rfl, _⟩ := h
  simp

/-- The latest records, each with its time. -/
def latestOffsets (history : List Happening) (id : String) (time : Instant) (record : NodeOffset) :
    Prop :=
  LatestOffset history id record ∧ record.calculatedAt = time

/-! ## The store along a run -/

/-- The store of offsets holds the latest ones and misses none that has not expired; no record is
    from the future. -/
structure OffsetMemo (history : List Happening) (s : Service) : Prop where
  remembers : s.memory.offsets.Remembers (fun id => id) s.settings.offsets.staleness
    (· ≤ s.now) (latestOffsets history)
  past : ∀ record, .kept record ∈ history → record.calculatedAt ≤ s.now

namespace OffsetMemo

variable {history : List Happening} {s s' : Service}

/-- The store is as it was, and nothing is kept or cleared. -/
theorem frame (h : OffsetMemo history s) {later : List Happening}
    (henv : s'.settings = s.settings ∧ s'.now = s.now) (hoffsets : s'.memory.offsets = s.memory.offsets)
    (hlater : ∀ e ∈ later, e ≠ .cleared ∧ ∀ record, e ≠ .kept record) :
    OffsetMemo (history ++ later) s' := by
  induction later using List.reverseRecOn with
  | nil =>
    rw [List.append_nil]
    refine ⟨?_, ?_⟩
    · rw [hoffsets, henv.1, henv.2]
      exact h.remembers
    · rw [henv.2]
      exact h.past
  | append_singleton later e ih =>
    obtain ⟨hclear, hkept⟩ := hlater e (by simp)
    have hearlier := ih fun e he => hlater e (List.mem_append_left _ he)
    rw [← List.append_assoc]
    refine ⟨hearlier.remembers.congr fun id time record => ?_, fun record hmem => ?_⟩
    · have hnot : ¬ e.KeepsFor id := by
        rintro ⟨record, hsame, _⟩
        exact hkept record hsame
      simp only [latestOffsets, LatestOffset, latest_snoc_of_not hclear hnot]
    · rcases List.mem_append.mp hmem with hold | hnew
      · exact hearlier.past record hold
      · exact absurd (List.mem_singleton.mp hnew).symm (hkept record)

/-- A record of the time takes the place of any other of its node. -/
theorem keepOffset (h : OffsetMemo history s) {record : NodeOffset}
    (hnow : record.calculatedAt = s.now) :
    OffsetMemo (history ++ [.kept record]) (s.remember (s.memory.keepOffset s.env record)) := by
  refine ⟨h.remembers.insert fun id time found => ⟨?_, ?_⟩, fun found hmem => ?_⟩
  · rintro ⟨hlatest, rfl⟩
    rcases latest_snoc.mp hlatest with ⟨hsame, hkeeps⟩ | ⟨hold, _, hnot⟩
    · cases hsame
      exact .inl ⟨hlatest.id_eq.symm, hnow, rfl⟩
    · refine .inr ⟨fun hid => ?_, hold, rfl⟩
      exact hnot ⟨record, rfl, hid.symm⟩
  · rintro (⟨hid, rfl, rfl⟩ | ⟨hid, hold, htime⟩)
    · exact ⟨latest_snoc.mpr (.inl ⟨rfl, found, rfl, hid.symm⟩), hnow⟩
    · refine ⟨latest_snoc.mpr (.inr ⟨hold, Happening.noConfusion, ?_⟩), htime⟩
      rintro ⟨found', hsame, hid'⟩
      cases hsame
      exact hid hid'.symm
  · rcases List.mem_append.mp hmem with hold | hnew
    · exact h.past found hold
    · cases List.mem_singleton.mp hnew
      rw [hnow]
      exact le_refl _

theorem clearCaches (h : OffsetMemo history s) :
    OffsetMemo (history ++ [.cleared]) s.clearCaches.2 := by
  refine ⟨h.remembers.clear fun id time record hlatest => ?_, fun record hmem => ?_⟩
  · rcases latest_snoc.mp hlatest.1 with ⟨hsame, _⟩ | ⟨_, hclear, _⟩
    · cases hsame
    · exact hclear rfl
  · rcases List.mem_append.mp hmem with hold | hnew
    · exact h.past record hold
    · cases List.mem_singleton.mp hnew

/-- Every move keeps the store, if the records it keeps are of the time. -/
theorem move (h : OffsetMemo history s) {later : List Happening} (hmove : s.Move later s')
    (hkept : ∀ record, .kept record ∈ later → record.calculatedAt = s.now) :
    OffsetMemo (history ++ later) s' := by
  cases hmove with
  | evaluate a b =>
    exact h.frame ⟨rfl, rfl⟩ (s.memory.evaluate_frame s.env a b).2.1 (by simp [Memory.evaluation])
  | keepOffset record => exact h.keepOffset (hkept record (List.mem_singleton.mpr rfl))
  | deriveTiming ids validators worst => exact h.frame ⟨rfl, rfl⟩ rfl (by simp)
  | count e => exact h.frame ⟨rfl, rfl⟩ rfl (by simp)
  | sweepDelays => exact h.frame ⟨rfl, rfl⟩ rfl (by simp)
  | sweepTimings => exact h.frame ⟨rfl, rfl⟩ rfl (by simp)
  | sweepOffsets =>
    rw [List.append_nil]
    exact ⟨h.remembers.sweep fun _ hexpired => hexpired, h.past⟩
  | clearCaches => exact h.clearCaches
  | statuses statuses => exact h.frame ⟨rfl, rfl⟩ rfl (by simp)
  | directory directory => exact h.frame ⟨rfl, rfl⟩ rfl (by simp)

theorem setNow (h : OffsetMemo history s) {now : Instant} (hclock : Service.notEarlier s.now now) :
    OffsetMemo history (s.setNow now) where
  remembers := h.remembers.mono fun _ hexpired => hexpired.trans hclock
  past := fun record hmem => (h.past record hmem).trans hclock

theorem start {settings : Settings} {directory : Directory} {access : Access} {now : Instant}
    {metrics : Option Metrics} (hstart : Service.start settings directory access now metrics = .ok s) :
    OffsetMemo [] s := by
  rw [Service.eq_of_start hstart]
  refine ⟨.empty fun id time record hlatest => not_latest_nil hlatest.1, fun record hmem => ?_⟩
  exact absurd hmem List.not_mem_nil

end OffsetMemo

/-! ## What is stale and what is not -/

/-- A record may still be used: the staleness has not passed since it was calculated, and the end of
    the calendar is not reached if that comes first. -/
def Service.Usable (s : Service) (record : NodeOffset) : Prop :=
  s.now.Within record.calculatedAt s.settings.offsets.staleness

/-- The record that is stored for a node, fresh or not. -/
def Service.recordOf (s : Service) (id : String) : Option NodeOffset :=
  (s.memory.offsets.entries.find? id).map Stamped.value

/-- How a service answers for timings and offsets after a history: from fresh values only, and of the
    offsets of a node from the latest only. -/
structure NothingStale (history : List Happening) (s : Service) : Prop where
  timing : ∀ {ids timing}, (s.consensusTiming ids).1 = .ok timing →
    s.now.Within timing.computedAt s.settings.consensus.timingLifetime ∨ timing.computedAt = s.now
  timeouts : ∀ ids, (s.timeouts ids).1 =
    (s.consensusTiming ids).1.map fun t => t.timeouts s.settings.consensus
  votingWindow : ∀ ids, (s.votingWindow ids).1 =
    (s.consensusTiming ids).1.map fun t => t.votingWindow s.settings.consensus
  blockInterval : ∀ ids load, (s.blockInterval ids load).1 =
    (s.consensusTiming ids).1.map fun t =>
      LightCone.blockInterval t.blockTime (loadShare load) s.settings.consensus.minBlockInterval
  stored : ∀ {id record}, (s.storedOffset id).1 = .ok record ↔
    LatestOffset history id record ∧ s.Usable record
  stale : ∀ {id id' age}, (s.storedOffset id).1 = .error (.staleOffset id' age) ↔
    id' = id ∧ ∃ record, LatestOffset history id record ∧ s.recordOf id = some record ∧
      ¬ s.Usable record ∧ (age.nanos : Int) = max 0 (s.now.nanosSince record.calculatedAt)
  /-- The age is exact for a record from outside leap seconds. -/
  exact_age : ∀ {id id' age}, (s.storedOffset id).1 = .error (.staleOffset id' age) →
    ∃ record, LatestOffset history id record ∧ (record.calculatedAt.leap = false →
      (age.nanos : Int) = s.now.nanosSince record.calculatedAt)
  /-- A stale record has outlived the staleness, unless it expired with the calendar. -/
  stale_age : ∀ {id id' age}, (s.storedOffset id).1 = .error (.staleOffset id' age) →
    ∃ record, LatestOffset history id record ∧
      (Instant.latestNanos < record.calculatedAt.nanos + s.settings.offsets.staleness.nanos ∨
        s.now.Outlived record.calculatedAt s.settings.offsets.staleness)
  notFound : ∀ {id id'}, (s.storedOffset id).1 = .error (.offsetNotFound id') ↔
    id' = id ∧ s.recordOf id = none
  /-- A stored offset is refused for no other reason. -/
  refused : ∀ {id fault}, (s.storedOffset id).1 = .error fault →
    (∃ age, fault = .staleOffset id age) ∨ fault = .offsetNotFound id
  current : ∀ {id record}, (s.currentOffset id).1 = .ok record →
    (LatestOffset history id record ∧ s.Usable record) ∨ record.calculatedAt = s.now
  known : ∀ {record}, record ∈ s.knownOffsets ↔
    LatestOffset history record.id record ∧ s.Usable record
  known_once : (s.knownOffsets.map NodeOffset.id).Nodup
  globalOffset : s.globalOffset = LightCone.globalOffset
    (s.knownOffsets.map fun r => (r.offset, r.confidence)) s.settings.offsets.globalMinConfidence
  adjusted : ∀ {timestamp id later}, (s.adjust timestamp id).1 = .ok later ↔
    ∃ record, (s.storedOffset id).1 = .ok record ∧ timestamp.add? record.offset = some later
  adjusted_exact : ∀ {timestamp id later}, (s.adjust timestamp id).1 = .ok later →
    ∃ record, LatestOffset history id record ∧ s.Usable record ∧
      later.nanos = timestamp.nanos + record.offset.nanos
  adjusted_overflow : ∀ {timestamp id record}, (s.storedOffset id).1 = .ok record →
    ((∃ text, (s.adjust timestamp id).1 = .error (.computationFailed text)) ↔
      Instant.latestNanos < timestamp.nanos + record.offset.nanos)
  adjusted_refused : ∀ {timestamp id fault}, (s.storedOffset id).1 = .error fault →
    (s.adjust timestamp id).1 = .error fault

/-! ### Timings -/

namespace Service

/-- A timing that is given was stored and is fresh, or was derived now. -/
theorem timing_answered (s : Service) {ids : List String} {timing : ConsensusTiming}
    (h : (s.consensusTiming ids).1 = .ok timing) :
    s.memory.timings.get? (fingerprint ids) s.now = some timing ∨ timing.computedAt = s.now := by
  rcases s.consensusTiming_cases ids with ⟨stored, hget, hhit⟩ | ⟨_, _, hanswer, _⟩ |
    ⟨_, derived, hanswer, hat, _⟩
  · rw [hhit] at h
    cases h
    exact .inl hget
  · rw [hanswer] at h
    cases h
  · rw [hanswer] at h
    cases h
    exact .inr hat

theorem fst_fromTiming {α : Type} (s : Service) (ids : List String)
    (f : ConsensusTiming → ConsensusSettings → α) :
    (s.fromTiming ids f).1 = (s.consensusTiming ids).1.map fun t => f t s.settings.consensus := by
  have hsettings : (s.consensusTiming ids).2.settings = s.settings := by
    rw [settings, env_consensusTiming, settings]
  simp only [fromTiming, hsettings]

end Service

theorem TimingMemo.young {lapsed : Instant → Instant → Prop} {history : List Happening} {s : Service}
    (h : TimingMemo lapsed history s) {ids : List String} {timing : ConsensusTiming}
    (hok : (s.consensusTiming ids).1 = .ok timing) :
    s.now.Within timing.computedAt s.settings.consensus.timingLifetime ∨
      timing.computedAt = s.now := by
  refine (s.timing_answered hok).imp (fun hget => ?_) fun hnow => hnow
  obtain ⟨time, ⟨_, _, rfl⟩, hfresh⟩ := h.remembers.latest_of_get? hget
  exact Instant.within_iff.mpr hfresh

/-! ### Offsets -/

/-- A lookup of a stored offset as it is answered. -/
def offsetAnswer (id : String) : Found NodeOffset → Except Fault NodeOffset
  | .fresh record => .ok record
  | .expired _ age => .error (.staleOffset id age)
  | .missing => .error (.offsetNotFound id)

section Answers

variable {id : String} {found : Found NodeOffset}

theorem offsetAnswer_eq_ok_iff {record : NodeOffset} :
    offsetAnswer id found = .ok record ↔ found = .fresh record := by
  cases found <;> simp [offsetAnswer]

theorem offsetAnswer_eq_stale_iff {id' : String} {age : Duration} :
    offsetAnswer id found = .error (.staleOffset id' age) ↔
      id' = id ∧ ∃ record, found = .expired record age := by
  cases found <;> simp [offsetAnswer, eq_comm]

theorem offsetAnswer_eq_notFound_iff {id' : String} :
    offsetAnswer id found = .error (.offsetNotFound id') ↔ id' = id ∧ found = .missing := by
  cases found <;> simp [offsetAnswer, eq_comm]

theorem offsetAnswer_refused {fault : Fault} (h : offsetAnswer id found = .error fault) :
    (∃ age, fault = .staleOffset id age) ∨ fault = .offsetNotFound id := by
  cases found with
  | fresh record => cases h
  | expired record age =>
    cases h
    exact .inl ⟨age, rfl⟩
  | missing =>
    cases h
    exact .inr rfl

end Answers

theorem Service.fst_storedOffset (s : Service) (id : String) :
    (s.storedOffset id).1 = offsetAnswer id (s.memory.offsets.lookup id s.now) := by
  unfold storedOffset
  cases s.memory.offsets.lookup id s.now <;> rfl

/-- A measured offset is of the time. -/
theorem Service.calculatedAt_of_measured {s : Service} {id : String} {references : List String}
    {record : NodeOffset} (h : (s.measureOffset id references).1 = .ok record) :
    record.calculatedAt = s.now :=
  ((meets_offsetJob id references s.now).run s.memory record h).2

namespace OffsetMemo

variable {history : List Happening} {s : Service} {id : String} {record : NodeOffset}

/-- An entry is the latest record of its node, put in when it was calculated. -/
theorem entry (h : OffsetMemo history s) {e : Stamped NodeOffset}
    (hfind : s.memory.offsets.entries.find? id = some e) :
    LatestOffset history id e.value ∧ e.insertedAt = e.value.calculatedAt ∧
      (e.expiresAt ≤ s.now ↔ ¬ s.Usable e.value) := by
  obtain ⟨time, value, ⟨hlatest, rfl⟩, rfl⟩ := h.remembers.stored hfind
  refine ⟨hlatest, rfl, ?_⟩
  rw [Service.Usable, Instant.within_iff, not_lt]
  rfl

/-- What is found fresh is the latest record, and it may be used. -/
theorem get?_eq_some_iff (h : OffsetMemo history s) :
    s.memory.offsets.get? id s.now = some record ↔ LatestOffset history id record ∧ s.Usable record := by
  rw [h.remembers.get?_eq_some_iff]
  refine ⟨?_, ?_⟩
  · rintro ⟨time, ⟨hlatest, rfl⟩, hfresh⟩
    exact ⟨hlatest, Instant.within_iff.mpr hfresh⟩
  · rintro ⟨hlatest, husable⟩
    exact ⟨record.calculatedAt, ⟨hlatest, rfl⟩, husable.before⟩

theorem stored_iff (h : OffsetMemo history s) : (s.storedOffset id).1 = .ok record ↔
    LatestOffset history id record ∧ s.Usable record := by
  rw [s.fst_storedOffset, offsetAnswer_eq_ok_iff, ExpiringCache.lookup_eq_fresh_iff,
    h.get?_eq_some_iff]

theorem stale_iff (h : OffsetMemo history s) {id' : String} {age : Duration} :
    (s.storedOffset id).1 = .error (.staleOffset id' age) ↔
      id' = id ∧ ∃ record, LatestOffset history id record ∧ s.recordOf id = some record ∧
        ¬ s.Usable record ∧ (age.nanos : Int) = max 0 (s.now.nanosSince record.calculatedAt) := by
  rw [s.fst_storedOffset, offsetAnswer_eq_stale_iff]
  refine and_congr_right fun _ => ?_
  simp only [ExpiringCache.lookup_eq_expired_iff, Service.recordOf, Option.map_eq_some_iff]
  refine ⟨?_, ?_⟩
  · rintro ⟨_, e, hfind, hexpired, rfl, rfl⟩
    obtain ⟨hlatest, hinserted, hunusable⟩ := h.entry hfind
    refine ⟨e.value, hlatest, ⟨e, hfind, rfl⟩, hunusable.mp hexpired, ?_⟩
    rw [hinserted]
    exact s.now.nanos_since e.value.calculatedAt
  · rintro ⟨_, _, ⟨e, hfind, rfl⟩, hunusable, hage⟩
    obtain ⟨_, hinserted, hexpired⟩ := h.entry hfind
    refine ⟨e.value, e, hfind, hexpired.mpr hunusable, rfl, ?_⟩
    have hsince := s.now.nanos_since e.value.calculatedAt
    rw [← hage] at hsince
    rw [hinserted]
    exact Duration.ext (Int.ofNat.inj hsince)

theorem notFound_iff (s : Service) {id id' : String} :
    (s.storedOffset id).1 = .error (.offsetNotFound id') ↔ id' = id ∧ s.recordOf id = none := by
  rw [s.fst_storedOffset, offsetAnswer_eq_notFound_iff, ExpiringCache.lookup_eq_missing_iff,
    Service.recordOf, Option.map_eq_none_iff]

/-- The age of a record from outside leap seconds is exact: the clock has not gone back since. -/
theorem exact_age (h : OffsetMemo history s) {id' : String} {age : Duration}
    (hstale : (s.storedOffset id).1 = .error (.staleOffset id' age)) :
    ∃ record, LatestOffset history id record ∧ (record.calculatedAt.leap = false →
      (age.nanos : Int) = s.now.nanosSince record.calculatedAt) := by
  obtain ⟨_, record, hlatest, _, _, hage⟩ := h.stale_iff.mp hstale
  refine ⟨record, hlatest, fun hleap => ?_⟩
  rw [hage, max_eq_right (Instant.nanosSince_nonneg (h.past record hlatest.mem) hleap)]

/-- A stale record is old, unless the end of the calendar cut its lifetime short. -/
theorem stale_age (h : OffsetMemo history s) {id' : String} {age : Duration}
    (hstale : (s.storedOffset id).1 = .error (.staleOffset id' age)) :
    ∃ record, LatestOffset history id record ∧
      (Instant.latestNanos < record.calculatedAt.nanos + s.settings.offsets.staleness.nanos ∨
        s.now.Outlived record.calculatedAt s.settings.offsets.staleness) := by
  obtain ⟨_, record, hlatest, _, hunusable, _⟩ := h.stale_iff.mp hstale
  rw [Service.Usable, Instant.within_iff, not_lt] at hunusable
  refine ⟨record, hlatest, ?_⟩
  by_cases hcalendar : record.calculatedAt.nanos + s.settings.offsets.staleness.nanos ≤
      Instant.latestNanos
  · exact .inr (Instant.outlived_of_le hunusable hcalendar)
  · exact .inl (not_le.mp hcalendar)

/-- A current offset was stored and may be used, or was calculated now. -/
theorem current (h : OffsetMemo history s) (hok : (s.currentOffset id).1 = .ok record) :
    (LatestOffset history id record ∧ s.Usable record) ∨ record.calculatedAt = s.now := by
  unfold Service.currentOffset at hok
  rcases hstored : s.storedOffset id with ⟨fault | stored, s'⟩
  all_goals
    rw [hstored] at hok
  · have henv := Service.env_storedOffset s id
    rw [hstored] at henv
    rw [Service.now, ← henv]
    exact .inr (Service.calculatedAt_of_measured hok)
  · cases hok
    exact .inl (h.stored_iff.mp (by rw [hstored]))

theorem mem_knownOffsets_iff (h : OffsetMemo history s) : record ∈ s.knownOffsets ↔
    LatestOffset history record.id record ∧ s.Usable record := by
  simp only [Service.knownOffsets, List.mem_map, Prod.exists, exists_eq_right,
    ExpiringCache.mem_freshEntries_iff, h.get?_eq_some_iff]
  refine ⟨?_, ?_⟩
  · rintro ⟨id, hlatest, husable⟩
    exact ⟨hlatest.id_eq ▸ hlatest, husable⟩
  · intro hrecord
    exact ⟨record.id, hrecord⟩

/-- The known offsets are of different nodes. -/
theorem nodup_knownOffsets (h : OffsetMemo history s) :
    (s.knownOffsets.map NodeOffset.id).Nodup := by
  have hids : s.knownOffsets.map NodeOffset.id =
      (s.memory.offsets.freshEntries s.now).map Prod.fst := by
    rw [Service.knownOffsets, List.map_map]
    refine List.map_congr_left fun e he => ?_
    have hget := ExpiringCache.mem_freshEntries_iff.mp he
    exact (h.get?_eq_some_iff.mp hget).1.id_eq
  rw [hids]
  exact (ExpiringCache.sorted_freshEntries _ _).imp fun hbefore => Key.ne_of_before hbefore

end OffsetMemo

/-! ### Shifted timestamps -/

namespace Service

variable {timestamp later : Instant} {id : String} {offset : Duration}

/-- A duration too long to be added leads past the calendar from everywhere. -/
theorem add?_of_not_shiftable (h : ¬ Instant.shiftable offset = true) :
    timestamp.add? offset = none := by
  have hrange := timestamp.inRange
  have hlong : Instant.longestShift < offset.nanos := by simpa [Instant.shiftable] using h
  simp only [Instant.longestShift] at hlong
  simp only [Instant.earliestNanos] at hrange
  rw [Instant.add?_eq_none_iff, Instant.latestNanos]
  omega

theorem shift_eq_ok_iff :
    shift timestamp id offset = .ok later ↔ timestamp.add? offset = some later := by
  unfold shift
  split
  · cases timestamp.add? offset <;> simp
  · next hlong => simp [add?_of_not_shiftable hlong]

theorem shift_fault_iff : (∃ text, shift timestamp id offset = .error (.computationFailed text)) ↔
    timestamp.add? offset = none := by
  unfold shift
  split
  · cases timestamp.add? offset <;> simp
  · next hlong => simp [add?_of_not_shiftable hlong]

/-- A timestamp is shifted by the stored offset. -/
theorem fst_adjust (s : Service) (timestamp : Instant) (id : String) :
    (s.adjust timestamp id).1 = (s.storedOffset id).1.bind fun r => shift timestamp id r.offset := rfl

theorem adjust_eq_ok_iff (s : Service) : (s.adjust timestamp id).1 = .ok later ↔
    ∃ record, (s.storedOffset id).1 = .ok record ∧ timestamp.add? record.offset = some later := by
  rw [fst_adjust]
  cases (s.storedOffset id).1 with
  | error fault => simp [Except.bind]
  | ok record => simp [Except.bind, shift_eq_ok_iff]

end Service

/-! ## Every run -/

/-- In a run whose clock does not go back, with the jobs of a batch in any order, no answer rests on
    a stale timing or offset. -/
theorem nothingStale_of_run {settings : Settings} {directory : Directory} {access : Access}
    {start : Instant} {metrics : Option Metrics} {s₀ s : Service}
    (hstart : Service.start settings directory access start metrics = .ok s₀)
    {requests : List Request} {history : List Happening} {answers : List Answer}
    (hrun : Service.Run Service.notEarlier s₀ requests history answers s) :
    NothingStale history s := by
  have htimings : TimingMemo (fun _ _ => True) history s :=
    hrun.invariant (fun h => h.move fun _ => trivial) (fun h _ => h.setNow fun _ _ => trivial)
      (TimingMemo.start hstart)
  have hoffsets : OffsetMemo history s :=
    hrun.invariant_of_kept (fun h => h.move) (fun h => h.setNow) (OffsetMemo.start hstart)
  exact
    { timing := htimings.young
      timeouts := fun ids => s.fst_fromTiming ids _
      votingWindow := fun ids => s.fst_fromTiming ids _
      blockInterval := fun ids load => s.fst_fromTiming ids _
      stored := hoffsets.stored_iff
      stale := hoffsets.stale_iff
      exact_age := hoffsets.exact_age
      stale_age := hoffsets.stale_age
      notFound := OffsetMemo.notFound_iff s
      refused := fun hfault => offsetAnswer_refused (s.fst_storedOffset _ ▸ hfault)
      current := hoffsets.current
      known := hoffsets.mem_knownOffsets_iff
      known_once := hoffsets.nodup_knownOffsets
      globalOffset := rfl
      adjusted := s.adjust_eq_ok_iff
      adjusted_exact := by
        intro timestamp id later hok
        obtain ⟨record, hstored, hadd⟩ := s.adjust_eq_ok_iff.mp hok
        obtain ⟨hlatest, husable⟩ := hoffsets.stored_iff.mp hstored
        exact ⟨record, hlatest, husable, Instant.nanos_of_add? hadd⟩
      adjusted_overflow := by
        intro timestamp id record hstored
        rw [← Instant.add?_eq_none_iff, ← Service.shift_fault_iff, s.fst_adjust, hstored]
        rfl
      adjusted_refused := by
        intro timestamp id fault hfault
        rw [s.fst_adjust, hfault]
        rfl }

/-! ## The two nodes -/

open TwoNodes

/-- Whether a lookup is refused for the age of what it finds. -/
def refusedAsStale : Except Fault NodeOffset → Bool
  | .error fault => fault.category = .stale
  | .ok _ => false

theorem refusedAsStale_iff {answer : Except Fault NodeOffset} :
    refusedAsStale answer = true ↔ ∃ id age, answer = .error (.staleOffset id age) := by
  cases answer with
  | error fault => cases fault <;> simp [refusedAsStale, Fault.category]
  | ok record => simp [refusedAsStale]

/-- An offset that is measured and then left alone for the staleness is still stored, and refused. -/
theorem nothingStale_left_alone : ∃ s history answers record,
    Service.Run Service.notEarlier (service 0 ground_ok)
      [.measureOffset "a" ["b"], .advance (service 0 ground_ok).settings.offsets.staleness]
      history answers s ∧
    NothingStale history s ∧ LatestOffset history "a" record ∧ s.recordOf "a" = some record ∧
      ¬ s.Usable record := by
  have hnone : Service.Run Service.notEarlier (service 0 ground_ok) [] [] [] _ := .nil
  have hforward : Instant.epoch ≤ Instant.epoch.addCapped (.ofSecs 1800) := by decide
  have hrun := (hnone.snoc (.alone (r := .measureOffset "a" ["b"]) rfl) (le_refl Instant.epoch)).snoc
    (.alone (r := .advance (service 0 ground_ok).settings.offsets.staleness) rfl) hforward
  have hrule := nothingStale_of_run start_eq hrun
  have hstale : refusedAsStale ((((service 0 ground_ok).serve (.measureOffset "a" ["b"])).2.serve
      (.advance (service 0 ground_ok).settings.offsets.staleness)).2.storedOffset "a").1 = true := by
    decide +kernel
  obtain ⟨id, age, hanswer⟩ := refusedAsStale_iff.mp hstale
  obtain ⟨_, record, hlatest, hstored, hunusable, _⟩ := hrule.stale.mp hanswer
  exact ⟨_, _, _, record, hrun, hrule, hlatest, hstored, hunusable⟩

/-- Near the end of a leap second after the second minute of 1970. By default timings are stored for two
    minutes. -/
def leapSecond : Instant := ⟨119900000000, true, by decide⟩

/-- A timing of the start of 1970 is still served then, though with the leap second more than its
    lifetime has passed. -/
theorem timing_served_past_lifetime :
    Service.start {} (directory 0 ground_ok) {} .epoch none = .ok (service 0 ground_ok) ∧
    ∃ s history answers timing,
      Service.Run Service.notEarlier (service 0 ground_ok)
        [.consensusTiming ["a", "b"], .setNow leapSecond] history answers s ∧
      (s.consensusTiming ["a", "b"]).1 = .ok timing ∧
      ¬ s.now.nanosSince timing.computedAt < s.settings.consensus.timingLifetime.nanos ∧
      timing.computedAt ≠ s.now := by
  have htiming := consensusTiming_ok finite_ground
  have henv := Service.env_consensusTiming (service 0 ground_ok) ["a", "b"]
  have hnow : ((service 0 ground_ok).consensusTiming ["a", "b"]).2.now = .epoch :=
    congrArg Environment.now henv
  have hsettings : (((service 0 ground_ok).consensusTiming ["a", "b"]).2.setNow leapSecond).settings =
      {} := congrArg Environment.settings henv
  have hforward : Service.notEarlier ((service 0 ground_ok).consensusTiming ["a", "b"]).2.now
      leapSecond := by
    rw [hnow]
    show Instant.epoch ≤ leapSecond
    decide
  have hstart : Service.notEarlier (service 0 ground_ok).now
      ((service 0 ground_ok).consensusTiming ["a", "b"]).2.now := by
    rw [hnow]
    exact le_refl Instant.epoch
  have hnone : Service.Run Service.notEarlier (service 0 ground_ok) [] [] [] _ := .nil
  have hrun := (hnone.snoc (.alone (r := .consensusTiming ["a", "b"]) rfl) hstart).snoc
    (.alone (r := .setNow leapSecond) rfl) hforward
  have hhit := get?_of_derived (t := leapSecond) rfl htiming (by decide)
  have hserved := Service.consensusTiming_of_hit
    (s := ((service 0 ground_ok).consensusTiming ["a", "b"]).2.setNow leapSecond) hhit
  refine ⟨start_eq, ((service 0 ground_ok).consensusTiming ["a", "b"]).2.setNow leapSecond, _, _, _,
    hrun, congrArg Prod.fst hserved, ?_, ?_⟩
  · rw [hsettings]
    show ¬ leapSecond.nanosSince .epoch < 120000000000
    decide
  · show Instant.epoch ≠ leapSecond
    decide

end LightCone
