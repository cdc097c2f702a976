import LightCone.Proofs.Conservation
import LightCone.Proofs.IdSets
import LightCone.Proofs.StatusChanges

/-!
Statuses as records of what was reported.

The status of a node has ten fields, which cycles update and of which cleanups know only one.
This file

1. says what a status is after some outcomes, field by field (`StatusLife.status`), and shows
   that recording one more outcome comes to the same (`StatusLife.status_record`);
2. reads off a ledger when the status of a node was last created and what was reported for it
   since (`lifeOf`), and shows that in every run the status is just that
   (`Service.Ledger.syncStatus_eq`);
3. accounts for one cycle: whose status changed and how, and what its report and the counters
   say of it (`Service.Recorded`).
-/
namespace LightCone

/-! ## Bounded histories and averages -/

namespace SyncStatus

section Histories

variable {α : Type}

theorem length_lastOf (n : Nat) (xs : List α) : (lastOf n xs).length = min n xs.length := by
  unfold lastOf
  rw [List.length_drop]
  omega

/-- What is dropped once need not be kept to know the latest items after the next one. -/
theorem lastOf_append (n : Nat) (xs : List α) (x : α) :
    lastOf n (lastOf n xs ++ [x]) = lastOf n (xs ++ [x]) := by
  have hdrop : lastOf n xs ++ [x] = (xs ++ [x]).drop (xs.length - n) := by
    unfold lastOf
    rw [List.drop_append_of_le_length (Nat.sub_le _ _)]
  rw [hdrop]
  unfold lastOf
  rw [List.drop_drop, List.length_drop, List.length_append, List.length_singleton]
  congr 1
  omega

end Histories

/-- The average of some offsets, updated with one after another. -/
def averageOf (offsets : List Duration) : Duration :=
  (offsets.foldl (fun x offset => (x.1 + 1, nextAverage x.2 offset (x.1 + 1))) (0, .zero)).2

theorem averageOf_append (offsets : List Duration) (offset : Duration) :
    averageOf (offsets ++ [offset]) =
      nextAverage (averageOf offsets) offset (offsets.length + 1) := by
  have hcount : (offsets.foldl (fun x offset => (x.1 + 1, nextAverage x.2 offset (x.1 + 1)))
      (0, .zero)).1 = offsets.length := by
    induction offsets using List.reverseRecOn with
    | nil => rfl
    | append_singleton offsets last ih => rw [List.foldl_append, List.length_append, ← ih]; rfl
  unfold averageOf
  rw [List.foldl_append, List.foldl_cons, List.foldl_nil, hcount]

end SyncStatus

/-! ## Statuses from outcomes -/

/-- When the status of a node was created, and what was reported for the node since. -/
structure StatusLife where
  createdAt : Instant
  /-- Each with its time: an offset, or what went wrong. -/
  outcomes : List (Instant × Except Fault Duration)

namespace StatusLife

variable {life : StatusLife}

def record (life : StatusLife) (outcome : Instant × Except Fault Duration) : StatusLife :=
  { life with outcomes := life.outcomes ++ [outcome] }

/-- The successful outcomes. -/
def offsets (life : StatusLife) : List (Instant × Duration) :=
  life.outcomes.filterMap fun outcome => outcome.2.toOption.map fun offset => (outcome.1, offset)

/-- The status of a node, by what was reported for it since the status was created. -/
def status (historyLength : Nat) (id : String) (life : StatusLife) : SyncStatus where
  id := id
  lastSync := life.offsets.getLast?.map Prod.fst
  successes := life.outcomes.countP fun outcome => outcome.2.isOk
  failures := life.outcomes.countP fun outcome => !outcome.2.isOk
  lastOffset := life.offsets.getLast?.map Prod.snd
  average := SyncStatus.averageOf (life.offsets.map Prod.snd)
  state :=
    match life.outcomes.getLast? with
    | none => .pending
    | some (_, .ok _) => .synced
    | some (_, .error _) => .failed
  lastError :=
    match life.outcomes.getLast? with
    | some (_, .error fault) => some fault.message
    | _ => none
  history := SyncStatus.lastOf historyLength (life.offsets.map Prod.snd)
  updatedAt :=
    match life.outcomes.getLast? with
    | some (time, _) => time
    | none => life.createdAt

theorem length_offsets (life : StatusLife) :
    life.offsets.length = life.outcomes.countP fun outcome => outcome.2.isOk := by
  unfold offsets
  rw [List.length_filterMap_eq_countP]
  refine List.countP_congr fun outcome _ => ?_
  obtain ⟨time, fault | offset⟩ := outcome <;> simp [Except.toOption, Except.isOk, Except.toBool]

theorem status_created (historyLength : Nat) (id : String) (now : Instant) :
    status historyLength id ⟨now, []⟩ = .pending id now := by
  simp [status, offsets, SyncStatus.pending, SyncStatus.averageOf, SyncStatus.lastOf]

/-- One more success is recorded in every field as the code does it. -/
theorem status_record_ok (historyLength : Nat) (id : String) (life : StatusLife) (now : Instant)
    (offset : Duration) : (life.record (now, .ok offset)).status historyLength id =
      (life.status historyLength id).recordSuccess offset now historyLength := by
  have hoffsets : (life.record (now, .ok offset)).offsets = life.offsets ++ [(now, offset)] := by
    simp [offsets, record, Except.toOption]
  have hlength := life.length_offsets
  simp only [status, SyncStatus.recordSuccess, hoffsets, List.map_append, List.map_cons,
    List.map_nil, SyncStatus.averageOf_append, SyncStatus.lastOf_append, List.length_map, hlength]
  simp [record, Except.isOk, Except.toBool]

theorem status_record_error (historyLength : Nat) (id : String) (life : StatusLife) (now : Instant)
    (fault : Fault) : (life.record (now, .error fault)).status historyLength id =
      (life.status historyLength id).recordFailure fault.message now := by
  have hoffsets : (life.record (now, .error fault)).offsets = life.offsets := by
    simp [offsets, record, Except.toOption]
  simp only [status, SyncStatus.recordFailure, hoffsets]
  simp [record, Except.isOk, Except.toBool]

/-- A status is pending until something is reported. -/
theorem state_eq_pending_iff (historyLength : Nat) (id : String) (life : StatusLife) :
    (life.status historyLength id).state = .pending ↔
      (life.status historyLength id).successes = 0 ∧ (life.status historyLength id).failures = 0 := by
  obtain ⟨createdAt, outcomes⟩ := life
  cases outcomes using List.reverseRecOn with
  | nil => simp [status]
  | append_singleton outcomes last =>
    obtain ⟨time, fault | offset⟩ := last <;> simp [status, Except.isOk, Except.toBool]

/-- The history has as many offsets as it may, and as there were successes. -/
theorem length_history (historyLength : Nat) (id : String) (life : StatusLife) :
    (life.status historyLength id).history.length =
      min historyLength (life.status historyLength id).successes := by
  simp only [status, SyncStatus.length_lastOf, List.length_map, life.length_offsets]

end StatusLife

/-! ## Outcomes in a ledger -/

/-- What the batch of a cycle reports of a node: its offset, its fault, or nothing if its job was cut
    off. -/
def BatchOutcome.reportedOf (o : BatchOutcome String NodeOffset) (id : String) :
    List (Except Fault Duration) :=
  ((o.results.find? id).map fun record => .ok record.offset).toList ++
    ((o.failures.find? id).map .error).toList

/-- What an entry means for the status of a node. -/
def Entry.live (id : String) (life : Option StatusLife) : Entry → Option StatusLife
  | .cycle known now o =>
    let begun := if id ∈ known then some (life.getD ⟨now, []⟩) else life
    begun.map fun life => (o.reportedOf id).foldl (fun life result => life.record (now, result)) life
  | .cleanup removed => if id ∈ removed then none else life
  | _ => life

/-- When the status of a node was last created, if it still is there, and what has been reported for
    the node since. -/
def lifeOf (id : String) (entries : List Entry) : Option StatusLife := entries.foldl (Entry.live id) none

namespace Service

variable {s s' : Service} {id : String} {life : Option StatusLife}

/-- The status of a node is that of its life. -/
def Tells (s : Service) (id : String) (life : Option StatusLife) : Prop :=
  s.syncStatus id = life.map (StatusLife.status s.settings.sync.historyLength id)

theorem Synced.syncStatus_eq {cancel : Cancellation} {history : List Happening}
    {o : BatchOutcome String NodeOffset} (h : s.Synced cancel history o s') (id : String) :
    s'.syncStatus id =
      (cycleChange s.env.directory o id).apply s.settings.sync s.now id (s.syncStatus id) := by
  obtain ⟨batch⟩ := h
  exact changes_recorded (statuses_batch batch) id

/-- A cycle creates the status of a known node that has none, and records what is reported. -/
theorem Synced.tells {cancel : Cancellation} {history : List Happening}
    {o : BatchOutcome String NodeOffset} (h : s.Synced cancel history o s') (hlife : s.Tells id life) :
    s'.Tells id ((Entry.cycle s.known s.now o).live id life) := by
  have hsettings : s'.settings = s.settings := by
    obtain ⟨_⟩ := h
    rfl
  unfold Tells at hlife ⊢
  rw [hsettings, h.syncStatus_eq, hlife]
  have hbegun : StatusChange.begun s.now id (decide (id ∈ s.known))
      (life.map (StatusLife.status s.settings.sync.historyLength id)) =
      (if id ∈ s.known then some (life.getD ⟨s.now, []⟩) else life).map
        (StatusLife.status s.settings.sync.historyLength id) := by
    unfold StatusChange.begun
    by_cases hknown : id ∈ s.known
    · cases life <;> simp [hknown, StatusLife.status_created]
    · simp [hknown]
  show StatusChange.failed s.now (o.failures.find? id) (StatusChange.succeeded s.now
    s.settings.sync.historyLength (o.results.find? id) (StatusChange.begun s.now id
      (decide (id ∈ s.known)) _)) = _
  rw [hbegun]
  simp only [Entry.live, BatchOutcome.reportedOf, StatusChange.failed, StatusChange.succeeded]
  generalize (if id ∈ s.known then some (life.getD ⟨s.now, []⟩) else life) = begun
  cases o.results.find? id <;> cases o.failures.find? id <;> cases begun <;>
    simp [StatusLife.status_record_ok, StatusLife.status_record_error]

theorem mem_outdated : id ∈ s.outdated ↔
    ∃ x, s.syncStatus id = some x ∧ x.retained s.settings.sync.statusRetention s.now = false := by
  unfold outdated
  rw [Table.mem_keys_iff]
  refine exists_congr fun x => ?_
  rw [Table.find?_filter, Option.filter_eq_some_iff, Bool.not_eq_true']
  rfl

/-- A cleanup removes the outdated statuses. -/
theorem tells_cleanup (hlife : s.Tells id life) (hstatuses : s.Changes s' id [.cleanup])
    (hsettings : s'.settings = s.settings) :
    s'.Tells id ((Entry.cleanup s.outdated).live id life) := by
  have hcleaned : s'.syncStatus id =
      (s.syncStatus id).filter fun x => x.retained s.settings.sync.statusRetention s.now := hstatuses
  unfold Tells at hlife ⊢
  rw [hsettings, hcleaned, Entry.live]
  by_cases hout : id ∈ s.outdated
  · obtain ⟨x, hx, hretained⟩ := mem_outdated.mp hout
    rw [if_pos hout, hx]
    simp [Option.filter, hretained]
  · rw [if_neg hout, ← hlife]
    cases hx : s.syncStatus id with
    | none => rfl
    | some x =>
      have hretained : x.retained s.settings.sync.statusRetention s.now = true := by
        by_contra hnot
        exact hout (mem_outdated.mpr ⟨x, hx, Bool.eq_false_of_not_eq_true hnot⟩)
      simp [Option.filter, hretained]

theorem CycleBooks.tells {history : List Happening} {entries : List Entry}
    (h : s.CycleBooks history entries s') (hlife : s.Tells id life) :
    s'.Tells id (entries.foldl (Entry.live id) life) := by
  induction h generalizing life with
  | rest s => exact hlife
  | @cycle s s' _ _ _ _ _ _ hsynced _ ih =>
    have hsynced' := hsynced.tells hlife
    apply ih
    exact tells_cleanup hsynced' (changes_maintain s' id) rfl

/-! ## Requests -/

theorem statuses_consensusTiming (s : Service) (ids : List String) :
    (s.consensusTiming ids).2.memory.statuses = s.memory.statuses := by
  cases hget : s.memory.timings.get? (fingerprint ids) s.now with
  | some timing => rw [consensusTiming_of_hit hget]; rfl
  | none =>
    rcases hjob : (s.count (.cacheMiss .timing)).perform (worstOfSetJob (distinctIds ids))
      with ⟨fault | ⟨validators, worst⟩, s'⟩
    all_goals
      have hs' : _ = s' := congrArg Prod.snd hjob
      have hstatuses : s'.memory.statuses = s.memory.statuses := by
        rw [← hs']
        exact statuses_run _ _
    · rw [consensusTiming_of_fault hget hjob, hstatuses]
    · rw [consensusTiming_of_worst hget hjob]
      exact hstatuses

theorem statuses_storedOffset (s : Service) (id : String) :
    (s.storedOffset id).2.memory.statuses = s.memory.statuses := by
  unfold storedOffset
  split <;> rfl

theorem statuses_currentOffset (s : Service) (id : String) :
    (s.currentOffset id).2.memory.statuses = s.memory.statuses := by
  have hstored := statuses_storedOffset s id
  unfold currentOffset
  rcases hanswer : s.storedOffset id with ⟨fault | record, s'⟩
  all_goals rw [hanswer] at hstored
  · exact (statuses_run _ _).trans hstored
  · exact hstored

/-- Requests without an entry leave every status as it was. -/
theorem statuses_alone {r : Request} (h : r.isBatch = false) (hentries : s.entries r = []) :
    (s.serve r).2.memory.statuses = s.memory.statuses := by
  cases r with
  | upsert node =>
    simp only [serve, upsert]
    cases s.env.directory.upsert node <;> rfl
  | delay source target => exact statuses_run _ _
  | delayWithin deadline source target =>
    have hstatuses : ((delayJob source target).runWithin s.env deadline s.memory).2.statuses =
        s.memory.statuses := statuses_runWithin _ _ _
    simp only [serve, answered, delayWithin, performWithin]
    rcases hjob : (delayJob source target).runWithin s.env deadline s.memory with ⟨_ | answer, m⟩
    all_goals
      rw [hjob] at hstatuses
      exact hstatuses
  | validate subject claimed position reference => exact statuses_run _ _
  | validateWithin deadline claimed position reference =>
    have hstatuses : ((s.verdictJob none claimed position reference).runWithin s.env deadline
        s.memory).2.statuses = s.memory.statuses := statuses_runWithin _ _ _
    simp only [serve, answered, validateWithin, performWithin]
    rcases hjob : (s.verdictJob none claimed position reference).runWithin s.env deadline s.memory
      with ⟨_ | verdict, m⟩
    all_goals
      rw [hjob] at hstatuses
      exact hstatuses
  | consensusTiming ids => exact statuses_consensusTiming s ids
  | timeouts ids => exact statuses_consensusTiming s ids
  | votingWindow ids => exact statuses_consensusTiming s ids
  | blockInterval ids load => exact statuses_consensusTiming s ids
  | measureOffset id references => exact statuses_run _ _
  | storedOffset id => exact statuses_storedOffset s id
  | currentOffset id => exact statuses_currentOffset s id
  | adjust timestamp id => exact statuses_storedOffset s id
  | maintain => cases hentries
  | cleanupStatuses => cases hentries
  | batchDelays | delayMatrix | maxDelay | batchOffsets | sync | runLoop =>
    exact absurd h Bool.noConfusion
  | _ => rfl

theorem Books.settings_eq {r : Request} {history : List Happening} {entries : List Entry}
    {answer : Answer} (h : s.Books r history entries answer s') : s'.settings = s.settings :=
  (exists_books_iff.mp ⟨entries, h⟩).settings_eq

theorem Tells.of_statuses (h : s.Tells id life) (hstatuses : s'.memory.statuses = s.memory.statuses)
    (hsettings : s'.settings = s.settings) : s'.Tells id life := by
  unfold Tells syncStatus at h ⊢
  rw [hstatuses, hsettings]
  exact h

/-- The entries of a request say what it does to every status. -/
theorem Books.tells {r : Request} {history : List Happening} {entries : List Entry} {answer : Answer}
    (h : s.Books r history entries answer s') (hlife : s.Tells id life) :
    s'.Tells id (entries.foldl (Entry.live id) life) := by
  have hsettings := h.settings_eq
  cases h with
  | alone h =>
    by_cases hentries : s.entries r = []
    · rw [hentries]
      exact hlife.of_statuses (statuses_alone h hentries) hsettings
    · unfold Service.entries at hentries ⊢
      split at hentries
      · exact tells_cleanup hlife (changes_maintain s id) hsettings
      · exact tells_cleanup hlife (changes_cleanup s id) hsettings
      · exact absurd rfl hentries
  | batchDelays batch | delayMatrix batch | maxDelay batch | batchOffsets batch =>
    exact hlife.of_statuses (statuses_batch batch) rfl
  | sync hsynced => exact hsynced.tells hlife
  | runLoop hcycles => exact hcycles.tells hlife

/-- In a run from a service without statuses, every status is that of what the ledger reports. -/
theorem Ledger.tells {clock : Instant → Instant → Prop} {start : Service} {requests : List Request}
    {history : List Happening} {entries : List Entry} {answers : List Answer}
    (h : Ledger clock start requests history entries answers s)
    (hstart : start.memory.statuses = .empty) (id : String) : s.Tells id (lifeOf id entries) := by
  induction h with
  | nil =>
    unfold Tells syncStatus
    rw [hstart]
    rfl
  | snoc _ books _ ih =>
    unfold lifeOf at ih ⊢
    rw [List.foldl_append]
    exact books.tells ih

theorem Ledger.settings_eq {clock : Instant → Instant → Prop} {start : Service}
    {requests : List Request} {history : List Happening} {entries : List Entry}
    {answers : List Answer} (h : Ledger clock start requests history entries answers s) :
    s.settings = start.settings := by
  induction h with
  | nil => rfl
  | snoc _ books _ ih => exact books.settings_eq.trans ih

/-! ## One cycle -/

/-- The successes counted for a node. -/
def successesOf (s : Service) (id : String) : Nat :=
  match s.syncStatus id with
  | some x => x.successes
  | none => 0

/-- The failures counted for a node. -/
def failuresOf (s : Service) (id : String) : Nat :=
  match s.syncStatus id with
  | some x => x.failures
  | none => 0

/-- What a cycle leaves, by the outcome of its batch. -/
structure Recorded (s : Service) (o : BatchOutcome String NodeOffset) (report : SyncReport)
    (s' : Service) : Prop where
  /-- Every node of the directory has one status. -/
  one : ∀ id ∈ s.known, s'.memory.statuses.keys.count id = 1
  /-- A node that nothing is reported of has the status that it had, or one that is new. -/
  uncut : ∀ id, o.reportedOf id = [] →
    s'.syncStatus id = if id ∈ s.known then some ((s.syncStatus id).getD (.pending id s.now))
      else s.syncStatus id
  /-- The report counts the statuses that have one success more, and those that have one failure
      more. -/
  synced : report.synced =
    s'.memory.statuses.keys.countP fun id => s'.successesOf id == s.successesOf id + 1
  failed : report.failed =
    s'.memory.statuses.keys.countP fun id => s'.failuresOf id == s.failuresOf id + 1
  counted : s'.memory.tally.syncsOk = s.memory.tally.syncsOk + report.synced ∧
    s'.memory.tally.syncsFailed = s.memory.tally.syncsFailed + report.failed
  total : report.total = s.known.toFinset.card
  whole : report.synced + report.failed = report.total ↔ report.cancelled = false

section Cycle

variable {cancel : Cancellation} {history : List Happening} {o : BatchOutcome String NodeOffset}

/-- Results and faults are of known nodes, and no node has both. -/
theorem Synced.known_of_reported (h : s.Synced cancel history o s') :
    (∀ id ∈ o.results.keys ++ o.failures.keys, id ∈ s.known) ∧
      (o.results.keys ++ o.failures.keys).Nodup ∧ o.total = s.known.toFinset.card ∧ o.AddsUp := by
  obtain ⟨batch⟩ := h
  obtain ⟨htotal, hlaunched, hdistinct⟩ := batch.keys_outcome fresh_offsetJobs nodup_keys_offsetJobs
  refine ⟨fun id hid => ?_, hdistinct, ?_, batch.addsUp fresh_offsetJobs nodup_keys_offsetJobs⟩
  · have hlaunched' := hlaunched id hid
    rw [keys_offsetJobs] at hlaunched'
    exact mem_distinctIds.mp hlaunched'
  · rw [htotal, ← length_distinctIds, ← keys_offsetJobs, List.length_map]

/-- A result is one success more and a fault one failure more, for their node only. -/
theorem Synced.countsOf (h : s.Synced cancel history o s') (id : String) :
    s'.successesOf id = s.successesOf id + (o.results.find? id).isSome.toNat ∧
      s'.failuresOf id = s.failuresOf id + (o.failures.find? id).isSome.toNat := by
  obtain ⟨hknown, _⟩ := h.known_of_reported
  unfold successesOf failuresOf
  rw [h.syncStatus_eq]
  simp only [cycleChange, StatusChange.apply, StatusChange.begun, StatusChange.succeeded,
    StatusChange.failed, decide_eq_true_eq]
  by_cases hid : id ∈ Directory.ids s.env.directory.all
  · cases s.syncStatus id <;> cases o.results.find? id <;> cases o.failures.find? id <;>
      simp [hid, SyncStatus.recordSuccess, SyncStatus.recordFailure, SyncStatus.pending]
  -- Nothing is reported of a node that is not known.
  · have hresult : o.results.find? id = none := by
      refine Option.eq_none_iff_forall_ne_some.mpr fun record hrecord => hid ?_
      exact hknown id (List.mem_append_left _ (Table.mem_keys_iff.mpr ⟨record, hrecord⟩))
    have hfailure : o.failures.find? id = none := by
      refine Option.eq_none_iff_forall_ne_some.mpr fun fault hfault => hid ?_
      exact hknown id (List.mem_append_right _ (Table.mem_keys_iff.mpr ⟨fault, hfault⟩))
    simp [hid, hresult, hfailure]

/-- Known nodes have a status after a cycle. -/
theorem Synced.mem_statuses (h : s.Synced cancel history o s') {id : String} (hid : id ∈ s.known) :
    id ∈ s'.memory.statuses.keys := by
  have hstatus := h.syncStatus_eq id
  have hbegun : decide (id ∈ Directory.ids s.env.directory.all) = true := decide_eq_true hid
  simp only [cycleChange, StatusChange.apply, StatusChange.begun, hbegun, if_true] at hstatus
  rw [Table.mem_keys_iff]
  revert hstatus
  unfold syncStatus
  cases o.results.find? id <;> cases o.failures.find? id <;> intro hstatus <;> exact ⟨_, hstatus⟩

/-- As many keys of a table have a property as there are keys with the property in a list of some of
    them. -/
theorem countP_keys_eq {α : Type} {t : Table String α} {ids : List String} {p : String → Bool}
    (hids : ids.Nodup) (hsome : ∀ id ∈ ids, id ∈ t.keys) (h : ∀ id, p id = true ↔ id ∈ ids) :
    t.keys.countP p = ids.length := by
  have hperm : (t.keys.filter p).Perm ids := by
    refine (List.perm_ext_iff_of_nodup (t.nodup_keys.filter _) hids).mpr fun id => ?_
    rw [List.mem_filter, h]
    exact and_iff_right_of_imp (hsome id)
  rw [List.countP_eq_length_filter, hperm.length_eq]

theorem Synced.recorded (h : s.Synced cancel history o s') : s.Recorded o (.of o s.now) s' := by
  obtain ⟨hknown, hdistinct, htotal, haddsUp⟩ := h.known_of_reported
  obtain ⟨hresults, hfailures, _⟩ := List.nodup_append.mp hdistinct
  have hcounts := h.countsOf
  have hstatuses (ids : List String) (hids : ∀ id ∈ ids, id ∈ s.known) :
      ∀ id ∈ ids, id ∈ s'.memory.statuses.keys := fun id hid => h.mem_statuses (hids id hid)
  refine
    { one := fun id hid => List.count_eq_one_of_mem (Table.nodup_keys _) (h.mem_statuses hid)
      uncut := ?_
      synced := ?_
      failed := ?_
      counted := ?_
      total := htotal
      whole := ?_ }
  · intro id hnone
    simp only [BatchOutcome.reportedOf, List.append_eq_nil_iff, Option.toList_eq_nil_iff,
      Option.map_eq_none_iff] at hnone
    rw [h.syncStatus_eq]
    simp only [cycleChange, StatusChange.apply, StatusChange.begun, StatusChange.succeeded,
      StatusChange.failed, hnone, decide_eq_true_eq]
    rfl
  · have hkeys : o.results.size = o.results.keys.length := (List.length_map _).symm
    refine hkeys.trans (countP_keys_eq hresults (hstatuses _ fun id hid => ?_) fun id => ?_).symm
    · exact hknown id (List.mem_append_left _ hid)
    · rw [(hcounts id).1, beq_iff_eq, Table.mem_keys_iff, ← Option.isSome_iff_exists]
      cases (o.results.find? id).isSome <;> simp
  · have hkeys : o.failures.size = o.failures.keys.length := (List.length_map _).symm
    refine hkeys.trans (countP_keys_eq hfailures (hstatuses _ fun id hid => ?_) fun id => ?_).symm
    · exact hknown id (List.mem_append_right _ hid)
    · rw [(hcounts id).2, beq_iff_eq, Table.mem_keys_iff, ← Option.isSome_iff_exists]
      cases (o.failures.find? id).isSome <;> simp
  · have hbooks : s.Books (.sync cancel) history [.cycle s.known s.now o] _ s' := .sync h
    have hsynced := hbooks.counter_of_entries (e := .sync true) rfl
      fun entry => entry.count_events.2.2.1
    have hfailed := hbooks.counter_of_entries (e := .sync false) rfl
      fun entry => entry.count_events.2.2.2
    exact ⟨hsynced, hfailed⟩
  · show o.results.size + o.failures.size = o.total ↔ o.cancelled = false
    have hwhole := haddsUp.whole
    have hcut := haddsUp.cut
    unfold BatchOutcome.completed at hwhole hcut
    cases hcancelled : o.cancelled with
    | true =>
      have hless := hcut hcancelled
      simp only [Bool.true_eq_false, iff_false]
      omega
    | false => exact iff_of_true (hwhole hcancelled) rfl

end Cycle

end Service

/-! ## Every run -/

/-- In every run from an opened service, with cycles cut off anywhere, edits of the directory, changes
    of the clock and cleanups in between, every status is in all its fields that of the outcomes that
    were reported for its node since it was created, and pending just if there were none. A further
    cycle, from any point of the run, leaves one status for each node of the directory, changes those
    that its batch has an outcome for and no others that exist, and reports and counts how many. -/
theorem statuses_replay_outcomes {settings : Settings} {directory : Directory} {access : Access}
    {now : Instant} {metrics : Option Metrics} {start : Service}
    (hstart : Service.start settings directory access now metrics = .ok start)
    {requests : List Request} {history : List Happening} {answers : List Answer} {s : Service}
    (hrun : Service.Run Service.anyTime start requests history answers s) :
    (∃ entries, Service.Ledger Service.anyTime start requests history entries answers s) ∧
    (∀ entries, Service.Ledger Service.anyTime start requests history entries answers s →
      ∀ id, s.syncStatus id =
        (lifeOf id entries).map (StatusLife.status settings.sync.historyLength id)) ∧
    (∀ id x, s.syncStatus id = some x →
      (x.state = .pending ↔ x.successes = 0 ∧ x.failures = 0) ∧
      x.history.length = min settings.sync.historyLength x.successes) ∧
    ∀ cancel later report s', s.Cycle cancel later report s' →
      ∃ o, s.Synced cancel later o s' ∧ report = .of o s.now ∧ s.Recorded o report s' := by
  have hempty := Service.eq_of_start hstart
  have hstatuses : start.memory.statuses = .empty := by
    rw [hempty]
    rfl
  have hsettings : start.settings = settings := by
    rw [hempty]
    rfl
  have htold (entries : List Entry)
      (hledger : Service.Ledger Service.anyTime start requests history entries answers s)
      (id : String) : s.syncStatus id =
        (lifeOf id entries).map (StatusLife.status settings.sync.historyLength id) := by
    have htells := hledger.tells hstatuses id
    unfold Service.Tells at htells
    rwa [hledger.settings_eq, hsettings] at htells
  obtain ⟨entries, hledger⟩ := Service.exists_ledger_iff.mpr hrun
  refine ⟨⟨entries, hledger⟩, htold, ?_, ?_⟩
  · intro id x hx
    rw [htold entries hledger id, Option.map_eq_some_iff] at hx
    obtain ⟨life, _, rfl⟩ := hx
    exact ⟨life.state_eq_pending_iff _ _, life.length_history _ _⟩
  · intro cancel later report s' hcycle
    obtain ⟨o, hsynced, rfl⟩ := Service.cycle_iff.mp hcycle
    exact ⟨o, hsynced, rfl, hsynced.recorded⟩

/-! ## The two nodes -/

open TwoNodes

/-- Both nodes are synchronized; then the upper one is removed, the lower one has none left to be
    measured against, and a last cycle is cut off at once. -/
theorem statuses_replay_outcomes_two_nodes :
    let requests : List Request := [.sync .never, .remove "b", .sync .never]
    let s := ((service 0 ground_ok).serveAll requests).2
    Service.start {} (directory 0 ground_ok) {} .epoch none = .ok (service 0 ground_ok) ∧
    (∃ entries, ∀ id, s.syncStatus id = (lifeOf id entries).map (StatusLife.status 32 id)) ∧
    (∃ o s', s.Recorded o (s.sync .before).1 s') ∧
    s.memory.statuses.values.map (fun x => (x.id, x.successes, x.failures, x.state)) =
      [("a", 1, 1, .failed), ("b", 1, 0, .synced)] ∧
    (s.sync .before).1 = ⟨1, 0, 0, true, .epoch⟩ := by
  intro requests s
  obtain ⟨history, hrun⟩ := Service.run_serveAll (service 0 ground_ok) requests
  obtain ⟨⟨entries, hledger⟩, htold, _, hcycles⟩ := statuses_replay_outcomes start_eq hrun
  obtain ⟨later, hcycle⟩ := Service.cycle_syncRounds s .before
  obtain ⟨o, _, _, hrecorded⟩ := hcycles _ _ _ _ hcycle
  refine ⟨start_eq, ⟨entries, htold entries hledger⟩, ⟨o, _, hrecorded⟩, ?_, ?_⟩
  · decide +kernel
  · decide +kernel

end LightCone
