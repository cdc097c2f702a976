import LightCone.Proofs.Run.Loop
import LightCone.Proofs.StatusHistory

/-!
Statuses while the clock stands still.

A status is removed when it has not been changed for longer than the retention. Where the clock
does not move none of them gets that old, so maintenance leaves every status as it is, and what a
cycle does to the statuses is all that happens to them. This file

1. keeps, along runs in which the clock stands still, that no status is past its retention
   (`Service.Retains`, `Service.Run.retains`);
2. bounds by one what a cycle adds to the outcomes counted for a node
   (`Service.Synced.attemptsOf_le`);
3. shows that a cycle that is told to stop before its start changes no counter
   (`Service.Retains.sameCounters_refusedCycle`), and no status either once every known node has one
   (`Service.Retains.statuses_refusedCycle`).
-/
namespace LightCone

/-- What is changed now is retained. -/
theorem SyncStatus.retained_of_updatedAt {x : SyncStatus} {now : Instant} (h : x.updatedAt = now)
    (retention : Duration) : x.retained retention now = true := by
  rw [retained, h, now.nanosSince_self]
  exact decide_eq_true (Int.natCast_nonneg _)

/-- A status after a cycle was there before, or was changed by it. -/
theorem StatusChange.updatedAt_of_cycle {s : SyncSettings} {now : Instant} {id : String} {known : Bool}
    {result : Option NodeOffset} {fault : Option Fault} {status : Option SyncStatus} {x : SyncStatus}
    (h : (StatusChange.cycle known result fault).apply s now id status = some x) :
    status = some x ∨ x.updatedAt = now := by
  have hbegun (y : SyncStatus) (hy : begun now id known status = some y) :
      status = some y ∨ y.updatedAt = now := by
    cases known with
    | false => exact .inl hy
    | true =>
      cases status with
      | none =>
        cases hy
        exact .inr rfl
      | some z => exact .inl hy
  simp only [apply, failed, succeeded] at h
  cases result <;> cases fault <;> simp only [Option.map_eq_some_iff] at h
  · exact hbegun x h
  all_goals
    obtain ⟨y, _, rfl⟩ := h
    exact .inr rfl

namespace Service

variable {s s' : Service} {cancel : Cancellation} {history : List Happening}
  {o : BatchOutcome String NodeOffset}

/-- The clock stands still. -/
def sameTime (now later : Instant) : Prop := later = now

/-- No status is past its retention. -/
def Retains (s : Service) : Prop :=
  ∀ id x, s.syncStatus id = some x → x.retained s.settings.sync.statusRetention s.now = true

/-- Every known node has a status. -/
def CoversKnown (s : Service) : Prop := ∀ id ∈ s.known, id ∈ s.memory.statuses.keys

theorem Retains.of_statuses (h : s.Retains) (hstatuses : s'.memory.statuses = s.memory.statuses)
    (hsettings : s'.settings = s.settings) (hnow : s'.now = s.now) : s'.Retains := by
  unfold Retains syncStatus at h ⊢
  rw [hstatuses, hsettings, hnow]
  exact h

/-- Maintenance changes no status when none is past its retention. -/
theorem Retains.statuses_maintain (h : s.Retains) :
    s.maintain.2.memory.statuses = s.memory.statuses := by
  refine Table.ext fun id => ?_
  have hcleaned : s.maintain.2.memory.statuses.find? id = (s.syncStatus id).filter fun x =>
      x.retained s.settings.sync.statusRetention s.now := changes_maintain s id
  rw [hcleaned]
  show _ = s.syncStatus id
  cases hx : s.syncStatus id with
  | none => rfl
  | some x => rw [Option.filter_some, if_pos (h id x hx)]

theorem Retains.maintain (h : s.Retains) : s.maintain.2.Retains :=
  h.of_statuses h.statuses_maintain rfl rfl

theorem Retains.cleanup (h : s.Retains) : s.cleanupStatuses.2.Retains :=
  h.of_statuses h.statuses_maintain rfl rfl

theorem Synced.env_eq (h : s.Synced cancel history o s') : s'.env = s.env := by
  obtain ⟨_⟩ := h
  rfl

theorem Synced.retains (h : s.Synced cancel history o s') (hretains : s.Retains) : s'.Retains := by
  intro id x hx
  rw [h.syncStatus_eq] at hx
  unfold settings now
  rw [h.env_eq]
  rcases StatusChange.updatedAt_of_cycle hx with hbefore | hnow
  · exact hretains id x hbefore
  · exact SyncStatus.retained_of_updatedAt hnow _

theorem CycleBooks.retains {entries : List Entry} (h : s.CycleBooks history entries s')
    (hretains : s.Retains) : s'.Retains := by
  induction h with
  | rest s => exact hretains
  | cycle hsynced _ ih => exact ih (hsynced.retains hretains).maintain

/-- Whatever is served while the clock stands still, no status gets past its retention. -/
theorem Books.retains {r : Request} {entries : List Entry} {answer : Answer}
    (h : s.Books r history entries answer s') (hnow : s'.now = s.now) (hretains : s.Retains) :
    s'.Retains := by
  have hsettings := h.settings_eq
  cases h with
  | alone h =>
    by_cases hentries : s.entries r = []
    · exact hretains.of_statuses (statuses_alone h hentries) hsettings hnow
    · unfold Service.entries at hentries
      split at hentries
      · exact hretains.maintain
      · exact hretains.cleanup
      · exact absurd rfl hentries
  | batchDelays batch | delayMatrix batch | maxDelay batch | batchOffsets batch =>
    exact hretains.of_statuses (statuses_batch batch) rfl rfl
  | sync hsynced => exact hsynced.retains hretains
  | runLoop hcycles => exact hcycles.retains hretains

theorem Run.retains {start : Service} {requests : List Request} {answers : List Answer}
    (hrun : Run sameTime start requests history answers s) (hretains : start.Retains) :
    s.Retains := by
  induction hrun with
  | nil => exact hretains
  | snoc _ serves hclock ih =>
    obtain ⟨_, hbooks⟩ := exists_books_iff.mpr serves
    exact hbooks.retains hclock ih

theorem retains_of_no_status (h : s.memory.statuses = .empty) : s.Retains := by
  intro id x hx
  rw [syncStatus, h] at hx
  cases hx

/-! ## What a cycle adds -/

/-- The outcomes counted for a node. -/
def attemptsOf (s : Service) (id : String) : Nat := s.successesOf id + s.failuresOf id

/-- Two services have counted the same. -/
structure SameCounters (s s' : Service) : Prop where
  tally : s'.memory.tally = s.memory.tally
  metrics : s'.memory.metrics = s.memory.metrics
  successes : ∀ id, s'.successesOf id = s.successesOf id
  failures : ∀ id, s'.failuresOf id = s.failuresOf id

theorem SameCounters.attemptsOf_eq (h : s.SameCounters s') (id : String) :
    s'.attemptsOf id = s.attemptsOf id := by
  rw [attemptsOf, h.successes, h.failures, attemptsOf]

theorem counts_of_statuses (h : s'.memory.statuses = s.memory.statuses) (id : String) :
    s'.successesOf id = s.successesOf id ∧ s'.failuresOf id = s.failuresOf id := by
  unfold successesOf failuresOf syncStatus
  rw [h]
  exact ⟨rfl, rfl⟩

theorem attemptsOf_of_statuses (h : s'.memory.statuses = s.memory.statuses) (id : String) :
    s'.attemptsOf id = s.attemptsOf id := by
  obtain ⟨hsuccesses, hfailures⟩ := counts_of_statuses h id
  rw [attemptsOf, hsuccesses, hfailures, attemptsOf]

/-- A cycle counts one outcome for a node at most. -/
theorem Synced.attemptsOf_le (h : s.Synced cancel history o s') (id : String) :
    s'.attemptsOf id ≤ s.attemptsOf id + 1 := by
  obtain ⟨hsuccesses, hfailures⟩ := h.countsOf id
  obtain ⟨_, hdistinct, _⟩ := h.known_of_reported
  have hone : (o.results.find? id).isSome.toNat + (o.failures.find? id).isSome.toNat ≤ 1 := by
    cases hresult : o.results.find? id with
    | none => cases (o.failures.find? id).isSome <;> simp
    | some record =>
      cases hfailure : o.failures.find? id with
      | none => simp
      | some fault =>
        have hkey := Table.mem_keys_iff.mpr ⟨record, hresult⟩
        have hkey' := Table.mem_keys_iff.mpr ⟨fault, hfailure⟩
        exact absurd rfl ((List.nodup_append.mp hdistinct).2.2 id hkey id hkey')
  unfold attemptsOf
  omega

theorem Synced.coversKnown (h : s.Synced cancel history o s') : s'.CoversKnown := by
  intro id hid
  rw [known, h.env_eq] at hid
  exact h.mem_statuses hid

/-! ## Cycles that are told to stop before their start -/

theorem syncStatus_beginCycle (s : Service) (id : String) :
    s.beginCycle.syncStatus id = StatusChange.begun s.now id (decide (id ∈ s.known)) (s.syncStatus id) :=
  Memory.find?_addPending ..

/-- Statuses that are given to nodes at the beginning of a cycle count nothing. -/
theorem sameCounters_beginCycle (s : Service) : s.SameCounters s.beginCycle where
  tally := rfl
  metrics := rfl
  successes id := by
    rw [successesOf, syncStatus_beginCycle, successesOf]
    cases decide (id ∈ s.known) <;> cases s.syncStatus id <;> rfl
  failures id := by
    rw [failuresOf, syncStatus_beginCycle, failuresOf]
    cases decide (id ∈ s.known) <;> cases s.syncStatus id <;> rfl

theorem Retains.beginCycle (h : s.Retains) : s.beginCycle.Retains := by
  intro id x hx
  rw [syncStatus_beginCycle] at hx
  have hcycle : (StatusChange.cycle (decide (id ∈ s.known)) none none).apply s.settings.sync s.now id
      (s.syncStatus id) = some x := hx
  rcases StatusChange.updatedAt_of_cycle hcycle with hbefore | hnow
  · exact h id x hbefore
  · exact SyncStatus.retained_of_updatedAt hnow _

/-- Such a cycle does nothing but begin. -/
theorem sync_before (s : Service) : (s.sync .before).2 = s.beginCycle := by
  simp only [sync, syncRounds, runOffsets, performAll, fanOut]
  split <;> rfl

theorem refusedCycle_eq (s : Service) : s.refusedCycle = s.beginCycle.maintain.2 :=
  congrArg (fun s => s.maintain.2) s.sync_before

theorem Retains.refusedCycle (h : s.Retains) : s.refusedCycle.Retains := by
  rw [refusedCycle_eq]
  exact h.beginCycle.maintain

/-- It moves no counter. -/
theorem Retains.sameCounters_refusedCycle (h : s.Retains) : s.SameCounters s.refusedCycle := by
  have hmaintained := counts_of_statuses h.beginCycle.statuses_maintain
  have hbegun := s.sameCounters_beginCycle
  rw [refusedCycle_eq]
  exact
    { tally := rfl
      metrics := rfl
      successes := fun id => (hmaintained id).1.trans (hbegun.successes id)
      failures := fun id => (hmaintained id).2.trans (hbegun.failures id) }

/-- It changes no status if every known node has one. -/
theorem Retains.statuses_refusedCycle (h : s.Retains) (hcovers : s.CoversKnown) :
    s.refusedCycle.memory.statuses = s.memory.statuses := by
  rw [refusedCycle_eq, h.beginCycle.statuses_maintain]
  refine Table.ext fun id => ?_
  show s.beginCycle.syncStatus id = s.syncStatus id
  rw [syncStatus_beginCycle, StatusChange.begun]
  split
  · next hknown =>
    obtain ⟨x, hx⟩ := Table.mem_keys_iff.mp (hcovers id (of_decide_eq_true hknown))
    have hstatus : s.syncStatus id = some x := hx
    rw [hstatus]
    rfl
  · rfl

end Service
end LightCone
