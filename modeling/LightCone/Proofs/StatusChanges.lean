import LightCone.Proofs.Run.Lockstep
import LightCone.Proofs.Tables

/-!
What happens to the status of one node.

Statuses stand in one table, which a cycle walks through three times: for nodes not seen before,
for results and for faults. For a single node this comes to one change. This file

1. lists the changes of the status of a node (`StatusChange`);
2. shows that a cycle makes one of them, given by the directory and the outcome of its batch
   (`changes_recorded`), and that a cleanup makes the other (`changes_maintain`);
3. says when the statuses of two services change in the same way (`ChangedAlike`).
-/
namespace LightCone

/-- What a synchronization cycle or a cleanup does to the status of a node. -/
inductive StatusChange where
  /-- A cycle: whether the node is in the directory, its result and its fault. -/
  | cycle (known : Bool) (result : Option NodeOffset) (fault : Option Fault)
  | cleanup

namespace StatusChange

/-- The status of a node of the directory: a pending one unless it has one. -/
def begun (now : Instant) (id : String) (known : Bool) (status : Option SyncStatus) :
    Option SyncStatus :=
  if known then some (status.getD (.pending id now)) else status

def succeeded (now : Instant) (historyLength : Nat) (result : Option NodeOffset)
    (status : Option SyncStatus) : Option SyncStatus :=
  match result with
  | some record => status.map fun x => x.recordSuccess record.offset now historyLength
  | none => status

def failed (now : Instant) (fault : Option Fault) (status : Option SyncStatus) :
    Option SyncStatus :=
  match fault with
  | some fault => status.map fun x => x.recordFailure fault.message now
  | none => status

/-- A cycle records what came of the node, if it has a status by then; a cleanup removes a status
    past its retention. -/
def apply (s : SyncSettings) (now : Instant) (id : String) :
    StatusChange → Option SyncStatus → Option SyncStatus
  | cycle known result fault, status =>
    failed now fault (succeeded now s.historyLength result (begun now id known status))
  | cleanup, status => status.filter fun x => x.retained s.statusRetention now

end StatusChange

/-- What a cycle with an outcome does to the status of a node. -/
def cycleChange (d : Directory) (o : BatchOutcome String NodeOffset) (id : String) : StatusChange :=
  .cycle (decide (id ∈ Directory.ids d.all)) (o.results.find? id) (o.failures.find? id)

namespace Service

/-- From one service to another the status of a node went through certain changes, at one time. -/
def Changes (s s' : Service) (id : String) (changes : List StatusChange) : Prop :=
  s'.syncStatus id =
    changes.foldl (fun status c => c.apply s.settings.sync s.now id status) (s.syncStatus id)

/-- The status of every node went through the same changes in two services. -/
def ChangedAlike (s s' t t' : Service) : Prop :=
  ∀ id, ∃ changes, s.Changes s' id changes ∧ t.Changes t' id changes

end Service

/-! ## Jobs leave statuses as they are -/

theorem lockstep_statuses (env : Environment) (statuses : Table String SyncStatus) :
    Lockstep env fun m n => n = m ∧ m.statuses = statuses where
  answer := by
    rintro m n ⟨rfl, _⟩ a b
    rfl
  evaluate := by
    rintro m n ⟨rfl, hstatuses⟩ a b
    exact ⟨rfl, (n.evaluate_frame env a b).2.2.trans hstatuses⟩
  keep := by
    rintro m n ⟨rfl, hstatuses⟩ record
    exact ⟨rfl, hstatuses⟩
  count := by
    rintro m n ⟨rfl, hstatuses⟩ e
    exact ⟨rfl, hstatuses⟩

theorem statuses_batch {κ ν : Type} [Key κ] [DecidableEq κ] {env : Environment} {jobs : Pool κ ν}
    {cancel : Cancellation} {m m' : Memory} {history : List Happening} {o : BatchOutcome κ ν}
    (h : Pool.Batch env jobs cancel m history o m') : m'.statuses = m.statuses := by
  obtain ⟨_, _, _, hstatuses⟩ := (lockstep_statuses env m.statuses).batch h ⟨rfl, rfl⟩
  exact hstatuses

theorem statuses_run {α : Type} {env : Environment} (job : Job α) (m : Memory) :
    (job.run env m).2.statuses = m.statuses :=
  ((lockstep_statuses env m.statuses).run job ⟨rfl, rfl⟩).2.2

theorem statuses_runWithin {α : Type} {env : Environment} (job : Job α) (deadline : Duration)
    (m : Memory) : (job.runWithin env deadline m).2.statuses = m.statuses :=
  ((lockstep_statuses env m.statuses).runWithin job deadline ⟨rfl, rfl⟩).2.2

/-! ## One cycle -/

namespace Memory

theorem find?_addPending (m : Memory) (ids : List String) (now : Instant) (id : String) :
    (m.addPending ids now).statuses.find? id =
      StatusChange.begun now id (decide (id ∈ ids)) (m.statuses.find? id) := by
  simp only [addPending, StatusChange.begun, decide_eq_true_eq]
  generalize m.statuses = statuses
  induction ids generalizing statuses with
  | nil => rfl
  | cons first rest ih =>
    rw [List.foldl_cons, ih]
    by_cases hid : first = id
    · subst hid
      cases hfind : statuses.find? first with
      | some x => simp [Table.contains, hfind]
      | none => simp [Table.contains, hfind, Table.find?_insert]
    -- The first node is another one, and nothing was put in under this id.
    · have hother : (if statuses.contains first then statuses
          else statuses.insert first (.pending first now)).find? id = statuses.find? id := by
        split
        · rfl
        · rw [Table.find?_insert, if_neg hid]
      rw [hother]
      simp [Ne.symm hid]

theorem statuses_recordSuccesses (entries : List (String × NodeOffset)) (now : Instant)
    (history : Nat) (m : Memory) :
    (entries.foldl (fun m e => m.recordSuccess e.1 e.2.offset now history) m).statuses =
      entries.foldl (fun t e => t.modify e.1 fun x => x.recordSuccess e.2.offset now history)
        m.statuses := by
  induction entries generalizing m with
  | nil => rfl
  | cons e rest ih => exact ih _

theorem statuses_recordFailures (entries : List (String × Fault)) (now : Instant) (m : Memory) :
    (entries.foldl (fun m e => m.recordFailure e.1 e.2 now) m).statuses =
      entries.foldl (fun t e => t.modify e.1 fun x => x.recordFailure e.2.message now)
        m.statuses := by
  induction entries generalizing m with
  | nil => rfl
  | cons e rest ih => exact ih _

/-- Results and faults each go to the status of their node. -/
theorem find?_recordOutcome (m : Memory) (o : BatchOutcome String NodeOffset) (now : Instant)
    (historyLength : Nat) (id : String) :
    (m.recordOutcome o now historyLength).statuses.find? id =
      StatusChange.failed now (o.failures.find? id)
        (StatusChange.succeeded now historyLength (o.results.find? id) (m.statuses.find? id)) := by
  have hresults := Table.find?_foldl_modify
    (fun (record : NodeOffset) (x : SyncStatus) => x.recordSuccess record.offset now historyLength)
    o.results m.statuses id
  rw [← statuses_recordSuccesses] at hresults
  have hfailures := Table.find?_foldl_modify
    (fun (fault : Fault) (x : SyncStatus) => x.recordFailure fault.message now) o.failures
    (o.results.entries.foldl (fun m e => m.recordSuccess e.1 e.2.offset now historyLength) m).statuses
    id
  rw [← statuses_recordFailures, hresults] at hfailures
  refine hfailures.trans ?_
  cases o.failures.find? id <;> cases o.results.find? id <;> rfl

end Memory

namespace Service

variable {s s' s'' t t' t'' : Service}

theorem changes_recorded {o : BatchOutcome String NodeOffset} {m : Memory}
    (hstatuses : m.statuses =
      (s.memory.addPending (Directory.ids s.env.directory.all) s.now).statuses) (id : String) :
    s.Changes (s.remember (m.recordOutcome o s.now s.settings.sync.historyLength)) id
      [cycleChange s.env.directory o id] := by
  show (m.recordOutcome o s.now s.settings.sync.historyLength).statuses.find? id = _
  rw [Memory.find?_recordOutcome, hstatuses, Memory.find?_addPending]
  rfl

theorem changes_cleanup (s : Service) (id : String) : s.Changes s.cleanupStatuses.2 id [.cleanup] :=
  Table.find?_filter ..

theorem changes_maintain (s : Service) (id : String) : s.Changes s.maintain.2 id [.cleanup] :=
  changes_cleanup s id

theorem changes_nil (h : s'.memory.statuses = s.memory.statuses) (id : String) :
    s.Changes s' id [] :=
  congrArg (Table.find? · id) h

theorem Changes.trans {id : String} {first later : List StatusChange} (h : s.Changes s' id first)
    (henv : s'.env = s.env) (h' : s'.Changes s'' id later) : s.Changes s'' id (first ++ later) := by
  unfold Changes at *
  rw [h', List.foldl_append, ← h, settings, settings, now, now, henv]

/-! ## Two services -/

theorem ChangedAlike.of_statuses (hs : s'.memory.statuses = s.memory.statuses)
    (ht : t'.memory.statuses = t.memory.statuses) : ChangedAlike s s' t t' :=
  fun id => ⟨[], changes_nil hs id, changes_nil ht id⟩

theorem ChangedAlike.symm (h : ChangedAlike s s' t t') : ChangedAlike t t' s s' := by
  intro id
  obtain ⟨changes, hs, ht⟩ := h id
  exact ⟨changes, ht, hs⟩

theorem ChangedAlike.trans (h : ChangedAlike s s' t t') (hs : s'.env = s.env) (ht : t'.env = t.env)
    (h' : ChangedAlike s' s'' t' t'') : ChangedAlike s s'' t t'' := by
  intro id
  obtain ⟨first, hs₁, ht₁⟩ := h id
  obtain ⟨later, hs₂, ht₂⟩ := h' id
  exact ⟨first ++ later, hs₁.trans hs hs₂, ht₁.trans ht ht₂⟩

end Service
end LightCone
