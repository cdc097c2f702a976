import LightCone.Proofs.Retention
import LightCone.Proofs.Run.TwoNodes

/-!
Cleanups of statuses, and what they cost over a run.

A cleanup removes the statuses that have not been changed for longer than the retention, with the
outcomes that they count. This file

1. says what one cleanup removes and what it keeps, for any statuses and any clock
   (`Service.Cleaned`);
2. keeps a ledger with the time of each entry (`Service.Chronicle`), and lists what the cycles of a
   run reported of a node (`reportsOf`);
3. shows that a status holds all of it, from the first cycle of the run on, if no cleanup found the
   latest report of its node to be older than the retention (`ReportedInTime`): each entry of the log
   adds what it reports and takes nothing (`Service.Chronicle.remembers`).
-/
namespace LightCone

/-! ## One cleanup -/

theorem SyncStatus.retained_iff {x : SyncStatus} {retention : Duration} {now : Instant} :
    x.retained retention now = true ↔ now.nanosSince x.updatedAt ≤ retention.nanos := decide_eq_true_iff

namespace Service

variable {s s' : Service} {id : String}

/-- Nanoseconds since the last change of a status, negative if that is in the future. -/
def ageOf (s : Service) (x : SyncStatus) : Int := s.now.nanosSince x.updatedAt

/-- What a cleanup comes to, by the number that it answers. -/
structure Cleaned (s : Service) (removed : Nat) (s' : Service) : Prop where
  gone : ∀ id x, s.syncStatus id = some x → s.settings.sync.statusRetention.nanos < s.ageOf x →
    s'.syncStatus id = none
  /-- Those from the future are among the ones that are kept. -/
  kept : ∀ id x, s.syncStatus id = some x → s.ageOf x ≤ s.settings.sync.statusRetention.nanos →
    s'.syncStatus id = some x
  absent : ∀ id, s.syncStatus id = none → s'.syncStatus id = none
  count : removed = s.syncStatuses.countP fun x => s.settings.sync.statusRetention.nanos < s.ageOf x
  /-- Another cleanup at the same time removes nothing. -/
  again : s'.cleanupStatuses = (0, s')

theorem syncStatus_cleanupStatuses (s : Service) (id : String) :
    s.cleanupStatuses.2.syncStatus id =
      (s.syncStatus id).filter fun x => x.retained s.settings.sync.statusRetention s.now :=
  Table.find?_filter ..

theorem fst_cleanupStatuses (s : Service) : s.cleanupStatuses.1 =
    s.syncStatuses.countP fun x => s.settings.sync.statusRetention.nanos < s.ageOf x := by
  have hsplit := List.length_eq_length_filter_add (l := s.memory.statuses.entries)
    fun e => e.2.retained s.settings.sync.statusRetention s.now
  have hremoved : s.syncStatuses.countP (fun x => s.settings.sync.statusRetention.nanos < s.ageOf x) =
      (s.memory.statuses.entries.filter
        fun e => !e.2.retained s.settings.sync.statusRetention s.now).length := by
    unfold syncStatuses Table.values
    rw [List.countP_map, ← List.countP_eq_length_filter]
    refine List.countP_congr fun e _ => ?_
    rw [Function.comp_apply, decide_eq_true_iff, Bool.not_eq_true', ← Bool.not_eq_true,
      SyncStatus.retained_iff, not_le, ageOf]
  rw [hremoved]
  exact Nat.sub_eq_of_eq_add' hsplit

/-- Where all statuses are within the retention a cleanup removes nothing. -/
theorem Retains.cleanupStatuses_eq (h : s.Retains) : s.cleanupStatuses = (0, s) := by
  have hstatuses : s.cleanupStatuses.2.memory.statuses = s.memory.statuses := h.statuses_maintain
  have hsame : s.cleanupStatuses.2 =
      { s with memory := { s.memory with statuses := s.cleanupStatuses.2.memory.statuses } } := rfl
  have hnone : s.cleanupStatuses.1 = s.memory.statuses.size - s.cleanupStatuses.2.memory.statuses.size := rfl
  rw [hstatuses] at hsame hnone
  exact Prod.ext (hnone.trans (Nat.sub_self _)) hsame

/-- What is left by a cleanup is within the retention. -/
theorem retains_cleanupStatuses (s : Service) : s.cleanupStatuses.2.Retains := by
  intro id x hx
  rw [syncStatus_cleanupStatuses, Option.filter_eq_some_iff] at hx
  exact hx.2

theorem cleaned_cleanupStatuses (s : Service) :
    s.Cleaned s.cleanupStatuses.1 s.cleanupStatuses.2 where
  gone id x hx hage := by
    rw [syncStatus_cleanupStatuses, hx, Option.filter_some, if_neg]
    rw [SyncStatus.retained_iff, not_le]
    exact hage
  kept id x hx hage := by
    rw [syncStatus_cleanupStatuses, hx, Option.filter_some, if_pos (SyncStatus.retained_iff.mpr hage)]
  absent id hx := by rw [syncStatus_cleanupStatuses, hx, Option.filter_none]
  count := s.fst_cleanupStatuses
  again := s.retains_cleanupStatuses.cleanupStatuses_eq

/-- Maintenance cleans up the statuses likewise, and answers the same number of them. -/
theorem cleaned_maintain (s : Service) : s.Cleaned s.maintain.1.statuses s.maintain.2 :=
  have hcleaned := s.cleaned_cleanupStatuses
  have hretains : s.maintain.2.Retains := s.retains_cleanupStatuses.of_statuses rfl rfl rfl
  ⟨hcleaned.gone, hcleaned.kept, hcleaned.absent, hcleaned.count, hretains.cleanupStatuses_eq⟩

end Service

/-! ## Reports and cleanups over a run -/

/-- What an entry reports of a node: each outcome with the time of its cycle. -/
def Entry.reportsOf (id : String) : Entry → List (Instant × Except Fault Duration)
  | .cycle _ now o => (o.reportedOf id).map fun outcome => (now, outcome)
  | _ => []

/-- What a log of entries, each with its time, reports of a node. -/
def reportsOf (id : String) (log : List (Instant × Entry)) : List (Instant × Except Fault Duration) :=
  log.flatMap fun e => e.2.reportsOf id

/-- At a time the latest report is no older than the retention, if there is one. -/
def Recent (retention : Duration) (now : Instant) (reports : List (Instant × Except Fault Duration)) :
    Prop :=
  ∀ last, reports.getLast? = some last → now.nanosSince last.1 ≤ retention.nanos

/-- A node was reported in time for every cleanup in a log: the latest report of it before the cleanup is
    no older than the retention. This is so if it is reported at least once in that time, as long as the
    run lasts. -/
def ReportedInTime (retention : Duration) (id : String) (log : List (Instant × Entry)) : Prop :=
  ∀ earlier now removed later, log = earlier ++ (now, .cleanup removed) :: later →
    Recent retention now (reportsOf id earlier)

/-- The outcomes since the status of a node was created; none if it has no status. -/
def outcomesOf (life : Option StatusLife) : List (Instant × Except Fault Duration) :=
  (life.map StatusLife.outcomes).getD []

section Reports

variable {id : String} {life : Option StatusLife} {log log' : List (Instant × Entry)}

theorem reportsOf_append : reportsOf id (log ++ log') = reportsOf id log ++ reportsOf id log' :=
  List.flatMap_append

theorem reportsOf_snoc {now : Instant} {e : Entry} :
    reportsOf id (log ++ [(now, e)]) = reportsOf id log ++ e.reportsOf id := by
  rw [reportsOf_append]
  exact congrArg (reportsOf id log ++ ·) (List.flatMap_singleton ..)

/-- Entries other than cycles report nothing. -/
theorem reportsOf_snoc_of_nil {now : Instant} {e : Entry} (h : e.reportsOf id = []) :
    reportsOf id (log ++ [(now, e)]) = reportsOf id log := by
  rw [reportsOf_snoc, h, List.append_nil]

theorem ReportedInTime.of_append {retention : Duration} (h : ReportedInTime retention id (log ++ log')) :
    ReportedInTime retention id log := by
  rintro earlier now removed later rfl
  exact h earlier now removed (later ++ log') (List.append_assoc ..)

/-- In a run no longer than the retention every node is reported in time. -/
theorem reportedInTime_of_within {retention : Duration} (h : ∀ now removed, (now, .cleanup removed) ∈ log →
    ∀ report ∈ reportsOf id log, now.nanosSince report.1 ≤ retention.nanos) :
    ReportedInTime retention id log := by
  rintro earlier now removed later rfl last hlast
  refine h now removed (by simp) last ?_
  rw [reportsOf_append]
  exact List.mem_append_left _ (List.mem_of_getLast? hlast)

/-- Outcomes are recorded after those before. -/
theorem outcomes_foldl_record (now : Instant) (outcomes : List (Except Fault Duration))
    (life : StatusLife) :
    (outcomes.foldl (fun life outcome => life.record (now, outcome)) life).outcomes =
      life.outcomes ++ outcomes.map fun outcome => (now, outcome) := by
  induction outcomes generalizing life with
  | nil => exact (List.append_nil _).symm
  | cons outcome outcomes ih =>
    rw [List.foldl_cons, ih, List.map_cons, StatusLife.record, List.append_assoc]
    rfl

/-- A cycle that reports of known nodes only adds its reports. -/
theorem outcomesOf_cycle {known : List String} {now : Instant} {o : BatchOutcome String NodeOffset}
    (hknown : o.reportedOf id ≠ [] → id ∈ known) :
    outcomesOf ((Entry.cycle known now o).live id life) =
      outcomesOf life ++ (Entry.cycle known now o).reportsOf id := by
  simp only [Entry.live, Entry.reportsOf]
  by_cases hid : id ∈ known
  · rw [if_pos hid, Option.map_some]
    refine (outcomes_foldl_record now (o.reportedOf id) _).trans ?_
    cases life <;> rfl
  · have hnone : o.reportedOf id = [] := by
      by_contra hsome
      exact hid (hknown hsome)
    rw [if_neg hid, hnone, List.map_nil, List.append_nil]
    cases life <;> rfl

end Reports

namespace Service

/-- Requests served one after another, with all entries and the times that they were made at. -/
inductive Chronicle (clock : Instant → Instant → Prop) (start : Service) :
    List Request → List Happening → List (Instant × Entry) → List Answer → Service → Prop where
  | nil : Chronicle clock start [] [] [] [] start
  | snoc {requests : List Request} {history later : List Happening} {log : List (Instant × Entry)}
      {new : List Entry} {answers : List Answer} {answer : Answer} {s s' : Service} {r : Request}
      (earlier : Chronicle clock start requests history log answers s)
      (books : s.Books r later new answer s') (hclock : clock s.now s'.now) :
      Chronicle clock start (requests ++ [r]) (history ++ later) (log ++ new.map fun e => (s.now, e))
        (answers ++ [answer]) s'

/-- The status of a node counts and remembers certain reports, each of them and no others. -/
structure Holds (s : Service) (id : String) (reports : List (Instant × Except Fault Duration)) :
    Prop where
  /-- The status has in all its fields, its history and average included, what comes of the reports. -/
  status : ∀ x, s.syncStatus id = some x → ∃ createdAt,
    x = StatusLife.status s.settings.sync.historyLength id ⟨createdAt, reports⟩
  lasts : reports ≠ [] → ∃ x, s.syncStatus id = some x
  successes : s.successesOf id = reports.countP fun report => report.2.isOk
  failures : s.failuresOf id = reports.countP fun report => !report.2.isOk

section Runs

variable {s s' start : Service} {id : String} {clock : Instant → Instant → Prop} {life : Option StatusLife}
  {cancel : Cancellation} {requests : List Request} {history : List Happening}
  {log : List (Instant × Entry)} {entries : List Entry} {answers : List Answer}
  {reports : List (Instant × Except Fault Duration)} {o : BatchOutcome String NodeOffset}

/-- The same of the life that the status tells of. -/
def Remembers (s : Service) (id : String) (reports : List (Instant × Except Fault Duration)) : Prop :=
  ∃ life, s.Tells id life ∧ outcomesOf life = reports

theorem Remembers.holds (h : s.Remembers id reports) : s.Holds id reports := by
  obtain ⟨life, htells, rfl⟩ := h
  unfold Tells at htells
  refine ⟨?_, ?_, ?_, ?_⟩
  · intro x hx
    obtain ⟨life, rfl, rfl⟩ := Option.map_eq_some_iff.mp (htells.symm.trans hx)
    exact ⟨life.createdAt, rfl⟩
  · cases life with
    | none => exact fun hsome => absurd rfl hsome
    | some life => exact fun _ => ⟨_, htells⟩
  · rw [successesOf, htells]
    cases life <;> rfl
  · rw [failuresOf, htells]
    cases life <;> rfl

theorem Remembers.of_statuses (h : s.Remembers id reports)
    (hstatuses : s'.memory.statuses = s.memory.statuses) (hsettings : s'.settings = s.settings) :
    s'.Remembers id reports := by
  obtain ⟨life, htells, houtcomes⟩ := h
  exact ⟨life, htells.of_statuses hstatuses hsettings, houtcomes⟩

theorem Synced.known_of_reportedOf (h : s.Synced cancel history o s') (hsome : o.reportedOf id ≠ []) :
    id ∈ s.known := by
  obtain ⟨hknown, _⟩ := h.known_of_reported
  cases hresult : o.results.find? id with
  | some record => exact hknown id (List.mem_append_left _ (Table.mem_keys_iff.mpr ⟨record, hresult⟩))
  | none =>
    cases hfailure : o.failures.find? id with
    | some fault => exact hknown id (List.mem_append_right _ (Table.mem_keys_iff.mpr ⟨fault, hfailure⟩))
    | none => exact absurd (by simp [BatchOutcome.reportedOf, hresult, hfailure]) hsome

/-- A cycle adds what it reports. -/
theorem Synced.remembers (h : s.Synced cancel history o s') (hbefore : s.Remembers id (reportsOf id log)) :
    s'.Remembers id (reportsOf id (log ++ [(s.now, .cycle s.known s.now o)])) := by
  obtain ⟨life, htells, houtcomes⟩ := hbefore
  refine ⟨_, h.tells htells, ?_⟩
  rw [outcomesOf_cycle h.known_of_reportedOf, houtcomes, reportsOf_snoc]

/-- A cleanup takes nothing if the node was reported in time: what it takes is then without a report. -/
theorem Remembers.cleanup (h : s.Remembers id (reportsOf id log))
    (hintime : ReportedInTime s.settings.sync.statusRetention id (log ++ [(s.now, .cleanup s.outdated)]))
    (hstatuses : s.Changes s' id [.cleanup]) (hsettings : s'.settings = s.settings) :
    s'.Remembers id (reportsOf id (log ++ [(s.now, .cleanup s.outdated)])) := by
  obtain ⟨life, htells, houtcomes⟩ := h
  have hrecent := hintime log s.now s.outdated [] rfl
  refine ⟨_, tells_cleanup htells hstatuses hsettings, ?_⟩
  rw [reportsOf_snoc_of_nil rfl, ← houtcomes]
  rw [← houtcomes] at hrecent
  rw [Entry.live]
  split
  · next hout =>
    obtain ⟨x, hx, hold⟩ := mem_outdated.mp hout
    obtain ⟨life, rfl, rfl⟩ := Option.map_eq_some_iff.mp (htells.symm.trans hx)
    by_contra hsome
    obtain ⟨last, hlast⟩ := Option.ne_none_iff_exists'.mp
      (mt List.getLast?_eq_none_iff.mp (Ne.symm hsome))
    have hupdated : (life.status s.settings.sync.historyLength id).updatedAt = last.1 := by
      simp only [StatusLife.status]
      rw [show life.outcomes.getLast? = some last from hlast]
    rw [← Bool.not_eq_true, SyncStatus.retained_iff, hupdated] at hold
    exact hold (hrecent last hlast)
  · rfl

/-- By induction on the cycles: each adds what it reports, and the cleanup after it takes nothing. -/
theorem CycleBooks.remembers (h : s.CycleBooks history entries s')
    (hbefore : s.Remembers id (reportsOf id log))
    (hintime : ReportedInTime s.settings.sync.statusRetention id (log ++ entries.map fun e => (s.now, e))) :
    s'.Remembers id (reportsOf id (log ++ entries.map fun e => (s.now, e))) := by
  induction h generalizing log with
  | rest s =>
    rw [List.map_nil, List.append_nil]
    exact hbefore
  | @cycle s s' s'' _ _ _ o entries hsynced _ ih =>
    have hsettings : s'.settings = s.settings := congrArg Environment.settings hsynced.env_eq
    have hnow : s'.now = s.now := congrArg Environment.now hsynced.env_eq
    have hlog : log ++ (Entry.cycle s.known s.now o :: .cleanup s'.outdated :: entries).map
        (fun e => (s.now, e)) = (log ++ [(s.now, .cycle s.known s.now o)] ++
          [(s.now, .cleanup s'.outdated)]) ++ entries.map fun e => (s.now, e) := by simp
    have hlater : s'.maintain.2.settings = s.settings ∧ s'.maintain.2.now = s.now := ⟨hsettings, hnow⟩
    rw [hlog] at hintime ⊢
    rw [hlater.1, hlater.2] at ih
    refine ih ?_ hintime
    have hcleanup : ReportedInTime s'.settings.sync.statusRetention id
        (log ++ [(s.now, .cycle s.known s.now o)] ++ [(s'.now, .cleanup s'.outdated)]) := by
      rw [hsettings, hnow]
      exact hintime.of_append
    have hmaintained := (hsynced.remembers hbefore).cleanup hcleanup (changes_maintain s' id) rfl
    rwa [hnow] at hmaintained

/-- The entries of a request say what it adds, if the cleanups among them take nothing. -/
theorem Books.remembers {r : Request} {answer : Answer} (h : s.Books r history entries answer s')
    (hbefore : s.Remembers id (reportsOf id log))
    (hintime : ReportedInTime s.settings.sync.statusRetention id (log ++ entries.map fun e => (s.now, e))) :
    s'.Remembers id (reportsOf id (log ++ entries.map fun e => (s.now, e))) := by
  have hsettings := h.settings_eq
  cases h with
  | alone h =>
    by_cases hentries : s.entries r = []
    · rw [hentries, List.map_nil, List.append_nil]
      exact hbefore.of_statuses (statuses_alone h hentries) hsettings
    · unfold Service.entries at hentries hintime ⊢
      split at hentries
      · exact hbefore.cleanup hintime (changes_maintain s id) hsettings
      · exact hbefore.cleanup hintime (changes_cleanup s id) hsettings
      · exact absurd rfl hentries
  | batchDelays batch | delayMatrix batch | maxDelay batch | batchOffsets batch =>
    refine Remembers.of_statuses ?_ (statuses_batch batch) rfl
    rw [List.map_singleton, reportsOf_snoc_of_nil rfl]
    exact hbefore
  | sync hsynced => exact hsynced.remembers hbefore
  | runLoop hcycles => exact hcycles.remembers hbefore hintime

/-- Every run has such a log, and every log is that of a run. -/
theorem exists_chronicle_iff : (∃ log, Chronicle clock start requests history log answers s) ↔
    Run clock start requests history answers s := by
  refine ⟨?_, ?_⟩
  · rintro ⟨log, hchronicle⟩
    induction hchronicle with
    | nil => exact .nil
    | snoc _ books hclock ih => exact ih.snoc (exists_books_iff.mp ⟨_, books⟩) hclock
  · intro hrun
    induction hrun with
    | nil => exact ⟨[], .nil⟩
    | snoc _ serves hclock ih =>
      obtain ⟨log, hchronicle⟩ := ih
      obtain ⟨new, hbooks⟩ := exists_books_iff.mpr serves
      exact ⟨_, hchronicle.snoc hbooks hclock⟩

theorem Chronicle.run (h : Chronicle clock start requests history log answers s) :
    Run clock start requests history answers s := exists_chronicle_iff.mp ⟨log, h⟩

theorem Chronicle.remembers (h : Chronicle clock start requests history log answers s)
    (hstart : start.memory.statuses = .empty)
    (hintime : ReportedInTime start.settings.sync.statusRetention id log) :
    s.Remembers id (reportsOf id log) := by
  induction h with
  | nil =>
    refine ⟨none, ?_, rfl⟩
    unfold Tells syncStatus
    rw [hstart]
    rfl
  | snoc earlier books _ ih =>
    refine books.remembers (ih hintime.of_append) ?_
    rwa [earlier.run.settings_eq]

end Runs
end Service

/-! ## Every run -/

/-- A cleanup removes the statuses that are older than the retention and no others, whatever the clock
    says. In a run from an opened service, with cycles cut off anywhere, edits of the directory, changes
    of the clock and cleanups in between, the status of a node that was reported in time holds all that
    was ever reported of it: nothing in it was begun anew. -/
theorem reported_nodes_keep_their_status {settings : Settings} {directory : Directory} {access : Access}
    {now : Instant} {metrics : Option Metrics} {start : Service}
    (hstart : Service.start settings directory access now metrics = .ok start) :
    (∀ s : Service, s.Cleaned s.cleanupStatuses.1 s.cleanupStatuses.2 ∧
      s.Cleaned s.maintain.1.statuses s.maintain.2) ∧
    ∀ requests history answers s,
      Service.Run Service.anyTime start requests history answers s →
      (∃ log, Service.Chronicle Service.anyTime start requests history log answers s) ∧
      ∀ log, Service.Chronicle Service.anyTime start requests history log answers s →
        ∀ id, ReportedInTime settings.sync.statusRetention id log → s.Holds id (reportsOf id log) := by
  have hempty := Service.eq_of_start hstart
  have hstatuses : start.memory.statuses = .empty := by
    rw [hempty]
    rfl
  have hsettings : start.settings = settings := by
    rw [hempty]
    rfl
  refine ⟨fun s => ⟨s.cleaned_cleanupStatuses, s.cleaned_maintain⟩, ?_⟩
  intro requests history answers s hrun
  refine ⟨Service.exists_chronicle_iff.mpr hrun, fun log hchronicle id hintime => ?_⟩
  rw [← hsettings] at hintime
  exact (hchronicle.remembers hstatuses hintime).holds

/-! ## The two nodes -/

open TwoNodes

namespace Service

/-- A service that is synchronized, and once more after a span. -/
def syncedTwice (s : Service) (span : Duration) : Service :=
  (((s.syncRounds .never).2.advance span).maintain.2.syncRounds .never).2

/-- Its nodes are reported in time for the cleanup in between if the span is no longer than the
    retention. -/
theorem exists_chronicle_syncedTwice (s : Service) (span retention : Duration) (id : String)
    (h : (s.now.addCapped span).nanosSince s.now ≤ retention.nanos) : ∃ history log answers,
      Chronicle anyTime s [.sync .never, .advance span, .maintain, .sync .never] history log answers
        (s.syncedTwice span) ∧ ReportedInTime retention id log := by
  obtain ⟨_, o, hfirst⟩ := s.synced_syncRounds .never
  have hnow : ((s.syncRounds .never).2.advance span).now = s.now.addCapped span :=
    congrArg (fun env => env.now.addCapped span) hfirst.env_eq
  unfold syncedTwice
  generalize (s.syncRounds .never).2 = synced at hfirst hnow
  let later := synced.advance span
  obtain ⟨_, o', hsecond⟩ := later.maintain.2.synced_syncRounds .never
  have hnil : Chronicle anyTime s [] [] [] [] s := .nil
  have hcycle := hnil.snoc (.sync hfirst) trivial
  have hadvance := hcycle.snoc (.alone (r := .advance span) rfl) trivial
  have hmaintain := hadvance.snoc (.alone (r := .maintain) rfl) trivial
  have hchronicle : Chronicle anyTime s [.sync .never, .advance span, .maintain, .sync .never] _
      [(s.now, .cycle s.known s.now o), (later.now, .cleanup later.outdated),
        (later.now, .cycle later.known later.now o')] _ _ := hmaintain.snoc (.sync hsecond) trivial
  refine ⟨_, _, _, hchronicle, reportedInTime_of_within fun now removed hmem report hreport => ?_⟩
  have hcleanup : now = later.now := by
    simp only [List.mem_cons, Prod.mk.injEq, reduceCtorEq, and_false, List.not_mem_nil, or_false,
      false_or] at hmem
    exact hmem.1
  have htime : report.1 = s.now ∨ report.1 = later.now := by
    simp only [reportsOf, List.flatMap_cons, List.flatMap_nil, Entry.reportsOf, List.mem_append,
      List.mem_map, List.not_mem_nil, or_false, false_or] at hreport
    obtain ⟨_, _, rfl⟩ | ⟨_, _, rfl⟩ := hreport
    · exact .inl rfl
    · exact .inr rfl
  rw [hcleanup]
  obtain htime | htime := htime
  · rwa [htime, hnow]
  · rw [htime, Instant.nanosSince_self]
    exact Int.natCast_nonneg _

end Service

/-- Both nodes are synchronized twice, a whole retention apart, with a cleanup just before the second
    time. -/
theorem reported_nodes_keep_their_status_two_nodes :
    let requests : List Request := [.sync .never, .advance (.ofSecs 86400), .maintain, .sync .never]
    Service.start {} (directory 0 ground_ok) {} .epoch none = .ok (service 0 ground_ok) ∧
    ∃ history log answers s,
      Service.Chronicle Service.anyTime (service 0 ground_ok) requests history log answers s ∧
      ReportedInTime (.ofSecs 86400) "a" log ∧ s.Holds "a" (reportsOf "a" log) ∧
      s.successesOf "a" = 2 := by
  intro requests
  obtain ⟨history, log, answers, hchronicle, hintime⟩ :=
    (service 0 ground_ok).exists_chronicle_syncedTwice (.ofSecs 86400) (.ofSecs 86400) "a" (by decide)
  have hholds := ((reported_nodes_keep_their_status start_eq).2 _ _ _ _ hchronicle.run).2
    log hchronicle "a" hintime
  refine ⟨start_eq, history, log, answers, _, hchronicle, hintime, hholds, ?_⟩
  decide +kernel

end LightCone
