import LightCone.Proofs.Run.Finishing
import LightCone.Proofs.Run.Ledger

/-!
The background loop, step by step.

The loop waits for its timer and for the shutdown, and where both have come either may be attended
to first. In a cycle jobs interleave while time passes, and the shutdown may come at any point of
it; then no more than what has ended is recorded. This file

1. says what a loop has come to (`Loop`), with the cycles that it has been through, and what it
   may do next (`Loop.Step`);
2. shows that a cycle that nothing cuts off comes to one thing only, whatever the schedule of its
   jobs (`Service.endCycle_of_ended`);
3. shows that the loop as it runs, with its lookups answered in rounds, goes through such steps to
   its stop (`Loop.exists_stopped`).
-/
namespace LightCone

/-- How a cycle of the loop went. -/
inductive CycleKind where
  /-- Every job ended. -/
  | whole
  /-- The shutdown cut some jobs off. -/
  | cut
  /-- It began after the shutdown. -/
  | late
  deriving DecidableEq

/-- A cycle that the loop has been through, with the maintenance after it. -/
structure LoopCycle where
  kind : CycleKind
  /-- The milliseconds of its beginning and its end. -/
  began : Nat
  ended : Nat
  before : Service
  after : Service

inductive LoopStage where
  | waiting
  /-- In a cycle: when it began, in what service, and how far its jobs have come. -/
  | cycling (began : Nat) (before : Service) (jobs : Pool String NodeOffset)
  | stopped

/-- A background loop on its way. -/
structure Loop where
  service : Service
  stage : LoopStage
  /-- The millisecond reached. -/
  time : Nat
  /-- The nanosecond at which the timer is due. -/
  due : Nat
  /-- Whether the loop has been told to stop. -/
  shutdown : Bool
  /-- The number of cycles begun before that. -/
  begun : Nat
  /-- The cycles that are over, the first one first. -/
  cycles : List LoopCycle

/-! ## Cycles -/

namespace Service

variable {s : Service}

/-- The jobs of a cycle. -/
def cycleJobs (s : Service) : Pool String NodeOffset :=
  offsetJobs s.known (Directory.ids s.env.directory.active) s.now

/-- Gives every known node a status. -/
def beginCycle (s : Service) : Service := s.remember (s.memory.addPending s.known s.now)

/-- Records what has ended of a cycle, and maintains. -/
def endCycle (s : Service) (jobs : Pool String NodeOffset) (cancel : Cancellation) : Service :=
  (s.remember (s.memory.recordOutcome (jobs.outcome cancel) s.now
    s.settings.sync.historyLength)).maintain.2

/-- A cycle that nothing cuts off, and maintenance. -/
def fullCycle (s : Service) : Service := (s.sync .never).2.maintain.2

/-- A cycle that is told to stop before its start, and maintenance. -/
def refusedCycle (s : Service) : Service := (s.sync .before).2.maintain.2

/-- A cycle whose jobs have come to some point may be cut off there. -/
theorem synced_of_interleaving {history : List Happening} {jobs : Pool String NodeOffset} {m : Memory}
    {cancel : Cancellation}
    (run : Pool.Interleaving s.env (s.cycleJobs, s.beginCycle.memory) history (jobs, m))
    (hcancel : cancel ≠ .before)
    (hended : cancel = .never → ∀ item ∈ jobs, (Pool.ended item.2).isSome = true) :
    s.Synced cancel history (jobs.outcome cancel)
      (s.remember (m.recordOutcome (jobs.outcome cancel) s.now s.settings.sync.historyLength)) :=
  .mk (.of_stop run hcancel hended)

/-- Cycles that are not cancelled come to the same, in whatever order their jobs run. -/
theorem Synced.unique {history history' : List Happening} {o o' : BatchOutcome String NodeOffset}
    {s' s'' : Service} (hkeyed : s.env.directory.Keyed) (h : s.Synced .never history o s')
    (h' : s.Synced .never history' o' s'') : s' = s'' := by
  obtain ⟨batch⟩ := h
  obtain ⟨batch'⟩ := h'
  have hfound := (Environment.keyed_of_directory hkeyed).toldApart_finds
  have hnodup : (distinctIds s.known).Nodup := (sorted_distinctIds _).imp String.ne_of_lt
  obtain ⟨rfl, rfl⟩ := batch.unique hfound (separate_offsetJobs s.env hnodup _ s.now) batch'
  rfl

theorem synced_syncRounds (s : Service) (cancel : Cancellation) :
    ∃ history o, s.Synced cancel history o (s.syncRounds cancel).2 := by
  obtain ⟨history, hcycle⟩ := cycle_syncRounds s cancel
  obtain ⟨o, hsynced, _⟩ := cycle_iff.mp hcycle
  exact ⟨history, o, hsynced⟩

/-- When all jobs of a cycle have ended, in whatever order they ran, the cycle comes to what running
    it from its start to its end does. -/
theorem endCycle_of_ended {history : List Happening} {jobs : Pool String NodeOffset} {m : Memory}
    (hkeyed : s.env.directory.Keyed)
    (run : Pool.Interleaving s.env (s.cycleJobs, s.beginCycle.memory) history (jobs, m))
    (hended : ∀ item ∈ jobs, (Pool.ended item.2).isSome = true) :
    (s.remember m).endCycle jobs .never = s.fullCycle := by
  have hsynced : s.Synced .never history (jobs.outcome .never) _ :=
    synced_of_interleaving run (by decide) fun _ => hended
  obtain ⟨_, _, hwhole⟩ := synced_syncRounds s .never
  exact congrArg (fun s => s.maintain.2) (hsynced.unique hkeyed hwhole)

end Service

/-! ## Steps of the loop -/

namespace Loop

variable {ending : Nat} {l l' : Loop}

/-- The loop after a cycle. -/
def finish (l : Loop) (kind : CycleKind) (began : Nat) (before after : Service) : Loop :=
  { l with
    service := after
    stage := .waiting
    cycles := l.cycles ++ [⟨kind, began, l.time, before, after⟩] }

/-- What a loop may do next when it is to be told to stop at the millisecond `ending`. -/
inductive Step (ending : Nat) : Loop → Loop → Prop where
  /-- Time passes; a loop that waits is woken when the timer is due. -/
  | pass {l : Loop} (htime : l.time < ending)
      (hdue : l.stage = .waiting → l.time < Service.wakeTime l.due) :
      Step ending l { l with time := l.time + 1 }
  | shutdown {l : Loop} (htime : l.time = ending) : Step ending l { l with shutdown := true }
  /-- The timer is due, and a cycle begins. -/
  | tick {l : Loop} (hstage : l.stage = .waiting) (hdue : Service.wakeTime l.due ≤ l.time)
      (hshutdown : l.shutdown = false) :
      Step ending l
        { l with
          service := l.service.beginCycle
          stage := .cycling l.time l.service l.service.cycleJobs
          due := Service.nextDue (Service.loopPeriod l.service.settings.sync) l.due l.time
          begun := l.begun + 1 }
  /-- Some job goes on. -/
  | job {l : Loop} {began : Nat} {before : Service} {earlier later : Pool String NodeOffset}
      {id : String} {job : Job (Except Fault NodeOffset)}
      (hstage : l.stage = .cycling began before (earlier ++ (id, job) :: later))
      (hjob : Pool.ended job = none) :
      Step ending l
        { l with
          service := l.service.remember (Pool.advance before.env job l.service.memory).2
          stage := .cycling began before
            (earlier ++ (id, (Pool.advance before.env job l.service.memory).1) :: later) }
  /-- All jobs have ended. -/
  | complete {l : Loop} {began : Nat} {before : Service} {jobs : Pool String NodeOffset}
      (hstage : l.stage = .cycling began before jobs)
      (hended : ∀ item ∈ jobs, (Pool.ended item.2).isSome = true) :
      Step ending l (l.finish .whole began before (l.service.endCycle jobs .never))
  /-- The cycle notices the shutdown. -/
  | cut {l : Loop} {began : Nat} {before : Service} {jobs : Pool String NodeOffset}
      (hstage : l.stage = .cycling began before jobs) (hshutdown : l.shutdown = true)
      (hended : ¬ ∀ item ∈ jobs, (Pool.ended item.2).isSome = true) :
      Step ending l
        (l.finish .cut began before (l.service.endCycle jobs (.after (l.time - began))))
  /-- The loop attends to the timer although it has been told to stop. -/
  | late {l : Loop} (hstage : l.stage = .waiting) (hdue : Service.wakeTime l.due ≤ l.time)
      (hshutdown : l.shutdown = true) :
      Step ending l
        { l.finish .late l.time l.service l.service.refusedCycle with
          due := Service.nextDue (Service.loopPeriod l.service.settings.sync) l.due l.time }
  | stop {l : Loop} (hstage : l.stage = .waiting) (hshutdown : l.shutdown = true) :
      Step ending l { l with stage := .stopped }

/-- A loop over a service before its first step. -/
def start (s : Service) : Loop := ⟨s, .waiting, 0, 0, false, 0, []⟩

/-- The loop over a service comes to a point when it is to be told to stop at `ending`. -/
def Reached (s : Service) (ending : Nat) (l : Loop) : Prop :=
  Relation.ReflTransGen (Step ending) (start s) l

end Loop

/-! ## The loop as it runs -/

/-- A batch takes no more rounds of lookups than it is allowed. -/
theorem Pool.fst_rounds_le {κ ν : Type} (env : Environment) (most : Nat) (pool : Pool κ ν)
    (m : Memory) : (rounds env most pool m).1 ≤ most := by
  induction most generalizing pool m with
  | zero => exact Nat.le_refl 0
  | succ most ih =>
    simp only [rounds]
    split
    · exact Nat.succ_le_succ (ih _ _)
    · exact Nat.zero_le _

/-- A batch that may take as many rounds as its jobs make lookups is not cut off. -/
theorem Pool.cancelled_fanOut_of_rounds {κ ν : Type} [Key κ] [DecidableEq κ] {env : Environment}
    {jobs : Pool κ ν} {most : Nat} {cancel : Cancellation} (hkeys : (jobs.map Prod.fst).Nodup)
    (hfresh : ∀ item ∈ jobs, ended item.2 = none)
    (hmost : ∀ item ∈ jobs, item.2.LooksUpAtMost most) (hcancel : cancel ≠ .before)
    (hrounds : cancel.rounds env.access most = most) (m : Memory) :
    (fanOut env jobs most cancel m).1.outcome.cancelled = false := by
  unfold fanOut
  split
  · rfl
  · obtain ⟨_, hstart⟩ := start_interleaving env jobs m hfresh
    obtain ⟨_, hon⟩ := rounds_interleaving env most (start env jobs m).1 (start env jobs m).2
    have hsame := (hstart.trans hon).keys_eq
    have hrest : AtRest most (start env jobs m).1 := atRest_start jobs m hmost
    have hended : ∀ item ∈ (rounds env most (start env jobs m).1 (start env jobs m).2).2.1,
        (ended item.2).isSome = true := ended_rounds most _ _ hrest
    have hall := (completed_eq_length_iff (hsame ▸ hkeys)).2.mpr hended
    have hlength := congrArg List.length hsame
    rw [List.length_map, List.length_map] at hlength
    rw [hrounds]
    simp only [Bool.and_eq_false_iff, decide_eq_false_iff_not]
    exact .inr (Nat.not_lt.mpr (Nat.le_of_eq (hall.trans hlength).symm))

namespace Cancellation

theorem rounds_le (cancel : Cancellation) (access : Access) (most : Nat) :
    cancel.rounds access most ≤ most := by
  unfold rounds
  split
  · exact Nat.le_refl _
  · exact Nat.zero_le _
  · split
    · exact Nat.le_refl _
    · exact Nat.min_le_left _ _

/-- The rounds that are allowed before a cancellation are over when it comes. -/
theorem rounds_after_mul_latency_lt (access : Access) {ms : Nat} (hms : 0 < ms) (most : Nat) :
    (Cancellation.after ms).rounds access most * access.latency < ms := by
  by_cases hlatency : access.latency = 0
  · rw [hlatency, Nat.mul_zero]
    exact hms
  · have hrounds : (Cancellation.after ms).rounds access most ≤ (ms - 1) / access.latency := by
      simp only [rounds, hlatency, if_false]
      exact Nat.min_le_right _ _
    have hover := Nat.mul_le_mul_right access.latency hrounds
    have hlast := Nat.div_mul_le_self (ms - 1) access.latency
    omega

/-- A cancellation that comes late enough allows all rounds. -/
theorem rounds_after_of_lt {access : Access} {ms most : Nat} (h : most * access.latency < ms) :
    (Cancellation.after ms).rounds access most = most := by
  by_cases hlatency : access.latency = 0
  · simp only [rounds, hlatency, if_true]
  · simp only [rounds, hlatency, if_false]
    refine Nat.min_eq_left ((Nat.le_div_iff_mul_le (Nat.pos_of_ne_zero hlatency)).mpr ?_)
    omega

end Cancellation

namespace Service

/-- The milliseconds that a cycle lasts at most when its lookups are answered in rounds: one for the
    node and one for each reference. -/
def longestCycle (s : Service) : Nat :=
  ((Directory.ids s.env.directory.active).length + 1) * s.env.access.latency

/-- The rounds of a cycle are over before it is cancelled, and do not last longer than a cycle may. -/
theorem rounds_syncRounds (s : Service) {ms : Nat} (hms : 0 < ms) :
    (s.syncRounds (.after ms)).1.2 * s.env.access.latency < ms ∧
      (s.syncRounds (.after ms)).1.2 * s.env.access.latency ≤ s.longestCycle := by
  have hallowed (most : Nat) := Cancellation.rounds_after_mul_latency_lt s.env.access hms most
  simp only [syncRounds, runOffsets, performAll, fanOut]
  split
  · rw [Nat.zero_mul]
    exact ⟨hms, Nat.zero_le _⟩
  · split
    · rw [Nat.zero_mul]
      exact ⟨hms, Nat.zero_le _⟩
    · have hrounds (most : Nat) (pool : Pool String NodeOffset) (m : Memory) :=
        Nat.mul_le_mul_right s.env.access.latency (Pool.fst_rounds_le s.env most pool m)
      exact ⟨Nat.lt_of_le_of_lt (hrounds _ _ _) (hallowed _), Nat.le_trans (hrounds _ _ _)
        (Nat.mul_le_mul_right _ (Cancellation.rounds_le _ _ _))⟩

/-- Only what comes in time cuts a cycle off. -/
theorem le_longestCycle_of_cancelled (s : Service) {ms : Nat}
    (h : (s.syncRounds (.after ms)).1.1.cancelled = true) : ms ≤ s.longestCycle := by
  refine Nat.not_lt.mp fun hlate => ?_
  have hmost : ∀ item ∈ s.cycleJobs,
      item.2.LooksUpAtMost ((Directory.ids s.env.directory.active).length + 1) := by
    intro item hitem
    obtain ⟨id, _, rfl⟩ := List.mem_map.mp hitem
    exact looksUpAtMost_offsetJob id _ s.now
  have hwhole : (s.syncRounds (.after ms)).1.1.cancelled = false :=
    Pool.cancelled_fanOut_of_rounds nodup_keys_offsetJobs fresh_offsetJobs hmost (by simp)
      (Cancellation.rounds_after_of_lt hlate) (s.memory.addPending s.known s.now)
  exact Bool.noConfusion (h.symm.trans hwhole)

/-- A cycle as it runs is one whose jobs interleave, and it is cut off if some of them have not
    ended by then. -/
theorem exists_stop_syncRounds (s : Service) (ms : Nat) : ∃ history jobs m,
    Pool.Interleaving s.env (s.cycleJobs, s.beginCycle.memory) history (jobs, m) ∧
    (s.syncRounds (.after ms)).2.maintain.2 = (s.remember m).endCycle jobs (.after ms) ∧
    ((s.syncRounds (.after ms)).1.1.cancelled = true ↔
      ¬ ∀ item ∈ jobs, (Pool.ended item.2).isSome = true) := by
  obtain ⟨history, hcycle⟩ := cycle_syncRounds s (.after ms)
  generalize (s.syncRounds (.after ms)).1.1 = report at hcycle ⊢
  generalize (s.syncRounds (.after ms)).2 = s' at hcycle ⊢
  obtain ⟨batch⟩ := hcycle
  obtain ⟨jobs, run, rfl, _⟩ := batch.exists_stop fresh_offsetJobs
  have hkeys : (jobs.map Prod.fst).Nodup := run.keys_eq ▸ nodup_keys_offsetJobs
  refine ⟨history, jobs, _, run, rfl, ?_⟩
  show (jobs.outcome (.after ms)).cancelled = true ↔ _
  rw [Pool.cancelled_outcome_iff hkeys]
  exact and_iff_right (by simp)

theorem loopPeriod_pos (s : SyncSettings) : 0 < loopPeriod s :=
  Nat.lt_of_lt_of_le (by decide) (Nat.le_max_right _ nanosPerMilli)

/-- The timer is due a period later at the earliest. -/
theorem add_period_le_nextDue (period due began : Nat) : due + period ≤ nextDue period due began := by
  simp only [nextDue]
  split
  · have hmod := Nat.mod_le (began * nanosPerMilli - due) period
    omega
  · exact Nat.le_refl _

end Service

namespace Loop

variable {ending : Nat} {l : Loop}

/-- Time may pass until the loop is told to stop, and for a waiting loop until the timer is due. -/
theorem reaches_later (n : Nat) (htime : l.time + n ≤ ending)
    (hdue : l.stage = .waiting → n ≤ Service.wakeTime l.due - l.time) :
    Relation.ReflTransGen (Step ending) l { l with time := l.time + n } := by
  induction n with
  | zero => exact .refl
  | succ n ih =>
    refine (ih (by omega) fun hstage => Nat.le_of_succ_le (hdue hstage)).tail ?_
    refine .pass (l := { l with time := l.time + n }) htime fun hstage => ?_
    have hlater : n + 1 ≤ Service.wakeTime l.due - l.time := hdue hstage
    show l.time + n < Service.wakeTime l.due
    omega

/-- The jobs of a cycle may go on in any order. -/
theorem reaches_interleaved {began : Nat} {before : Service} {x y : Pool String NodeOffset × Memory}
    {history : List Happening} (run : Pool.Interleaving before.env x history y)
    (hstage : l.stage = .cycling began before x.1) (hmemory : l.service.memory = x.2) :
    Relation.ReflTransGen (Step ending) l
      { l with service := l.service.remember y.2, stage := .cycling began before y.1 } := by
  induction run generalizing l with
  | rest x =>
    have hsame : { l with service := l.service.remember x.2, stage := .cycling began before x.1 } = l := by
      rw [← hstage, ← hmemory]
      rfl
    rw [hsame]
  | step hjob _ ih =>
    have hstep : Step ending l _ := .job hstage hjob
    rw [hmemory] at hstep
    exact .head hstep (ih rfl rfl)

/-- A loop whose timer is not due before the end waits until then, and stops. -/
theorem exists_stopped_of_idle (hstage : l.stage = .waiting) (htime : l.time ≤ ending)
    (hdue : ending ≤ max l.time (Service.wakeTime l.due)) :
    ∃ l', Relation.ReflTransGen (Step ending) l l' ∧ l'.stage = .stopped ∧
      l'.service = l.service ∧ l'.cycles = l.cycles := by
  have hlater : Relation.ReflTransGen (Step ending) l { l with time := l.time + (ending - l.time) } :=
    reaches_later _ (by omega) fun _ => by omega
  have hend : l.time + (ending - l.time) = ending := by omega
  rw [hend] at hlater
  have hshutdown := hlater.tail (.shutdown rfl)
  exact ⟨_, hshutdown.tail (.stop hstage rfl), rfl, rfl, rfl⟩

/-- A waiting loop may begin its next cycle when the timer is due, and its jobs may come as far as
    they do when the cycle is run. -/
theorem exists_cycling {began : Nat} (hstage : l.stage = .waiting) (hshutdown : l.shutdown = false)
    (hbegan : began = max l.time (Service.wakeTime l.due)) (htime : began < ending) : ∃ jobs m,
    Relation.ReflTransGen (Step ending) l
      { l with
        service := l.service.remember m
        stage := .cycling began l.service jobs
        time := began
        due := Service.nextDue (Service.loopPeriod l.service.settings.sync) l.due began
        begun := l.begun + 1 } ∧
    (l.service.syncRounds (.after (ending - began))).2.maintain.2 =
      (l.service.remember m).endCycle jobs (.after (ending - began)) ∧
    ((l.service.syncRounds (.after (ending - began))).1.1.cancelled = true ↔
      ¬ ∀ item ∈ jobs, (Pool.ended item.2).isSome = true) := by
  obtain ⟨history, jobs, m, run, hservice, hcancelled⟩ :=
    l.service.exists_stop_syncRounds (ending - began)
  have hlater : Relation.ReflTransGen (Step ending) l { l with time := l.time + (began - l.time) } :=
    reaches_later _ (by omega) fun _ => by omega
  have hend : l.time + (began - l.time) = began := by omega
  rw [hend] at hlater
  have hdue : Service.wakeTime l.due ≤ began := by omega
  have htick := hlater.tail (.tick hstage hdue hshutdown)
  exact ⟨jobs, m, htick.trans (reaches_interleaved run rfl rfl), hservice, hcancelled⟩

/-- A waiting loop can run its next cycle. If the cycle is cut off the loop stops, else it waits
    again when the rounds of lookups are over. -/
theorem exists_after_cycle {began : Nat} {report : SyncReport} {rounds : Nat} {s : Service}
    (hstage : l.stage = .waiting) (hshutdown : l.shutdown = false)
    (hbegan : began = max l.time (Service.wakeTime l.due)) (htime : began < ending)
    (hcycle : l.service.syncRounds (.after (ending - began)) = ((report, rounds), s)) : ∃ l',
    Relation.ReflTransGen (Step ending) l l' ∧ l'.service = s.maintain.2 ∧
    (∃ c, l'.cycles = l.cycles ++ [c] ∧ c.ended ≤ c.began + l.service.longestCycle) ∧
    if report.cancelled then l'.stage = .stopped
    else l'.stage = .waiting ∧ l'.shutdown = false ∧ l'.time ≤ ending ∧
      l'.time = began + rounds * l'.service.env.access.latency ∧
      l'.due = Service.nextDue (Service.loopPeriod l'.service.settings.sync) l.due began := by
  obtain ⟨jobs, m, hcycling, hservice, hcancelled⟩ := exists_cycling hstage hshutdown hbegan htime
  have hleft : 0 < ending - began := by omega
  obtain ⟨hrounds, hlast⟩ := l.service.rounds_syncRounds hleft
  have hcutoff (h : (l.service.syncRounds (.after (ending - began))).1.1.cancelled = true) :=
    l.service.le_longestCycle_of_cancelled h
  rw [hcycle] at hservice hcancelled hrounds hlast hcutoff
  simp only at hservice hcancelled hrounds hlast hcutoff
  have hlater (n : Nat) (hn : began + n ≤ ending) :=
    hcycling.trans (reaches_later n hn fun hwaiting => by cases hwaiting)
  split
  -- The cycle is still on at the end.
  · next hcut =>
    have hend : began + (ending - began) = ending := by omega
    have htold := (hlater (ending - began) (Nat.le_of_eq hend)).tail (.shutdown hend)
    have hover := htold.tail (.cut rfl rfl (hcancelled.mp hcut))
    have hlasts : began + (ending - began) ≤ began + l.service.longestCycle :=
      Nat.add_le_add_left (hcutoff hcut) _
    refine ⟨_, hover.tail (.stop rfl rfl), ?_, ⟨_, rfl, hlasts⟩, rfl⟩
    rw [hservice]
    rfl
  · next hwhole =>
    have hended := not_not.mp (mt hcancelled.mpr hwhole)
    have hends : began + rounds * l.service.env.access.latency ≤ ending := by omega
    have hover := (hlater _ hends).tail (.complete rfl hended)
    refine ⟨_, hover, ?_, ⟨_, rfl, Nat.add_le_add_left hlast _⟩, rfl, hshutdown, hends, rfl, rfl⟩
    rw [hservice]
    rfl

/-- A waiting loop can go on to its stop as it is run, if enough cycles are allowed for the time
    left. -/
theorem exists_stopped_of_waiting {longest : Nat} (cycles : Nat) (hstage : l.stage = .waiting)
    (hshutdown : l.shutdown = false) (htime : l.time ≤ ending)
    (hcycles : ending * Service.nanosPerMilli <
      l.due + cycles * Service.loopPeriod l.service.settings.sync)
    (hlongest : l.service.longestCycle = longest)
    (hshort : ∀ c ∈ l.cycles, c.ended ≤ c.began + longest) :
    ∃ l', Relation.ReflTransGen (Step ending) l l' ∧ l'.stage = .stopped ∧
      l'.service = Service.runCycles ending cycles l.time l.due l.service ∧
      ∀ c ∈ l'.cycles, c.ended ≤ c.began + longest := by
  induction cycles generalizing l with
  | zero =>
    -- The timer is due after the end, so there is no cycle to run.
    have hdue : ending ≤ Service.wakeTime l.due := by
      simp only [Service.wakeTime, Service.nanosPerMilli] at hcycles ⊢
      omega
    obtain ⟨l', hrest, hstopped, hservice, hsame⟩ :=
      exists_stopped_of_idle hstage htime (Nat.le_trans hdue (Nat.le_max_right _ _))
    exact ⟨l', hrest, hstopped, hservice, hsame ▸ hshort⟩
  | succ cycles ih =>
    simp only [Service.runCycles]
    generalize hbegan : max l.time (Service.wakeTime l.due) = began
    by_cases hlate : ending ≤ began
    · rw [if_neg (Nat.not_lt.mpr hlate)]
      obtain ⟨l', hrest, hstopped, hservice, hsame⟩ :=
        exists_stopped_of_idle hstage htime (hbegan ▸ hlate)
      exact ⟨l', hrest, hstopped, hservice, hsame ▸ hshort⟩
    · rw [if_pos (Nat.not_le.mp hlate)]
      rcases hcycle : l.service.syncRounds (.after (ending - began)) with ⟨⟨report, rounds⟩, s⟩
      obtain ⟨l', hover, hservice, ⟨c, hmore, hlasts⟩, hrest⟩ :=
        exists_after_cycle hstage hshutdown hbegan.symm (Nat.not_le.mp hlate) hcycle
      have henv : l'.service.env = l.service.env := by
        rw [hservice]
        exact (congrArg (fun cycle => cycle.2.env) hcycle).symm
      have hlongest' : l'.service.longestCycle = longest := by
        rw [Service.longestCycle, henv]
        exact hlongest
      rw [hlongest] at hlasts
      have hshort' : ∀ c ∈ l'.cycles, c.ended ≤ c.began + longest := by
        rw [hmore]
        exact List.forall_mem_append.mpr ⟨hshort, List.forall_mem_singleton.mpr hlasts⟩
      simp only [← hservice]
      split
      · next hcut =>
        rw [if_pos hcut] at hrest
        exact ⟨l', hover, hrest, rfl, hshort'⟩
      · next hwhole =>
        rw [if_neg hwhole] at hrest
        obtain ⟨hwaiting, hrunning, htime', hlater, hdue⟩ := hrest
        have hsettings : l'.service.settings = l.service.settings := congrArg (·.settings) henv
        have hperiod := Service.add_period_le_nextDue
          (Service.loopPeriod l'.service.settings.sync) l.due began
        rw [← hdue, hsettings] at hperiod
        rw [Nat.succ_mul] at hcycles
        obtain ⟨l'', hgoes, hstopped, hsame, hshort''⟩ := ih hwaiting hrunning htime' (by
          rw [hsettings]
          omega) hlongest' hshort'
        rw [hlater, hdue] at hsame
        exact ⟨l'', hover.trans hgoes, hstopped, hsame, hshort''⟩

/-- The loop over a service can go to its stop as it is run, and then no cycle lasts longer than its
    lookups do. -/
theorem exists_stopped (s : Service) (ending : Nat) :
    ∃ l, Reached s ending l ∧ l.stage = .stopped ∧ l.service = s.runLoop ending ∧
      ∀ c ∈ l.cycles, c.ended ≤ c.began + s.longestCycle := by
  refine exists_stopped_of_waiting (l := start s) _ rfl rfl (Nat.zero_le _) ?_ rfl
    fun _ hc => absurd hc List.not_mem_nil
  show ending * Service.nanosPerMilli <
    0 + (ending * Service.nanosPerMilli / Service.loopPeriod s.settings.sync + 1) * _
  rw [Nat.zero_add, Nat.succ_mul]
  exact Nat.lt_div_mul_add (Service.loopPeriod_pos s.settings.sync)

end Loop
end LightCone
