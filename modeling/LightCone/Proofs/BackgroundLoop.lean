import LightCone.Proofs.Provenance
import LightCone.Proofs.Retention
import Mathlib.Logic.Function.Iterate

/-!
The background loop is a cycle repeated.

Cycles of the loop do not overlap, and all but the last ones are whole. So the loop comes to as
many runs of the cycle with maintenance, followed by at most one cycle that is cut off. This file

1. says how the cycles of a loop follow each other (`CycleLog`), and reads off it what the service
   has come to (`CycleLog.endsLike`) and what was counted (`CycleLog.attemptsOf_le`);
2. shows that every step of a loop keeps such a log (`Loop.Sound.step`);
3. follows the timer of a loop whose cycles are shorter than its period (`Loop.OnTime`);
4. concludes, for every point that a loop can reach, what its statuses, its counters and its
   number of cycles are (`background_loop_repeats_cycle`).
-/
namespace LightCone

/-! ## Cycles one after another -/

/-- The number of cycles that were begun before the shutdown. -/
def begunIn (cycles : List LoopCycle) : Nat := cycles.countP fun c => c.kind ≠ .late

/-- The number of cycles that nothing cut off. -/
def wholeIn (cycles : List LoopCycle) : Nat := cycles.countP fun c => c.kind = .whole

theorem begunIn_append (cycles : List LoopCycle) (c : LoopCycle) :
    begunIn (cycles ++ [c]) = begunIn cycles + if c.kind = .late then 0 else 1 := by
  unfold begunIn
  rw [List.countP_append, List.countP_singleton]
  cases c.kind <;> rfl

theorem wholeIn_append (cycles : List LoopCycle) (c : LoopCycle) :
    wholeIn (cycles ++ [c]) = wholeIn cycles + if c.kind = .whole then 1 else 0 := by
  unfold wholeIn
  rw [List.countP_append, List.countP_singleton]
  cases c.kind <;> rfl

theorem whole_append {cycles : List LoopCycle} {c : LoopCycle}
    (h : ∀ c ∈ cycles, c.kind = .whole) (hc : c.kind = .whole) :
    ∀ c' ∈ cycles ++ [c], c'.kind = .whole :=
  List.forall_mem_append.mpr ⟨h, List.forall_mem_singleton.mpr hc⟩

/-- A cycle that begins when all earlier ones have ended overlaps none of them. -/
theorem pairwise_snoc {cycles : List LoopCycle} {c : LoopCycle} {time : Nat}
    (hpairs : cycles.Pairwise fun c c' => c.ended ≤ c'.began)
    (hended : ∀ c ∈ cycles, c.ended ≤ time) (hbegan : time ≤ c.began) (hends : c.began ≤ c.ended) :
    (cycles ++ [c]).Pairwise (fun c c' => c.ended ≤ c'.began) ∧
      ∀ c' ∈ cycles ++ [c], c'.ended ≤ c.ended := by
  have hbefore (c' : LoopCycle) (hc' : c' ∈ cycles) : c'.ended ≤ c.began :=
    Nat.le_trans (hended c' hc') hbegan
  refine ⟨List.pairwise_append.mpr ⟨hpairs, List.pairwise_singleton _ _, ?_⟩, ?_⟩
  · exact fun c' hc' => List.forall_mem_singleton.mpr (hbefore c' hc')
  · refine List.forall_mem_append.mpr ⟨?_, List.forall_mem_singleton.mpr (Nat.le_refl _)⟩
    exact fun c' hc' => Nat.le_trans (hbefore c' hc') hends

/-- The cycles of a loop over a service, none of which begins before the last one has ended, with
    the service that they lead to and the time of their end. Once a cycle is not whole, all later
    ones begin after the shutdown. -/
inductive CycleLog (start : Service) : List LoopCycle → Service → Nat → Prop where
  | nil : CycleLog start [] start 0
  | whole {cycles : List LoopCycle} {s : Service} {time began ended : Nat}
      (earlier : CycleLog start cycles s time) (hwhole : ∀ c ∈ cycles, c.kind = .whole)
      (hbegan : time ≤ began) (hended : began ≤ ended) :
      CycleLog start (cycles ++ [⟨.whole, began, ended, s, s.fullCycle⟩]) s.fullCycle ended
  | cut {cycles : List LoopCycle} {s s' : Service} {time began ended : Nat} {cancel : Cancellation}
      {history : List Happening} {o : BatchOutcome String NodeOffset}
      (earlier : CycleLog start cycles s time) (hwhole : ∀ c ∈ cycles, c.kind = .whole)
      (hbegan : time ≤ began) (hended : began ≤ ended) (hsynced : s.Synced cancel history o s')
      (hcut : o.cancelled = true) :
      CycleLog start (cycles ++ [⟨.cut, began, ended, s, s'.maintain.2⟩]) s'.maintain.2 ended
  | late {cycles : List LoopCycle} {s : Service} {time began : Nat}
      (earlier : CycleLog start cycles s time) (hbegan : time ≤ began) :
      CycleLog start (cycles ++ [⟨.late, began, began, s, s.refusedCycle⟩]) s.refusedCycle began

namespace Service

variable {s s' : Service} {cancel : Cancellation} {history : List Happening}
  {o : BatchOutcome String NodeOffset}

theorem exists_synced_fullCycle (s : Service) :
    ∃ history o s', s.Synced .never history o s' ∧ s.fullCycle = s'.maintain.2 := by
  obtain ⟨history, o, hsynced⟩ := s.synced_syncRounds .never
  exact ⟨history, o, _, hsynced, rfl⟩

theorem CoversKnown.of_statuses (h : s.CoversKnown) (hstatuses : s'.memory.statuses = s.memory.statuses)
    (henv : s'.env = s.env) : s'.CoversKnown := by
  unfold CoversKnown known at h ⊢
  rw [hstatuses, henv]
  exact h

theorem coversKnown_beginCycle (s : Service) : s.beginCycle.CoversKnown := by
  intro id hid
  have hstatus := s.syncStatus_beginCycle id
  have hknown : decide (id ∈ s.known) = true := decide_eq_true hid
  rw [hknown] at hstatus
  exact Table.mem_keys_iff.mpr ⟨_, hstatus⟩

/-- A cycle with its maintenance, cut off or not. -/
theorem Synced.maintained (h : s.Synced cancel history o s') (hretains : s.Retains) :
    s'.maintain.2.Retains ∧ s'.maintain.2.CoversKnown ∧
      ∀ id, s'.maintain.2.attemptsOf id ≤ s.attemptsOf id + 1 := by
  have hretains' := h.retains hretains
  have hstatuses := hretains'.statuses_maintain
  refine ⟨hretains'.maintain, h.coversKnown.of_statuses hstatuses rfl, fun id => ?_⟩
  rw [attemptsOf_of_statuses hstatuses]
  exact h.attemptsOf_le id

theorem cancelled_fanOut_before {κ ν : Type} [Key κ] [DecidableEq κ] {env : Environment}
    {jobs : Pool κ ν} (hjobs : jobs ≠ []) (most : Nat) (m : Memory) :
    (fanOut env jobs most .before m).1.outcome.cancelled = true := by
  unfold fanOut
  rw [if_neg (mt List.isEmpty_iff.mp hjobs), if_pos rfl]

/-- A cycle that is told to stop before its start is cut off, unless there is nothing to be cut. -/
theorem cancelled_syncRounds_before {id : String} (hid : id ∈ s.known) :
    (s.syncRounds .before).1.1.cancelled = true := by
  have hjobs : offsetJobs s.known (Directory.ids s.env.directory.active) s.now ≠ [] := by
    intro hnone
    have hkeys : (offsetJobs s.known (Directory.ids s.env.directory.active) s.now).map Prod.fst =
        distinctIds s.known := keys_offsetJobs
    rw [hnone] at hkeys
    have hmem := mem_distinctIds.mpr hid
    rw [← hkeys] at hmem
    exact List.not_mem_nil hmem
  exact cancelled_fanOut_before hjobs ((Directory.ids s.env.directory.active).length + 1) _

/-- The service ends as after some whole cycles, or as after these and one that is cut off. -/
def EndsLike (start : Service) (cycles : Nat) (s : Service) : Prop :=
  s.memory.statuses = (fullCycle^[cycles] start).memory.statuses ∨
    ∃ cancel history report s', (fullCycle^[cycles] start).Cycle cancel history report s' ∧
      report.cancelled = true ∧ s.memory.statuses = s'.maintain.2.memory.statuses

theorem EndsLike.of_statuses {start : Service} {cycles : Nat} (h : EndsLike start cycles s)
    (hstatuses : s'.memory.statuses = s.memory.statuses) : EndsLike start cycles s' := by
  unfold EndsLike at h ⊢
  rw [hstatuses]
  exact h

end Service

namespace CycleLog

variable {start s : Service} {cycles : List LoopCycle} {time : Nat}

theorem env_eq (h : CycleLog start cycles s time) : s.env = start.env := by
  induction h with
  | nil => rfl
  | whole _ _ _ _ ih => exact ih
  | cut _ _ _ _ hsynced _ ih => exact hsynced.env_eq.trans ih
  | late _ _ ih => exact ih

/-- No cycle begins before the one before it has ended. -/
theorem pairwise (h : CycleLog start cycles s time) :
    cycles.Pairwise (fun c c' => c.ended ≤ c'.began) ∧ ∀ c ∈ cycles, c.ended ≤ time := by
  induction h with
  | nil => exact ⟨.nil, fun c hc => absurd hc List.not_mem_nil⟩
  | whole _ _ hbegan hended ih => exact pairwise_snoc ih.1 ih.2 hbegan hended
  | cut _ _ hbegan hended _ _ ih => exact pairwise_snoc ih.1 ih.2 hbegan hended
  | late _ hbegan ih => exact pairwise_snoc ih.1 ih.2 hbegan (Nat.le_refl _)

/-- After a cycle of any kind every known node has a status. -/
theorem retains (h : CycleLog start cycles s time) (hretains : start.Retains) :
    s.Retains ∧ (cycles ≠ [] → s.CoversKnown) := by
  induction h with
  | nil => exact ⟨hretains, fun hnone => absurd rfl hnone⟩
  | whole _ _ _ _ ih =>
    obtain ⟨_, _, s', hsynced, hfull⟩ := Service.exists_synced_fullCycle _
    obtain ⟨hretains', hcovers, _⟩ := hsynced.maintained ih.1
    rw [hfull]
    exact ⟨hretains', fun _ => hcovers⟩
  | cut _ _ _ _ hsynced _ ih =>
    obtain ⟨hretains', hcovers, _⟩ := hsynced.maintained ih.1
    exact ⟨hretains', fun _ => hcovers⟩
  | @late _ s _ _ _ _ ih =>
    refine ⟨ih.1.refusedCycle, fun _ => ?_⟩
    rw [s.refusedCycle_eq]
    exact s.coversKnown_beginCycle.of_statuses ih.1.beginCycle.statuses_maintain rfl

/-- As many outcomes are counted for a node as cycles were begun before the shutdown, at most. -/
theorem attemptsOf_le (h : CycleLog start cycles s time) (hretains : start.Retains) (id : String) :
    s.attemptsOf id ≤ start.attemptsOf id + begunIn cycles := by
  induction h with
  | nil => exact Nat.le_refl _
  | whole earlier _ _ _ ih =>
    obtain ⟨_, _, s', hsynced, hfull⟩ := Service.exists_synced_fullCycle _
    obtain ⟨_, _, hcounted⟩ := hsynced.maintained (earlier.retains hretains).1
    have hone := hcounted id
    rw [begunIn_append, hfull, if_neg (by simp)]
    omega
  | cut earlier _ _ _ hsynced _ ih =>
    obtain ⟨_, _, hcounted⟩ := hsynced.maintained (earlier.retains hretains).1
    have hone := hcounted id
    rw [begunIn_append, if_neg (by simp)]
    omega
  | late earlier _ ih =>
    have hcounters := (earlier.retains hretains).1.sameCounters_refusedCycle
    rw [begunIn_append, if_pos rfl, hcounters.attemptsOf_eq]
    exact ih

/-- Cycles that begin after the shutdown move no counter. -/
theorem sameCounters_late (h : CycleLog start cycles s time) (hretains : start.Retains) :
    ∀ c ∈ cycles, c.kind = .late → c.before.SameCounters c.after := by
  induction h with
  | nil => exact fun c hc => absurd hc List.not_mem_nil
  | whole _ _ _ _ ih | cut _ _ _ _ _ _ ih =>
    refine List.forall_mem_append.mpr ⟨ih, List.forall_mem_singleton.mpr ?_⟩
    intro hkind
    cases hkind
  | late earlier _ ih =>
    refine List.forall_mem_append.mpr ⟨ih, List.forall_mem_singleton.mpr ?_⟩
    exact fun _ => (earlier.retains hretains).1.sameCounters_refusedCycle

/-- Whole cycles are one cycle repeated. -/
theorem eq_iterate (h : CycleLog start cycles s time) (hwhole : ∀ c ∈ cycles, c.kind = .whole) :
    s = Service.fullCycle^[wholeIn cycles] start := by
  induction h with
  | nil => rfl
  | whole _ hearlier _ _ ih =>
    rw [wholeIn_append, if_pos rfl, Function.iterate_succ_apply', ← ih hearlier]
  | cut | late => exact absurd (hwhole _ List.mem_concat_self) (by simp)

/-- What the statuses come to. -/
theorem endsLike (h : CycleLog start cycles s time) (hretains : start.Retains) :
    Service.EndsLike start (wholeIn cycles) s := by
  induction h with
  | nil => exact .inl rfl
  | whole earlier hwhole hbegan hended _ =>
    have hall := (earlier.whole hwhole hbegan hended).eq_iterate (whole_append hwhole rfl)
    exact .inl (congrArg (·.memory.statuses) hall)
  | cut earlier hwhole _ _ hsynced hcut _ =>
    have hcycle := Service.cycle_iff.mpr ⟨_, hsynced, rfl⟩
    rw [earlier.eq_iterate hwhole] at hcycle
    rw [wholeIn_append, if_neg (by simp), Nat.add_zero]
    exact .inr ⟨_, _, _, _, hcycle, hcut, rfl⟩
  | @late _ s _ _ earlier _ ih =>
    rw [wholeIn_append, if_neg (by simp), Nat.add_zero]
    obtain ⟨hretains', hcovers⟩ := earlier.retains hretains
    by_cases hall : s.CoversKnown
    · exact ih.of_statuses (hretains'.statuses_refusedCycle hall)
    -- Only a first cycle comes upon nodes without a status.
    · obtain rfl := not_not.mp (mt hcovers hall)
      have hfirst : s = start := earlier.eq_iterate fun c hc => absurd hc List.not_mem_nil
      subst hfirst
      obtain ⟨id, hid, _⟩ : ∃ id ∈ s.known, id ∉ s.memory.statuses.keys := by
        simpa [Service.CoversKnown] using hall
      obtain ⟨history, hcycle⟩ := s.cycle_syncRounds .before
      exact .inr ⟨_, _, _, _, hcycle, Service.cancelled_syncRounds_before hid, rfl⟩

end CycleLog

/-! ## The steps of a loop -/

namespace Loop

variable {start : Service} {ending : Nat} {l l' : Loop}

/-- A loop that is in no cycle. -/
structure AtRest (start : Service) (l : Loop) : Prop where
  log : ∃ time ≤ l.time, CycleLog start l.cycles l.service time
  begun : l.begun = begunIn l.cycles

/-- A loop in a cycle, whose jobs have come to some point. -/
structure InCycle (start : Service) (l : Loop) (began : Nat) (before : Service)
    (jobs : Pool String NodeOffset) : Prop where
  log : ∃ time ≤ began, CycleLog start l.cycles before time
  whole : ∀ c ∈ l.cycles, c.kind = .whole
  began : began ≤ l.time
  begun : l.begun = begunIn l.cycles + 1
  run : ∃ history m, l.service = before.remember m ∧
    Pool.Interleaving before.env (before.cycleJobs, before.beginCycle.memory) history (jobs, m)

theorem begunIn_finish (l : Loop) (kind : CycleKind) (began : Nat) (before after : Service) :
    begunIn (l.finish kind began before after).cycles =
      begunIn l.cycles + if kind = .late then 0 else 1 :=
  begunIn_append _ _

/-- How far a loop over a service has come. -/
def Progress (start : Service) (l : Loop) : LoopStage → Prop
  | .cycling began before jobs => l.InCycle start began before jobs
  | _ => l.AtRest start

/-- What holds of a loop at every point. -/
structure Sound (start : Service) (ending : Nat) (l : Loop) : Prop where
  time : l.time ≤ ending
  shutdown : l.shutdown = true → l.time = ending
  running : l.shutdown = false → l.stage ≠ .stopped ∧ ∀ c ∈ l.cycles, c.kind = .whole
  progress : l.Progress start l.stage

theorem sound_start (s : Service) (ending : Nat) : (Loop.start s).Sound s ending where
  time := Nat.zero_le _
  shutdown h := by cases h
  running _ := ⟨LoopStage.noConfusion, fun _ hc => absurd hc List.not_mem_nil⟩
  progress := ⟨⟨0, Nat.le_refl 0, .nil⟩, rfl⟩

theorem Sound.atRest (h : l.Sound start ending) (hstage : l.stage = .waiting) : l.AtRest start := by
  have hprogress := h.progress
  rwa [hstage] at hprogress

theorem Sound.inCycle {began : Nat} {before : Service} {jobs : Pool String NodeOffset}
    (h : l.Sound start ending) (hstage : l.stage = .cycling began before jobs) :
    l.InCycle start began before jobs := by
  have hprogress := h.progress
  rwa [hstage] at hprogress

theorem Progress.later {time : Nat} {shutdown : Bool} {stage : LoopStage}
    (h : l.Progress start stage) (htime : l.time ≤ time) :
    { l with time := time, shutdown := shutdown }.Progress start stage := by
  have hrest (h : l.AtRest start) :
      { l with time := time, shutdown := shutdown }.AtRest start := by
    obtain ⟨ended, hended, hlog⟩ := h.log
    exact ⟨⟨ended, Nat.le_trans hended htime, hlog⟩, h.begun⟩
  cases stage with
  | waiting => exact hrest h
  | stopped => exact hrest h
  | cycling began before jobs => exact { h with began := Nat.le_trans h.began htime }

/-- Every step leads on from what holds. -/
theorem Sound.step (hkeyed : start.env.directory.Keyed) (h : l.Sound start ending)
    (hstep : Step ending l l') : l'.Sound start ending := by
  have hnotYet {P : Prop} (htrue : l.shutdown = true) (hfalse : l.shutdown = false) : P :=
    Bool.noConfusion (htrue.symm.trans hfalse)
  cases hstep with
  | pass htime hdue =>
    exact ⟨htime, fun hshutdown => absurd (h.shutdown hshutdown) (Nat.ne_of_lt htime), h.running,
      h.progress.later (Nat.le_succ _)⟩
  | shutdown htime =>
    exact ⟨h.time, fun _ => htime, fun hfalse => Bool.noConfusion hfalse,
      h.progress.later (Nat.le_refl _)⟩
  | tick hstage hdue hshutdown =>
    obtain ⟨hlog, hbegun⟩ := h.atRest hstage
    obtain ⟨_, hwhole⟩ := h.running hshutdown
    exact ⟨h.time, h.shutdown, fun _ => ⟨LoopStage.noConfusion, hwhole⟩,
      ⟨hlog, hwhole, Nat.le_refl _, congrArg (· + 1) hbegun, _, _, rfl, .rest _⟩⟩
  | job hstage hjob =>
    obtain ⟨hlog, hwhole, hbegan, hbegun, history, m, hservice, run⟩ := h.inCycle hstage
    have hmore := run.trans (.single _ _ _ m hjob)
    rw [hservice]
    exact ⟨h.time, h.shutdown, fun _ => ⟨LoopStage.noConfusion, hwhole⟩,
      ⟨hlog, hwhole, hbegan, hbegun, _, _, rfl, hmore⟩⟩
  | complete hstage hended =>
    obtain ⟨⟨time, htime, hlog⟩, hwhole, hbegan, hbegun, history, m, hservice, run⟩ :=
      h.inCycle hstage
    -- In whatever order the jobs ran, the service is that after the whole cycle.
    have hkeyed' := hlog.env_eq ▸ hkeyed
    rw [hservice, Service.endCycle_of_ended hkeyed' run hended]
    have hmore := hlog.whole hwhole htime hbegan
    exact ⟨h.time, h.shutdown, fun _ => ⟨LoopStage.noConfusion, whole_append hwhole rfl⟩,
      ⟨⟨l.time, Nat.le_refl _, hmore⟩, hbegun.trans (l.begunIn_finish .whole _ _ _).symm⟩⟩
  | @cut began before jobs hstage hshutdown hended =>
    obtain ⟨⟨time, htime, hlog⟩, hwhole, hbegan, hbegun, history, m, hservice, run⟩ :=
      h.inCycle hstage
    have hkeys : (jobs.map Prod.fst).Nodup := run.keys_eq ▸ nodup_keys_offsetJobs
    have hcut : (jobs.outcome (.after (l.time - began))).cancelled = true :=
      (Pool.cancelled_outcome_iff hkeys).mpr ⟨by simp, hended⟩
    have hsynced : before.Synced (.after (l.time - began)) history _ _ :=
      Service.synced_of_interleaving run (by simp) fun hnever => by cases hnever
    have hmore := hlog.cut hwhole htime hbegan hsynced hcut
    rw [hservice]
    exact ⟨h.time, h.shutdown, hnotYet hshutdown,
      ⟨⟨l.time, Nat.le_refl _, hmore⟩, hbegun.trans (l.begunIn_finish .cut _ _ _).symm⟩⟩
  | late hstage hdue hshutdown =>
    obtain ⟨⟨time, htime, hlog⟩, hbegun⟩ := h.atRest hstage
    exact ⟨h.time, h.shutdown, hnotYet hshutdown,
      ⟨⟨l.time, Nat.le_refl _, hlog.late htime⟩, hbegun.trans (l.begunIn_finish .late _ _ _).symm⟩⟩
  | stop hstage hshutdown =>
    obtain ⟨hlog, hbegun⟩ := h.atRest hstage
    exact ⟨h.time, h.shutdown, hnotYet hshutdown, ⟨hlog, hbegun⟩⟩

theorem Reached.sound {s : Service} (hkeyed : s.env.directory.Keyed) (h : Reached s ending l) :
    l.Sound s ending := by
  induction h with
  | refl => exact sound_start s ending
  | tail _ hstep ih => exact ih.step hkeyed hstep

/-- Either no cycle is on, or one is. -/
theorem Sound.rests_or_cycles (h : l.Sound start ending) :
    (l.AtRest start ∧ ∀ began before jobs, l.stage ≠ .cycling began before jobs) ∨
      ∃ began before jobs, l.InCycle start began before jobs ∧ l.stage = .cycling began before jobs := by
  have hprogress := h.progress
  cases hstage : l.stage with
  | waiting =>
    rw [hstage] at hprogress
    exact .inl ⟨hprogress, fun _ _ _ => LoopStage.noConfusion⟩
  | stopped =>
    rw [hstage] at hprogress
    exact .inl ⟨hprogress, fun _ _ _ => LoopStage.noConfusion⟩
  | cycling began before jobs =>
    rw [hstage] at hprogress
    exact .inr ⟨began, before, jobs, hprogress, rfl⟩

/-- The jobs of a cycle that is on have counted nothing for any node yet. -/
theorem InCycle.attemptsOf_eq {began : Nat} {before : Service} {jobs : Pool String NodeOffset}
    (h : l.InCycle start began before jobs) (id : String) :
    l.service.attemptsOf id = before.attemptsOf id := by
  obtain ⟨history, m, hservice, run⟩ := h.run
  have hbatch : Pool.Batch before.env before.cycleJobs (.after 0) before.beginCycle.memory history _ m :=
    .of_stop run (by simp) fun hnever => by cases hnever
  have hstatuses : m.statuses = before.beginCycle.memory.statuses := statuses_batch hbatch
  have hsame : (before.remember m).attemptsOf id = before.beginCycle.attemptsOf id :=
    Service.attemptsOf_of_statuses hstatuses id
  rw [hservice, hsame, before.sameCounters_beginCycle.attemptsOf_eq]

theorem Sound.attemptsOf_le (h : l.Sound start ending) (hretains : start.Retains) (id : String) :
    l.service.attemptsOf id ≤ start.attemptsOf id + l.begun := by
  rcases h.rests_or_cycles with ⟨hrest, _⟩ | ⟨_, _, _, hcycle, _⟩
  · obtain ⟨_, _, hlog⟩ := hrest.log
    rw [hrest.begun]
    exact hlog.attemptsOf_le hretains id
  · obtain ⟨_, _, hlog⟩ := hcycle.log
    rw [hcycle.begun, hcycle.attemptsOf_eq]
    exact Nat.le_succ_of_le (hlog.attemptsOf_le hretains id)

/-- The log of the cycles that are over. The cycle that is on began when all of them had ended. -/
theorem Sound.exists_log (h : l.Sound start ending) : ∃ s time, CycleLog start l.cycles s time ∧
    ∀ began before jobs, l.stage = .cycling began before jobs → time ≤ began := by
  rcases h.rests_or_cycles with ⟨hrest, hstage⟩ | ⟨began, before, jobs, hcycle, hstage⟩
  · obtain ⟨time, _, hlog⟩ := hrest.log
    exact ⟨_, time, hlog, fun _ _ _ hcycling => absurd hcycling (hstage _ _ _)⟩
  · obtain ⟨time, htime, hlog⟩ := hcycle.log
    refine ⟨_, time, hlog, fun _ _ _ hcycling => ?_⟩
    rw [hstage] at hcycling
    cases hcycling
    exact htime

/-! ## Cycles shorter than the period -/

variable {period : Nat}

/-- A loop that keeps pace with its timer: it is in the period that its last cycle began with. -/
structure OnTime (period : Nat) (l : Loop) : Prop where
  settings : Service.loopPeriod l.service.settings.sync = period * Service.nanosPerMilli
  due : l.due = l.begun * period * Service.nanosPerMilli
  timely : ∀ c ∈ l.cycles, c.kind ≠ .late
  reached : l.begun * period ≤ l.time + period
  within : (∀ began before jobs, l.stage ≠ .cycling began before jobs) → l.time ≤ l.begun * period
  punctual : ∀ began before jobs, l.stage = .cycling began before jobs →
    began + period = l.begun * period

theorem wakeTime_mul (n : Nat) : Service.wakeTime (n * Service.nanosPerMilli) = n := by
  simp only [Service.wakeTime, Service.nanosPerMilli]
  omega

theorem nextDue_of_le {period due began : Nat} (h : began * Service.nanosPerMilli ≤ due) :
    Service.nextDue period due began = due + period := by
  simp only [Service.nextDue]
  rw [if_neg (by omega)]

theorem onTime_start {s : Service}
    (hperiod : Service.loopPeriod s.settings.sync = period * Service.nanosPerMilli) :
    (Loop.start s).OnTime period where
  settings := hperiod
  due := by simp [Loop.start]
  timely := fun _ hc => absurd hc List.not_mem_nil
  reached := by simp [Loop.start]
  within := fun _ => Nat.zero_le _
  punctual := fun _ _ _ hcycling => by cases hcycling

theorem Step.cycles_subset (h : Step ending l l') : l.cycles ⊆ l'.cycles := by
  cases h with
  | complete | cut | late => exact List.subset_append_left _ _
  | _ => exact List.Subset.refl _

/-- A cycle that is shorter than the period ends before the timer is due again. -/
theorem OnTime.finish {kind : CycleKind} {began : Nat} {before after : Service}
    {jobs : Pool String NodeOffset} (h : l.OnTime period) (hkind : kind ≠ .late)
    (hstage : l.stage = .cycling began before jobs) (hsettings : after.settings = l.service.settings)
    (hshort : l.time < began + period) : (l.finish kind began before after).OnTime period where
  settings := by
    show Service.loopPeriod after.settings.sync = _
    rw [hsettings, h.settings]
  due := h.due
  timely := List.forall_mem_append.mpr ⟨h.timely, List.forall_mem_singleton.mpr hkind⟩
  reached := h.reached
  within := fun _ => by
    rw [h.punctual began before jobs hstage] at hshort
    exact Nat.le_of_lt hshort
  punctual := fun _ _ _ hcycling => by cases hcycling

theorem OnTime.step (hsound : l.Sound start ending) (hend : ¬ period ∣ ending) (h : l.OnTime period)
    (hstep : Step ending l l') (hshort : ∀ c ∈ l'.cycles, c.ended < c.began + period) :
    l'.OnTime period := by
  have hwake : Service.wakeTime l.due = l.begun * period := by rw [h.due, wakeTime_mul]
  -- The timer is due just now in a loop that waits for it no longer.
  have hnow (hstage : l.stage = .waiting) (hdue : Service.wakeTime l.due ≤ l.time) :
      l.time = l.begun * period := by
    have hwithin := h.within fun _ _ _ hcycling => by rw [hstage] at hcycling; cases hcycling
    omega
  cases hstep with
  | pass htime hdue =>
    refine { h with reached := ?_, within := fun hstage => ?_ }
    · show l.begun * period ≤ l.time + 1 + period
      have hreached := h.reached
      omega
    · show l.time + 1 ≤ l.begun * period
      cases hcase : l.stage with
      | waiting =>
        rw [← hwake]
        exact hdue hcase
      | stopped =>
        have hshutdown : l.shutdown = true :=
          Bool.of_not_eq_false fun hfalse => (hsound.running hfalse).1 hcase
        exact absurd (hsound.shutdown hshutdown) (Nat.ne_of_lt htime)
      | cycling began before jobs => exact absurd hcase (hstage _ _ _)
  | shutdown htime => exact { h with }
  | tick hstage hdue hshutdown =>
    have htime := hnow hstage hdue
    have hnext : (l.begun + 1) * period = l.time + period := by rw [Nat.succ_mul, htime]
    exact
      { settings := h.settings
        due := by
          show Service.nextDue (Service.loopPeriod l.service.settings.sync) l.due l.time = _
          rw [nextDue_of_le (by rw [h.due, htime]), h.due, h.settings, hnext, htime, Nat.add_mul]
        timely := h.timely
        reached := Nat.le_of_eq hnext
        within := fun hresting => absurd rfl (hresting _ _ _)
        punctual := fun _ _ _ hcycling => by
          cases hcycling
          exact hnext.symm }
  | job hstage hjob =>
    exact
      { settings := h.settings
        due := h.due
        timely := h.timely
        reached := h.reached
        within := fun hresting => absurd rfl (hresting _ _ _)
        punctual := fun _ _ _ hcycling => by
          cases hcycling
          exact h.punctual _ _ _ hstage }
  | complete hstage hended =>
    have hlast := hshort _ List.mem_concat_self
    exact h.finish (by simp) hstage rfl hlast
  | cut hstage hshutdown hended =>
    have hlast := hshort _ List.mem_concat_self
    exact h.finish (by simp) hstage rfl hlast
  | late hstage hdue hshutdown =>
    refine absurd ⟨l.begun, ?_⟩ hend
    rw [← hsound.shutdown hshutdown, hnow hstage hdue, Nat.mul_comm]
  | stop hstage hshutdown =>
    have hwithin := h.within fun _ _ _ hcycling => by rw [hstage] at hcycling; cases hcycling
    exact { h with
      within := fun _ => hwithin
      punctual := fun _ _ _ hcycling => by cases hcycling }

/-- A loop keeps pace as long as its cycles are shorter than the period. -/
theorem Reached.onTime {s : Service} (hkeyed : s.env.directory.Keyed)
    (hperiod : Service.loopPeriod s.settings.sync = period * Service.nanosPerMilli)
    (hend : ¬ period ∣ ending) (h : Reached s ending l)
    (hshort : ∀ c ∈ l.cycles, c.ended < c.began + period) : l.OnTime period := by
  induction h with
  | refl => exact onTime_start hperiod
  | tail hreached hstep ih =>
    have hearlier := ih fun c hc => hshort c (hstep.cycles_subset hc)
    exact hearlier.step (Reached.sound hkeyed hreached) hend hstep hshort

/-- A loop that has stopped began a cycle at the start and one at each whole period. -/
theorem OnTime.begun_eq (h : l.OnTime period) (hsound : l.Sound start ending)
    (hend : ¬ period ∣ ending) (hstopped : l.stage = .stopped) : l.begun = ending / period + 1 := by
  have hshutdown : l.shutdown = true :=
    Bool.of_not_eq_false fun hfalse => (hsound.running hfalse).1 hstopped
  have htime := hsound.shutdown hshutdown
  have hreached := h.reached
  have hwithin := h.within fun _ _ _ hcycling => by rw [hstopped] at hcycling; cases hcycling
  rw [htime] at hreached hwithin
  have hbefore : ending < l.begun * period :=
    Nat.lt_of_le_of_ne hwithin fun heq => hend ⟨l.begun, by rw [heq, Nat.mul_comm]⟩
  obtain ⟨n, hn⟩ : ∃ n, l.begun = n + 1 := Nat.exists_eq_succ_of_ne_zero fun hnone => by
    rw [hnone, Nat.zero_mul] at hbefore
    exact Nat.not_lt_zero _ hbefore
  rw [hn, Nat.succ_mul] at hreached
  rw [hn] at hbefore
  rw [hn, Nat.div_eq_of_lt_le (Nat.le_of_add_le_add_right hreached) hbefore]

/-! ## Every loop -/

/-- What can be said of a loop over a service wherever it has come to. -/
structure Accounted (s : Service) (ending : Nat) (l : Loop) : Prop where
  /-- No node has more outcomes counted for it than cycles were begun before the shutdown. -/
  counted : ∀ id, l.service.attemptsOf id ≤ s.attemptsOf id + l.begun
  /-- Cycles do not overlap, and the one that is on began when all others had ended. -/
  disjoint : l.cycles.Pairwise fun c c' => c.ended ≤ c'.began
  current : ∀ began before jobs, l.stage = .cycling began before jobs → ∀ c ∈ l.cycles, c.ended ≤ began
  /-- A cycle that begins after the shutdown moves no counter. -/
  late : ∀ c ∈ l.cycles, c.kind = .late → c.before.SameCounters c.after
  /-- A loop that has stopped leaves the statuses of as many runs of the cycle with maintenance as
      there were whole cycles, or of these and one cycle that is cut off. -/
  statuses : l.stage = .stopped → Service.EndsLike s (wholeIn l.cycles) l.service
  /-- Let the period be the interval, or a millisecond if that is longer, in whole milliseconds. If
      its cycles were shorter than the period, and it was told to stop between two periods, then it
      began one cycle at the start and one at each whole period, and none afterwards. -/
  begun : ∀ period, max s.settings.sync.interval.nanos 1000000 = period * 1000000 →
    (∀ c ∈ l.cycles, c.ended < c.began + period) → ¬ period ∣ ending → l.stage = .stopped →
    l.begun = ending / period + 1 ∧ ∀ c ∈ l.cycles, c.kind ≠ .late

theorem Reached.accounted {s : Service} (hkeyed : s.env.directory.Keyed) (hretains : s.Retains)
    (h : Reached s ending l) : l.Accounted s ending := by
  have hsound := h.sound hkeyed
  obtain ⟨_, time, hlog, hlater⟩ := hsound.exists_log
  refine
    { counted := hsound.attemptsOf_le hretains
      disjoint := hlog.pairwise.1
      current := ?_
      late := hlog.sameCounters_late hretains
      statuses := ?_
      begun := ?_ }
  · intro began before jobs hstage c hc
    exact Nat.le_trans (hlog.pairwise.2 c hc) (hlater _ _ _ hstage)
  · intro hstopped
    rcases hsound.rests_or_cycles with ⟨hrest, _⟩ | ⟨_, _, _, _, hcycling⟩
    · obtain ⟨_, _, hlog⟩ := hrest.log
      exact hlog.endsLike hretains
    · rw [hstopped] at hcycling
      cases hcycling
  · intro period hperiod hshort hend hstopped
    have honTime := h.onTime hkeyed hperiod hend hshort
    exact ⟨honTime.begun_eq hsound hend hstopped, honTime.timely⟩

end Loop

/-- A background loop is started on any service whose clock has stood still since it was opened, and
    told to stop at any time. It can run to its stop as the service runs it, with no cycle longer than
    its lookups. And whatever order its jobs run in, whatever time they take, and whichever of the
    timer and the shutdown it attends to first, it comes to no more than the cycle with maintenance
    repeated, and at most one cycle that is cut off. -/
theorem background_loop_repeats_cycle {settings : Settings} {nodes : List Node}
    {directory : Directory} {access : Access} {now : Instant} {metrics : Option Metrics} {s : Service}
    (hdirectory : Directory.ofList nodes = .ok directory) {requests : List Request}
    {history : List Happening} {answers : List Answer}
    (hrun : Service.Run Service.sameTime
      ⟨⟨settings, directory, access, now⟩, .initial settings metrics⟩ requests history answers s)
    (ending : Nat) :
    (∃ l, Loop.Reached s ending l ∧ l.stage = .stopped ∧ l.service = s.runLoop ending ∧
      ∀ c ∈ l.cycles, c.ended ≤ c.began + s.longestCycle) ∧
    ∀ l, Loop.Reached s ending l → l.Accounted s ending := by
  have hkeyed : s.env.directory.Keyed := hrun.keyed (Directory.Keyed.ofList hdirectory)
  have hretains : s.Retains := hrun.retains (Service.retains_of_no_status rfl)
  exact ⟨Loop.exists_stopped s ending, fun _ hreached => hreached.accounted hkeyed hretains⟩

open TwoNodes in
/-- The loop over two nodes goes on for a minute and a second. It begins two cycles, and counts two
    outcomes for each node. -/
theorem background_loop_repeats_cycle_two_nodes : ∃ l,
    Loop.Reached (service 0 ground_ok) 61000 l ∧ l.stage = .stopped ∧
    l.service = (service 0 ground_ok).runLoop 61000 ∧
    Service.EndsLike (service 0 ground_ok) (wholeIn l.cycles) l.service ∧
    l.begun = 2 ∧ l.service.attemptsOf "a" = 2 ∧ l.service.attemptsOf "b" = 2 := by
  have hrun : Service.Run Service.sameTime (service 0 ground_ok) [] [] [] _ := .nil
  obtain ⟨⟨l, hreached, hstopped, hservice, hshort⟩, hall⟩ :=
    background_loop_repeats_cycle ofList_eq hrun 61000
  have haccounted := hall l hreached
  have hperiod : max (service 0 ground_ok).settings.sync.interval.nanos 1000000 = 60000 * 1000000 := by
    decide +kernel
  -- Lookups take no time here.
  have hwithin (c : LoopCycle) (hc : c ∈ l.cycles) : c.ended < c.began + 60000 :=
    Nat.lt_of_le_of_lt (hshort c hc) (Nat.add_lt_add_left (by decide +kernel) _)
  obtain ⟨hbegun, _⟩ := haccounted.begun 60000 hperiod hwithin (by decide) hstopped
  refine ⟨l, hreached, hstopped, hservice, haccounted.statuses hstopped, hbegun, ?_, ?_⟩
  · rw [hservice]
    decide +kernel
  · rw [hservice]
    decide +kernel

end LightCone
