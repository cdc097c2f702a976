import LightCone.Proofs.Run.Requests

/-!
Runs of a service as sequences of single moves.

Whatever a request does, it does in moves that change one thing each: an evaluated delay, a
kept record, a counted event, a sweep. What every move keeps, every run keeps. This file

1. lists the moves (`Service.Move`); none of them touches the clock or the settings;
2. takes each way of serving a request apart into moves, or a change of the clock
   (`Serves.moves`);
3. concludes the rule by which invariants of runs are proved (`Run.invariant`).
-/
namespace LightCone.Service

/-- A single change of a service other than that of its clock, with what happens in it. -/
inductive Move (s : Service) : List Happening → Service → Prop where
  | evaluate (a b : Node) :
      Move s [s.memory.evaluation s.env a b] (s.remember (s.memory.evaluate s.env a b).2)
  | keepOffset (record : NodeOffset) :
      Move s [.kept record] (s.remember (s.memory.keepOffset s.env record))
  | deriveTiming (ids : List String) (validators : Nat) (worst : Duration) :
      Move s [.timed ids (.derive worst validators (fingerprint ids) s.now s.settings.consensus)]
        (s.keepTiming (.derive worst validators (fingerprint ids) s.now s.settings.consensus))
  | count (e : Event) : Move s [] (s.count e)
  | sweepDelays : Move s [] s.sweepDelays.2
  | sweepTimings : Move s [] s.sweepTimings.2
  | sweepOffsets : Move s [] s.sweepOffsets.2
  | clearCaches : Move s [.cleared] s.clearCaches.2
  | statuses (statuses : Table String SyncStatus) :
      Move s [] (s.remember { s.memory with statuses := statuses })
  | directory (directory : Directory) : Move s [] (s.setDirectory directory)

/-- Moves one after another. -/
inductive Moves : Service → List Happening → Service → Prop where
  | refl (s : Service) : Moves s [] s
  | head {s s' s'' : Service} {first later : List Happening} (hmove : s.Move first s')
      (hlater : Moves s' later s'') : Moves s (first ++ later) s''

theorem Moves.trans {s s' s'' : Service} {first later : List Happening}
    (h₁ : Moves s first s') (h₂ : Moves s' later s'') : Moves s (first ++ later) s'' := by
  induction h₁ with
  | refl => exact h₂
  | head hmove _ ih =>
    rw [List.append_assoc]
    exact .head hmove (ih h₂)

theorem Move.moves {s s' : Service} {history : List Happening} (h : s.Move history s') :
    Moves s history s' := by
  have hone := Moves.head h (.refl s')
  rwa [List.append_nil] at hone

/-- Moves in which nothing happens, followed by others. -/
theorem Moves.after {s s' s'' : Service} {history : List Happening}
    (h₁ : Moves s [] s') (h₂ : Moves s' history s'') : Moves s history s'' := h₁.trans h₂

/-- Moves followed by others in which nothing happens. -/
theorem Moves.andThen {s s' s'' : Service} {history : List Happening}
    (h₁ : Moves s history s') (h₂ : Moves s' [] s'') : Moves s history s'' := by
  have hboth := h₁.trans h₂
  rwa [List.append_nil] at hboth

/-! ## Jobs and batches -/

section Jobs

variable {α κ ν : Type}

theorem moves_trace (s : Service) (limit : Option Nat) (job : Job α) :
    Moves s (job.trace s.env limit s.memory).1
      (s.remember (job.trace s.env limit s.memory).2) := by
  induction job generalizing s limit with
  | done value =>
    cases limit <;> exact .refl s
  | lookup id next ih =>
    match limit with
    | none => exact ih _ s none
    | some 0 => exact .refl s
    | some (n + 1) => exact ih _ s (some n)
  | delay a b next ih =>
    simp only [Job.trace]
    exact .head (.evaluate a b) (ih _ (s.remember (s.memory.evaluate s.env a b).2) limit)
  | keep record next ih =>
    simp only [Job.trace]
    exact .head (.keepOffset record) (ih (s.remember (s.memory.keepOffset s.env record)) limit)

theorem moves_perform (s : Service) (job : Job α) :
    Moves s (s.jobHistory none job) (s.perform job).2 := by
  have hmoves := moves_trace s none job
  rw [← Job.run_snd] at hmoves
  exact hmoves

theorem moves_performWithin (s : Service) (deadline : Duration) (job : Job α) :
    Moves s (s.jobHistory (s.env.access.lookupsBy deadline) job)
      (s.performWithin deadline job).2 := by
  have hmoves := moves_trace s (s.env.access.lookupsBy deadline) job
  rw [← Job.runWithin_snd] at hmoves
  exact hmoves

theorem moves_countEnded (s : Service) (job : Job (Except Fault ν)) :
    Moves s [] (s.remember (Pool.countEnded job s.memory)) := by
  unfold Pool.countEnded
  split
  · exact (Move.count (.batchItem true)).moves
  · exact (Move.count (.batchItem false)).moves
  · exact .refl s

theorem moves_settle {s : Service} (job : Job α) :
    Moves s (job.trace s.env (some 0) s.memory).1 (s.remember (job.settle s.env s.memory).2) := by
  have hmoves := moves_trace s (some 0) job
  rwa [← Job.settle_snd] at hmoves

theorem moves_resume (s : Service) (job : Job α) :
    Moves s (job.resumed s.env s.memory) (s.remember (job.resume s.env s.memory).2) := by
  cases job with
  | lookup id next => exact moves_settle (next (s.env.answer id))
  | done value => exact moves_settle (.done value)
  | delay a b next => exact moves_settle (.delay a b next)
  | keep record next => exact moves_settle (.keep record next)

theorem moves_advance (s : Service) (job : Job (Except Fault ν)) :
    Moves s (job.resumed s.env s.memory) (s.remember (Pool.advance s.env job s.memory).2) :=
  (moves_resume s job).andThen
    (moves_countEnded (s.remember (job.resume s.env s.memory).2) (job.resume s.env s.memory).1)

theorem moves_interleaving {s : Service} {x y : Pool κ ν × Memory} {history : List Happening}
    (h : Pool.Interleaving s.env x history y) : Moves (s.remember x.2) history (s.remember y.2) := by
  induction h with
  | rest x => exact .refl _
  | @step _ _ _ job m _ _ _ _ ih => exact (moves_advance (s.remember m) job).trans ih

theorem moves_batch [Key κ] [DecidableEq κ] {s : Service} {jobs : Pool κ ν}
    {cancel : Cancellation} {history : List Happening} {o : BatchOutcome κ ν} {m : Memory}
    (h : Pool.Batch s.env jobs cancel s.memory history o m) : Moves s history (s.remember m) := by
  cases h with
  | idle => exact .refl s
  | refused => exact .refl s
  | ran _ _ run => exact moves_interleaving run

end Jobs

/-! ## Synchronization -/

theorem moves_foldl {β : Type} {step : Memory → β → Memory}
    (hstep : ∀ (s : Service) x, Moves s [] (s.remember (step s.memory x))) (l : List β)
    (s : Service) : Moves s [] (s.remember (l.foldl step s.memory)) := by
  induction l generalizing s with
  | nil => exact .refl s
  | cons x l ih => exact (hstep s x).after (ih (s.remember (step s.memory x)))

theorem moves_recordSuccess (s : Service) (id : String) (offset : Duration) (now : Instant)
    (history : Nat) : Moves s [] (s.remember (s.memory.recordSuccess id offset now history)) :=
  (Move.count (.sync true)).moves.after (Move.statuses _).moves

theorem moves_recordFailure (s : Service) (id : String) (fault : Fault) (now : Instant) :
    Moves s [] (s.remember (s.memory.recordFailure id fault now)) :=
  (Move.count (.sync false)).moves.after (Move.statuses _).moves

theorem moves_recordOutcome (s : Service) (o : BatchOutcome String NodeOffset) (now : Instant)
    (history : Nat) : Moves s [] (s.remember (s.memory.recordOutcome o now history)) :=
  (moves_foldl (fun s e => moves_recordSuccess s e.1 e.2.offset now history) _ s).after
    (moves_foldl (fun s e => moves_recordFailure s e.1 e.2 now) o.failures.entries (s.remember _))

theorem moves_maintain (s : Service) : Moves s [] s.maintain.2 :=
  (Move.statuses _).moves.after (Move.sweepOffsets.moves.after
    (Move.sweepDelays.moves.after Move.sweepTimings.moves))

theorem moves_cycle {s s' : Service} {cancel : Cancellation} {history : List Happening}
    {report : SyncReport} (h : s.Cycle cancel history report s') : Moves s history s' := by
  cases h with
  | @mk o m batch =>
    have hpending : Moves s [] (s.remember
        (s.memory.addPending (Directory.ids s.env.directory.all) s.now)) :=
      (Move.statuses _).moves
    exact hpending.after ((moves_batch batch).andThen (moves_recordOutcome (s.remember m) o _ _))

theorem moves_cycles {s s' : Service} {history : List Happening} (h : s.Cycles history s') :
    Moves s history s' := by
  induction h with
  | rest s => exact .refl s
  | cycle hcycle _ ih => exact (moves_cycle hcycle).trans ((moves_maintain _).after ih)

/-! ## Requests without a batch -/

theorem moves_storedOffset (s : Service) (id : String) : Moves s [] (s.storedOffset id).2 := by
  unfold storedOffset
  split
  · exact (Move.count _).moves
  · exact (Move.count _).moves
  · exact (Move.count _).moves

theorem moves_currentOffset (s : Service) (id : String) :
    Moves s (s.history (.currentOffset id)) (s.currentOffset id).2 := by
  have hstored := moves_storedOffset s id
  rcases hanswer : s.storedOffset id with ⟨record | fault, s'⟩
  all_goals
    rw [hanswer] at hstored
    simp only [history, currentOffset, hanswer]
  · exact hstored.after (moves_perform _ _)
  · exact hstored

/-- What is derived for a set goes into the store under the name of the set. -/
theorem moves_consensusTiming (s : Service) (ids : List String) :
    Moves s (s.timingHistory ids) (s.consensusTiming ids).2 := by
  cases hget : s.memory.timings.get? (fingerprint ids) s.now with
  | some timing =>
    rw [consensusTiming_of_hit hget]
    simp only [timingHistory, hget]
    exact (Move.count _).moves
  | none =>
    have hmoves := moves_perform (s.count (.cacheMiss .timing)) (worstOfSetJob (distinctIds ids))
    simp only [timingHistory, hget]
    -- The miss is counted before anything is looked up.
    refine (Move.count (.cacheMiss .timing)).moves.after ?_
    rcases hjob : (s.count (.cacheMiss .timing)).perform (worstOfSetJob (distinctIds ids))
      with ⟨fault | ⟨validators, worst⟩, s'⟩
    · rw [hjob] at hmoves
      rw [consensusTiming_of_fault hget hjob]
      exact hmoves.trans (.refl s')
    · rw [hjob] at hmoves
      rw [consensusTiming_of_worst hget hjob]
      exact hmoves.trans (Move.deriveTiming ids validators worst).moves

/-- A verdict looks a node up and changes no store. -/
theorem trace_verdictJob (s : Service) (limit : Option Nat) (subject : Option Subject)
    (claimed : Instant) (position : Position) (reference : String) (m : Memory) :
    (s.verdictJob subject claimed position reference).trace s.env limit m = ([], m) := by
  unfold verdictJob
  match limit with
  | none => simp only [Job.trace]; split <;> rfl
  | some 0 => rfl
  | some (n + 1) => simp only [Job.trace]; split <;> rfl

theorem moves_validate (s : Service) (subject : Option Subject) (claimed : Instant)
    (position : Position) (reference : String) :
    Moves s [] (s.validate subject claimed position reference).2 := by
  have hmoves := moves_perform s (s.verdictJob subject claimed position reference)
  rw [jobHistory, trace_verdictJob] at hmoves
  exact hmoves.after (Move.count _).moves

theorem moves_validateWithin (s : Service) (deadline : Duration) (claimed : Instant)
    (position : Position) (reference : String) :
    Moves s [] (s.validateWithin deadline claimed position reference).2 := by
  have hmoves := moves_performWithin s deadline (s.verdictJob none claimed position reference)
  rw [jobHistory, trace_verdictJob] at hmoves
  unfold validateWithin
  rcases hjob : s.performWithin deadline (s.verdictJob none claimed position reference)
    with ⟨_ | verdict, s'⟩
  all_goals
    rw [hjob] at hmoves
    exact hmoves.after (Move.count _).moves

/-! ## Every request -/

/-- However a request is served, it sets the clock or makes moves. -/
theorem Serves.moves {s s' : Service} {r : Request} {history : List Happening} {answer : Answer}
    (h : s.Serves r history answer s') :
    (history = [] ∧ ∃ now, s' = s.setNow now) ∨ Moves s history s' := by
  cases h with
  | batchDelays batch => exact .inr (moves_batch batch)
  | delayMatrix batch => exact .inr (moves_batch batch)
  | maxDelay batch => exact .inr (moves_batch batch)
  | batchOffsets batch => exact .inr (moves_batch batch)
  | sync hcycle => exact .inr (moves_cycle hcycle)
  | runLoop hcycles => exact .inr (moves_cycles hcycles)
  | alone h =>
    cases r with
    | advance span => exact .inl ⟨rfl, _, rfl⟩
    | setNow now => exact .inl ⟨rfl, now, rfl⟩
    | upsert node =>
      right
      simp only [Service.history, serve, upsert]
      cases s.env.directory.upsert node with
      | ok result => exact (Move.directory result.2).moves
      | error fault => exact .refl s
    | remove id => exact .inr (Move.directory _).moves
    | setActive id active seen => exact .inr (Move.directory _).moves
    | node id => exact .inr (.refl s)
    | delay source target => exact .inr (moves_perform s _)
    | delayWithin deadline source target =>
      have hmoves := moves_performWithin s deadline (delayJob source target)
      right
      simp only [Service.history, serve, answered, delayWithin]
      rcases hjob : s.performWithin deadline (delayJob source target) with ⟨_ | answer, s'⟩
      all_goals
        rw [hjob] at hmoves
        exact hmoves
    | validate subject claimed position reference =>
      exact .inr (moves_validate s subject claimed position reference)
    | validateWithin deadline claimed position reference =>
      exact .inr (moves_validateWithin s deadline claimed position reference)
    | consensusTiming ids => exact .inr (moves_consensusTiming s ids)
    | timeouts ids => exact .inr (moves_consensusTiming s ids)
    | votingWindow ids => exact .inr (moves_consensusTiming s ids)
    | blockInterval ids load => exact .inr (moves_consensusTiming s ids)
    | faultTolerance ids => exact .inr (.refl s)
    | measureOffset id references => exact .inr (moves_perform s _)
    | storedOffset id => exact .inr (moves_storedOffset s id)
    | currentOffset id => exact .inr (moves_currentOffset s id)
    | knownOffsets => exact .inr (.refl s)
    | globalOffset => exact .inr (.refl s)
    | adjust timestamp id => exact .inr (moves_storedOffset s id)
    | syncStatus id => exact .inr (.refl s)
    | syncStatuses => exact .inr (.refl s)
    | maintain => exact .inr (moves_maintain s)
    | sweepDelays => exact .inr Move.sweepDelays.moves
    | sweepTimings => exact .inr Move.sweepTimings.moves
    | sweepOffsets => exact .inr Move.sweepOffsets.moves
    | cleanupStatuses => exact .inr (Move.statuses _).moves
    | clearCaches => exact .inr Move.clearCaches.moves
    | batchDelays nodes cancel => exact absurd h Bool.noConfusion
    | delayMatrix => exact absurd h Bool.noConfusion
    | maxDelay => exact absurd h Bool.noConfusion
    | batchOffsets ids references cancel => exact absurd h Bool.noConfusion
    | sync cancel => exact absurd h Bool.noConfusion
    | runLoop ms => exact absurd h Bool.noConfusion

theorem Moves.settings_eq {s s' : Service} {history : List Happening} (h : Moves s history s') :
    s'.settings = s.settings := by
  induction h with
  | refl => rfl
  | head hmove _ ih =>
    refine ih.trans ?_
    cases hmove <;> rfl

/-- No request changes the settings. -/
theorem Serves.settings_eq {s s' : Service} {r : Request} {history : List Happening}
    {answer : Answer} (h : s.Serves r history answer s') : s'.settings = s.settings := by
  rcases h.moves with ⟨_, now, rfl⟩ | hmoves
  · rfl
  · exact hmoves.settings_eq

theorem Run.settings_eq {clock : Instant → Instant → Prop} {start s : Service}
    {requests : List Request} {history : List Happening} {answers : List Answer}
    (hrun : Run clock start requests history answers s) : s.settings = start.settings := by
  induction hrun with
  | nil => rfl
  | snoc _ serves _ ih => exact serves.settings_eq.trans ih

theorem Moves.invariant {P : List Happening → Service → Prop}
    (hmove : ∀ {history s later s'}, P history s → s.Move later s' → P (history ++ later) s')
    {s s' : Service} {history later : List Happening} (h : Moves s later s')
    (hstart : P history s) : P (history ++ later) s' := by
  induction h generalizing history with
  | refl s => rwa [List.append_nil]
  | head hfirst _ ih =>
    rw [← List.append_assoc]
    exact ih (hmove hstart hfirst)

/-- What holds at the start and is kept by every move and by the clock holds after every run. -/
theorem Run.invariant {clock : Instant → Instant → Prop} {P : List Happening → Service → Prop}
    (hmove : ∀ {history s later s'}, P history s → s.Move later s' → P (history ++ later) s')
    (hclock : ∀ {history s now}, P history s → clock s.now now → P history (s.setNow now))
    {start s : Service} {requests : List Request} {history : List Happening}
    {answers : List Answer} (hrun : Run clock start requests history answers s)
    (hstart : P [] start) : P history s := by
  induction hrun with
  | nil => exact hstart
  | snoc _ serves hnext ih =>
    -- Only a request that sets the clock needs the rule for it.
    rcases serves.moves with ⟨rfl, now, rfl⟩ | hmoves
    · rw [List.append_nil]
      exact hclock ih hnext
    · exact hmoves.invariant hmove ih

end LightCone.Service
