import LightCone.Proofs.Run.Moves
import LightCone.Proofs.WorstDelay

/-!
What happens while a request is served, and what cannot happen.

A move may evaluate any two nodes and keep any record. What a request really does is settled by
its jobs: a job evaluates nodes that it has looked up or was given, and keeps records that it
has just calculated. This file

1. carries a condition on evaluations, on records and on the result through a job
   (`Job.Meets`), and from jobs to their traces, interleavings and batches;
2. says what the job of each request does (`meets_delayJob`, `meets_offsetJob`, …);
3. concludes what may stand in the history of a request (`Serves.happens`), and gives the rule
   for invariants of runs that rest on the times of kept records (`Run.invariant_of_kept`).
-/
namespace LightCone

/-! ## Conditions on jobs -/

/-- What a job may do: which nodes it may evaluate and which records it may keep. -/
structure Effects where
  evaluates : Node → Node → Prop
  keeps : NodeOffset → Prop

/-- A happening that jobs with certain effects may bring about at a time. -/
def Happening.Allowed (now : Instant) (effects : Effects) : Happening → Prop
  | evaluated a b time _ => time = now ∧ effects.evaluates a b
  | kept record => effects.keeps record
  | timed .. => False
  | cleared => False

/-- A job has certain effects only, whatever delays it is told, and its result meets a
    condition. -/
def Job.Meets {α : Type} (env : Environment) (effects : Effects) (post : α → Prop) : Job α → Prop
  | .done value => post value
  | .lookup id next => (next (env.answer id)).Meets env effects post
  | .delay a b next => effects.evaluates a b ∧ ∀ answer, (next answer).Meets env effects post
  | .keep record next => effects.keeps record ∧ next.Meets env effects post

namespace Job.Meets

variable {α β : Type} {env : Environment} {effects : Effects} {post : α → Prop} {job : Job α}

theorem bind {post' : β → Prop} {f : α → Job β} (h : job.Meets env effects post)
    (hf : ∀ value, post value → (f value).Meets env effects post') :
    (job.bind f).Meets env effects post' := by
  induction job with
  | done value => exact hf value h
  | lookup id next ih => exact ih _ h
  | delay a b next ih => exact ⟨h.1, fun answer => ih answer (h.2 answer)⟩
  | keep record next ih => exact ⟨h.1, ih h.2⟩

/-- The result of a job that has run meets its condition. -/
theorem run (h : job.Meets env effects post) (m : Memory) : post (job.run env m).1 := by
  induction job generalizing m with
  | done value => exact h
  | lookup id next ih => exact ih _ h m
  | delay a b next ih => exact ih _ (h.2 _) _
  | keep record next ih => exact ih h.2 _

theorem trace (h : job.Meets env effects post) (limit : Option Nat) (m : Memory) :
    ∀ e ∈ (job.trace env limit m).1, e.Allowed env.now effects := by
  induction job generalizing limit m with
  | done value =>
    intro e he
    cases limit <;> exact absurd he List.not_mem_nil
  | lookup id next ih =>
    match limit with
    | none => exact ih _ h none m
    | some 0 =>
      intro e he
      exact absurd he List.not_mem_nil
    | some (n + 1) => exact ih _ h (some n) m
  | delay a b next ih =>
    simp only [Job.trace, List.forall_mem_cons]
    exact ⟨⟨rfl, h.1⟩, ih _ (h.2 _) limit _⟩
  | keep record next ih =>
    simp only [Job.trace, List.forall_mem_cons]
    exact ⟨h.1, ih h.2 limit _⟩

theorem settle (h : job.Meets env effects post) (m : Memory) :
    (job.settle env m).1.Meets env effects post := by
  induction job generalizing m with
  | done value => exact h
  | lookup id next ih => exact h
  | delay a b next ih => exact ih _ (h.2 _) _
  | keep record next ih => exact ih h.2 _

theorem resume (h : job.Meets env effects post) (m : Memory) :
    (job.resume env m).1.Meets env effects post := by
  cases job with
  | lookup id next =>
    have hnext : (next (env.answer id)).Meets env effects post := h
    exact hnext.settle m
  | done value => exact settle h m
  | delay a b next => exact settle h m
  | keep record next => exact settle h m

theorem resumed (h : job.Meets env effects post) (m : Memory) :
    ∀ e ∈ job.resumed env m, e.Allowed env.now effects := by
  cases job with
  | lookup id next =>
    have hnext : (next (env.answer id)).Meets env effects post := h
    exact hnext.trace (some 0) m
  | done value => exact trace h (some 0) m
  | delay a b next => exact trace h (some 0) m
  | keep record next => exact trace h (some 0) m

end Job.Meets

namespace Pool

variable {κ ν : Type} {env : Environment} {effects : Effects}

/-- Every job of a pool has certain effects only. -/
def Have (env : Environment) (effects : Effects) (pool : Pool κ ν) : Prop :=
  ∀ item ∈ pool, item.2.Meets env effects fun _ => True

theorem Interleaving.allowed {x y : Pool κ ν × Memory} {history : List Happening}
    (h : Interleaving env x history y) (hpool : Have env effects x.1) :
    ∀ e ∈ history, e.Allowed env.now effects := by
  induction h with
  | rest =>
    intro e he
    exact absurd he List.not_mem_nil
  | @step before after key job m history y _ _ ih =>
    have hjob : job.Meets env effects fun _ => True := hpool (key, job) (by simp)
    intro e he
    rcases List.mem_append.mp he with he | he
    · exact hjob.resumed m e he
    · refine ih (fun item hitem => ?_) e he
      simp only [List.mem_append, List.mem_cons] at hitem
      rcases hitem with hitem | rfl | hitem
      · exact hpool item (by simp [hitem])
      · exact hjob.resume m
      · exact hpool item (by simp [hitem])

theorem Batch.allowed [Key κ] [DecidableEq κ] {jobs : Pool κ ν} {cancel : Cancellation} {m m' : Memory}
    {history : List Happening} {o : BatchOutcome κ ν} (h : Batch env jobs cancel m history o m')
    (hjobs : Have env effects jobs) : ∀ e ∈ history, e.Allowed env.now effects := by
  cases h with
  | idle =>
    intro e he
    exact absurd he List.not_mem_nil
  | refused =>
    intro e he
    exact absurd he List.not_mem_nil
  | ran _ _ run => exact run.allowed hjobs

end Pool

/-! ## What the jobs do -/

/-- A node that a lookup finds, under whichever id. -/
def Environment.Finds (env : Environment) (a : Node) : Prop := ∃ id, env.answer id = .ok a

section Jobs

variable {env : Environment}

/-- Jobs that evaluate nodes they have looked up and keep certain records. -/
def Environment.lookedUp (env : Environment) (keeps : NodeOffset → Prop) : Effects where
  evaluates a b := env.Finds a ∧ env.Finds b
  keeps := keeps

theorem meets_delayJob (keeps : NodeOffset → Prop) (source target : String) :
    (delayJob source target).Meets env (env.lookedUp keeps) fun _ => True := by
  simp only [delayJob, Job.Meets]
  cases hsource : env.answer source with
  | error fault => trivial
  | ok a =>
    simp only [Job.Meets]
    cases htarget : env.answer target with
    | error fault => trivial
    | ok b => exact ⟨⟨⟨source, hsource⟩, target, htarget⟩, fun _ => trivial⟩

theorem meets_pairJobs (keeps : NodeOffset → Prop) (nodes : List Node) :
    Pool.Have env ⟨fun a b => (a, b) ∈ pairsOf (distinctNodes nodes), keeps⟩ (pairJobs nodes) := by
  intro item hitem
  obtain ⟨⟨a, b⟩, hpair, rfl⟩ := List.mem_map.mp hitem
  exact ⟨hpair, fun _ => trivial⟩

theorem meets_measureJob (keeps : NodeOffset → Prop) {node : Node} (hnode : env.Finds node)
    (ids : List String) : (measureJob node ids).Meets env (env.lookedUp keeps) fun _ => True := by
  induction ids with
  | nil => trivial
  | cons id rest ih =>
    simp only [measureJob, Job.Meets]
    cases hanswer : env.answer id with
    | error fault => exact ih
    | ok reference =>
      refine ⟨⟨hnode, id, hanswer⟩, fun answer => ?_⟩
      cases answer with
      | error fault => exact ih
      | ok result => exact ih.bind fun _ _ => trivial

/-- What is calculated for an id is a record of that id, of this time. -/
theorem offsetOf_eq_ok {node : Node} {id : String} {ms : List Measurement} {now : Instant}
    {record : NodeOffset} (h : offsetOf node id ms now = .ok record) :
    record.id = id ∧ record.calculatedAt = now := by
  simp only [offsetOf] at h
  split at h
  · cases h
  · cases h
    exact ⟨rfl, rfl⟩

/-- The job of an offset keeps what it gives: a record of its id, of its time. -/
theorem meets_offsetJob (id : String) (references : List String) (now : Instant) :
    (offsetJob id references now).Meets env
      (env.lookedUp fun record => record.id = id ∧ record.calculatedAt = now)
      fun answer => ∀ record, answer = .ok record → record.id = id ∧ record.calculatedAt = now := by
  simp only [offsetJob, Job.Meets]
  cases hanswer : env.answer id with
  | error fault =>
    intro record hsame
    cases hsame
  | ok node =>
    refine (meets_measureJob _ ⟨id, hanswer⟩ _).bind fun ms _ => ?_
    cases hoffset : offsetOf node id ms now with
    | error fault =>
      intro record hsame
      cases hsame
    | ok record =>
      refine ⟨offsetOf_eq_ok hoffset, ?_⟩
      intro record hsame
      cases hsame
      exact offsetOf_eq_ok hoffset

theorem Job.Meets.weaken {α : Type} {job : Job α} {effects effects' : Effects}
    {post post' : α → Prop} (h : job.Meets env effects post)
    (hevaluates : ∀ a b, effects.evaluates a b → effects'.evaluates a b)
    (hkeeps : ∀ record, effects.keeps record → effects'.keeps record)
    (hpost : ∀ value, post value → post' value) : job.Meets env effects' post' := by
  induction job with
  | done value => exact hpost value h
  | lookup id next ih => exact ih _ h
  | delay a b next ih => exact ⟨hevaluates a b h.1, fun answer => ih answer (h.2 answer)⟩
  | keep record next ih => exact ⟨hkeeps record h.1, ih h.2⟩

theorem meets_offsetJobs (ids references : List String) (now : Instant) :
    Pool.Have env (env.lookedUp fun record => record.calculatedAt = now)
      (offsetJobs ids references now) := by
  intro item hitem
  obtain ⟨id, _, rfl⟩ := List.mem_map.mp hitem
  exact (meets_offsetJob id references now).weaken (fun _ _ h => h) (fun _ h => h.2)
    fun _ _ => trivial

theorem meets_resolveJob (keeps : NodeOffset → Prop) (ids : List String) :
    (resolveJob ids).Meets env (env.lookedUp keeps) fun nodes => ∀ a ∈ nodes, env.Finds a := by
  induction ids with
  | nil =>
    intro a ha
    exact absurd ha List.not_mem_nil
  | cons id rest ih =>
    simp only [resolveJob, Job.Meets]
    cases hanswer : env.answer id with
    | error fault => exact ih
    | ok node =>
      refine ih.bind fun nodes hnodes => ?_
      exact List.forall_mem_cons.mpr ⟨⟨id, hanswer⟩, hnodes⟩

theorem meets_worstDelayJob (keeps : NodeOffset → Prop) {pairs : List (Node × Node)}
    (hpairs : ∀ p ∈ pairs, env.Finds p.1 ∧ env.Finds p.2) (worst : Duration) :
    (worstDelayJob worst pairs).Meets env (env.lookedUp keeps) fun _ => True := by
  induction pairs generalizing worst with
  | nil => trivial
  | cons p rest ih =>
    obtain ⟨a, b⟩ := p
    obtain ⟨hfirst, hrest⟩ := List.forall_mem_cons.mp hpairs
    refine ⟨hfirst, fun answer => ?_⟩
    cases answer with
    | error fault => trivial
    | ok result => exact ih hrest _

theorem meets_worstOfSetJob (keeps : NodeOffset → Prop) (ids : List String) :
    (worstOfSetJob ids).Meets env (env.lookedUp keeps) fun _ => True := by
  refine (meets_resolveJob keeps ids).bind fun nodes hnodes => ?_
  split
  · trivial
  · refine (meets_worstDelayJob keeps (fun p hp => ?_) .zero).bind fun _ _ => trivial
    obtain ⟨hfirst, hsecond⟩ := mem_of_mem_pairsOf hp
    exact ⟨hnodes _ hfirst, hnodes _ hsecond⟩

end Jobs

/-! ## What may happen while a request is served -/

/-- The list of ids that a request asks a timing for. -/
def Request.timingOf : Request → Option (List String)
  | .consensusTiming ids | .timeouts ids | .votingWindow ids | .blockInterval ids _ => some ids
  | _ => none

namespace Service

/-- The nodes between which a request has all delays evaluated. -/
def handed (s : Service) : Request → List Node
  | .batchDelays nodes _ => nodes
  | .delayMatrix | .maxDelay => s.env.directory.active
  | _ => []

/-- The effects of the jobs of a request. -/
def effects (s : Service) (r : Request) : Effects where
  evaluates a b := (s.env.Finds a ∧ s.env.Finds b) ∨ (a, b) ∈ pairsOf (distinctNodes (s.handed r))
  keeps record := record.calculatedAt = s.now

/-- What may happen while a request is served: what its jobs do, a timing that it asks for and
    that was not stored, or a clearing. -/
def MayHappen (s : Service) (r : Request) (e : Happening) : Prop :=
  e.Allowed s.now (s.effects r) ∨
  (∃ ids timing, e = .timed ids timing ∧ r.timingOf = some ids ∧
    s.memory.timings.get? (fingerprint ids) s.now = none ∧ (s.consensusTiming ids).1 = .ok timing) ∨
  (e = .cleared ∧ r = .clearCaches)

theorem allowed_lookedUp {s : Service} {r : Request} {e : Happening} {keeps : NodeOffset → Prop}
    (h : e.Allowed s.now (s.env.lookedUp keeps))
    (hkeeps : ∀ record, keeps record → record.calculatedAt = s.now) :
    e.Allowed s.now (s.effects r) := by
  cases e with
  | evaluated a b time answer => exact ⟨h.1, .inl h.2⟩
  | kept record => exact hkeeps record h
  | timed ids timing => exact h
  | cleared => exact h

theorem allowed_offsetJobs {s : Service} {ids references : List String} {cancel : Cancellation}
    {m m' : Memory} {history : List Happening} {o : BatchOutcome String NodeOffset}
    (batch : Pool.Batch s.env (offsetJobs ids references s.now) cancel m history o m') (r : Request) :
    ∀ e ∈ history, e.Allowed s.now (s.effects r) :=
  fun e he => allowed_lookedUp (batch.allowed (meets_offsetJobs ids references s.now) e he) fun _ h => h

theorem allowed_pairJobs {s : Service} {r : Request} {cancel : Cancellation} {m m' : Memory}
    {history : List Happening} {o : BatchOutcome NodePair Duration}
    (batch : Pool.Batch s.env (pairJobs (s.handed r)) cancel m history o m') :
    ∀ e ∈ history, e.Allowed s.now (s.effects r) := by
  intro e he
  have h := batch.allowed (meets_pairJobs (fun record => record.calculatedAt = s.now) (s.handed r)) e he
  cases e with
  | evaluated a b time answer => exact ⟨h.1, .inr h.2⟩
  | kept record => exact h
  | timed ids timing => exact h
  | cleared => exact h

theorem allowed_cycle {s s' : Service} {cancel : Cancellation} {history : List Happening}
    {report : SyncReport} (h : s.Cycle cancel history report s') (r : Request) :
    ∀ e ∈ history, e.Allowed s.now (s.effects r) := by
  cases h with
  | mk batch => exact allowed_offsetJobs batch r

theorem allowed_cycles {s s' : Service} {history : List Happening} (h : s.Cycles history s')
    (r : Request) : ∀ e ∈ history, e.Allowed s.now (s.effects r) := by
  induction h with
  | rest s =>
    intro e he
    exact absurd he List.not_mem_nil
  | @cycle s s' s'' cancel first later report hcycle _ ih =>
    have hmaintain : s'.maintain.2.env = s.env := hcycle.env_eq
    intro e he
    rcases List.mem_append.mp he with he | he
    · exact allowed_cycle hcycle r e he
    · have hallowed := ih e he
      simp only [effects, handed, now, hmaintain] at hallowed ⊢
      exact hallowed

section Alone

variable {s : Service}

theorem allowed_jobHistory {α : Type} {keeps : NodeOffset → Prop} {post : α → Prop} {job : Job α}
    (h : job.Meets s.env (s.env.lookedUp keeps) post)
    (hkeeps : ∀ record, keeps record → record.calculatedAt = s.now) (limit : Option Nat)
    (r : Request) : ∀ e ∈ s.jobHistory limit job, e.Allowed s.now (s.effects r) :=
  fun e he => allowed_lookedUp (h.trace limit s.memory e he) hkeeps

theorem mayHappen_timingHistory {r : Request} {ids : List String} (hids : r.timingOf = some ids) :
    ∀ e ∈ s.timingHistory ids, s.MayHappen r e := by
  intro e he
  unfold timingHistory at he
  split at he
  · exact absurd he List.not_mem_nil
  · next hget =>
    rcases List.mem_append.mp he with he | he
    · have hmeets : (worstOfSetJob (distinctIds ids)).Meets s.env
        (s.env.lookedUp fun _ => False) fun _ => True := meets_worstOfSetJob _ _
      exact .inl (allowed_jobHistory (s := s.count (.cacheMiss .timing)) hmeets
        (fun _ h => h.elim) none r e he)
    · split at he
      · next timing htiming =>
        right; left
        exact ⟨ids, timing, List.mem_singleton.mp he, hids, hget, htiming⟩
      · exact absurd he List.not_mem_nil

/-- Reading a stored offset changes the memory only. -/
theorem env_storedOffset (s : Service) (id : String) : (s.storedOffset id).2.env = s.env := by
  unfold storedOffset
  split <;> rfl

/-- What happens while a request is served that runs no batch. -/
theorem mayHappen_history (s : Service) (r : Request) : ∀ e ∈ s.history r, s.MayHappen r e := by
  have hoffset (id : String) (references : List String) (s' : Service) (hs' : s'.env = s.env) :
      ∀ e ∈ s'.jobHistory none (offsetJob id references s'.now), s.MayHappen r e := by
    intro e he
    have hallowed := allowed_jobHistory (meets_offsetJob id references s'.now) (fun _ h => h.2)
      none r e he
    simp only [effects, handed, now, hs'] at hallowed
    exact .inl hallowed
  cases r with
  | delay source target =>
    exact fun e he => .inl (allowed_jobHistory (meets_delayJob (fun _ => False) source target)
      (fun _ h => h.elim) none _ e he)
  | delayWithin deadline source target =>
    exact fun e he => .inl (allowed_jobHistory (meets_delayJob (fun _ => False) source target)
      (fun _ h => h.elim) _ _ e he)
  | consensusTiming ids => exact mayHappen_timingHistory rfl
  | timeouts ids => exact mayHappen_timingHistory rfl
  | votingWindow ids => exact mayHappen_timingHistory rfl
  | blockInterval ids load => exact mayHappen_timingHistory rfl
  | measureOffset id references => exact hoffset id references s rfl
  | currentOffset id =>
    intro e he
    simp only [history] at he
    split at he
    · exact absurd he List.not_mem_nil
    · next s' hstored =>
      have hs' := env_storedOffset s id
      rw [hstored] at hs'
      exact hoffset id _ s' hs' e he
  | clearCaches => exact fun e he => .inr (.inr ⟨List.mem_singleton.mp he, rfl⟩)
  | _ => exact fun e he => absurd he List.not_mem_nil

end Alone

/-- However a request is served, only what may happen does happen. -/
theorem Serves.happens {s s' : Service} {r : Request} {history : List Happening} {answer : Answer}
    (h : s.Serves r history answer s') : ∀ e ∈ history, s.MayHappen r e := by
  cases h with
  | alone h => exact mayHappen_history s r
  | batchDelays batch => exact fun e he => .inl (allowed_pairJobs batch e he)
  | delayMatrix batch => exact fun e he => .inl (allowed_pairJobs (r := .delayMatrix) batch e he)
  | maxDelay batch => exact fun e he => .inl (allowed_pairJobs (r := .maxDelay) batch e he)
  | batchOffsets batch => exact fun e he => .inl (allowed_offsetJobs batch _ e he)
  | sync hcycle => exact fun e he => .inl (allowed_cycle hcycle _ e he)
  | runLoop hcycles => exact fun e he => .inl (allowed_cycles hcycles _ e he)

/-! ## Invariants of such histories -/

theorem Move.now_eq {s s' : Service} {history : List Happening} (h : s.Move history s') :
    s'.now = s.now := by
  cases h <;> rfl

/-- What moves keep as long as every kept record is of the time. -/
theorem Moves.invariant_of_kept {P : List Happening → Service → Prop}
    (hmove : ∀ {history s later s'}, P history s → s.Move later s' →
      (∀ record, .kept record ∈ later → record.calculatedAt = s.now) → P (history ++ later) s')
    {s s' : Service} {history later : List Happening} (h : Moves s later s')
    (hkept : ∀ record, .kept record ∈ later → record.calculatedAt = s.now) (hstart : P history s) :
    P (history ++ later) s' := by
  induction h generalizing history with
  | refl s => rwa [List.append_nil]
  | head hfirst _ ih =>
    rw [← List.append_assoc]
    refine ih (fun record hmem => ?_) ?_
    · rw [hfirst.now_eq]
      exact hkept record (List.mem_append_right _ hmem)
    · exact hmove hstart hfirst fun record hmem => hkept record (List.mem_append_left _ hmem)

/-- Every record that is kept while a request is served is of the time. -/
theorem Serves.kept {s s' : Service} {r : Request} {history : List Happening} {answer : Answer}
    (h : s.Serves r history answer s') {record : NodeOffset} (hmem : .kept record ∈ history) :
    record.calculatedAt = s.now := by
  rcases h.happens _ hmem with hkeeps | ⟨_, _, hsame, _⟩ | ⟨hsame, _⟩
  · exact hkeeps
  · cases hsame
  · cases hsame

/-- What holds at the start, and is kept by the clock and by every move whose records are of the
    time, holds after every run. -/
theorem Run.invariant_of_kept {clock : Instant → Instant → Prop}
    {P : List Happening → Service → Prop}
    (hmove : ∀ {history s later s'}, P history s → s.Move later s' →
      (∀ record, .kept record ∈ later → record.calculatedAt = s.now) → P (history ++ later) s')
    (hclock : ∀ {history s now}, P history s → clock s.now now → P history (s.setNow now))
    {start s : Service} {requests : List Request} {history : List Happening}
    {answers : List Answer} (hrun : Run clock start requests history answers s)
    (hstart : P [] start) : P history s := by
  induction hrun with
  | nil => exact hstart
  | snoc _ serves hnext ih =>
    rcases serves.moves with ⟨rfl, now, rfl⟩ | hmoves
    · rw [List.append_nil]
      exact hclock ih hnext
    · exact hmoves.invariant_of_kept hmove (fun _ hmem => serves.kept hmem) ih

end Service
end LightCone
