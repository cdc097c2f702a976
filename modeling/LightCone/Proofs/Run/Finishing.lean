import LightCone.Proofs.Run.Commuting
import LightCone.Proofs.Run.Outcomes

/-!
Pools of jobs, finished one after another.

Wherever a batch stands, its jobs could be run to their ends in order. For jobs that do not notice
each other this comes to the same from every point of an interleaving. This file

1. runs what is left of a job (`Pool.finishJob`), and of a pool job after job (`Pool.finish`);
2. says which pools have jobs that do not notice each other (`Pool.Separate`), and shows that a
   step of any of them changes nothing of what finishing the pool comes to (`Pool.finish_step`),
   hence no interleaving does (`Pool.finish_interleaving`);
3. concludes that a batch that is not cancelled comes to what finishing its jobs does
   (`Pool.finish_batch`), so to one thing only (`Pool.Batch.unique`), and puts offset jobs among
   these pools (`separate_offsetJobs`).
-/
namespace LightCone

/-! ## What is left of a job -/

section Jobs

variable {α ν : Type} {env : Environment}

theorem Job.run_settle (job : Job α) (m : Memory) :
    (job.settle env m).1.run env (job.settle env m).2 = job.run env m := by
  induction job generalizing m with
  | done value => rfl
  | lookup id next ih => rfl
  | delay a b next ih => exact ih _ _
  | keep record next ih => exact ih _

theorem Job.run_resume (job : Job α) (m : Memory) :
    (job.resume env m).1.run env (job.resume env m).2 = job.run env m := by
  cases job with
  | lookup id next => exact (next (env.answer id)).run_settle m
  | done value => rfl
  | delay a b next => exact (Job.delay a b next).run_settle m
  | keep record next => exact (Job.keep record next).run_settle m

namespace Pool

/-- Runs a job to its end and counts its item, unless it has ended. -/
def finishJob (env : Environment) (job : Job (Except Fault ν)) (m : Memory) :
    Except Fault ν × Memory :=
  match ended job with
  | some result => (result, m)
  | none =>
    let (result, m) := job.run env m
    (result, countEnded (.done result) m)

/-- A job that goes on comes to the same in the end. -/
theorem finishJob_advance {job : Job (Except Fault ν)} (h : ended job = none) (m : Memory) :
    finishJob env (advance env job m).1 (advance env job m).2 = finishJob env job m := by
  have hrun : (job.resume env m).1.run env (job.resume env m).2 = job.run env m := job.run_resume m
  simp only [advance, finishJob, h]
  rw [← hrun]
  generalize job.resume env m = resumed
  obtain ⟨job', m'⟩ := resumed
  cases job' with
  | done result => rfl
  | lookup id next => rfl
  | delay a b next => rfl
  | keep record next => rfl

end Pool
end Jobs

/-! ## Jobs of a pool that do not notice each other -/

namespace Pool

variable {κ ν : Type} {env : Environment} {known : Node → Prop}

/-- A blind job with records of its own. -/
structure Alone (env : Environment) (known : Node → Prop) (own : String → Prop)
    (job : Job (Except Fault ν)) : Prop where
  blind : job.Blind
  meets : job.Meets env (.own known own) fun _ => True

theorem detached_countEnded {own : String → Prop} (job : Job (Except Fault ν)) :
    Detached env known own fun m => ((), countEnded job m) := by
  unfold countEnded
  split
  · exact .of_count _
  · exact .of_count _
  · exact .pure ()

namespace Alone

variable {own : String → Prop} {job : Job (Except Fault ν)}

theorem advance (h : Alone env known own job) (m : Memory) :
    Alone env known own (Pool.advance env job m).1 :=
  ⟨h.blind.resume m, h.meets.resume m⟩

theorem detached_advance (h : Alone env known own job) (hknown : ToldApart known) :
    Detached env known own fun m => Pool.advance env job m :=
  (detached_resume hknown h.blind h.meets).bind fun resumed =>
    (detached_countEnded resumed).bind fun _ => .pure resumed

theorem detached_finishJob (h : Alone env known own job) (hknown : ToldApart known) :
    Detached env known own fun m => finishJob env job m := by
  unfold finishJob
  cases ended job with
  | some result => exact .pure result
  | none =>
    exact (detached_run hknown h.blind h.meets).bind fun result =>
      (detached_countEnded (.done result)).bind fun _ => .pure result

end Alone

/-- The jobs of a pool have distinct items, and no two of them own records of one id. -/
structure Separate (env : Environment) (known : Node → Prop) (owns : κ → String → Prop)
    (pool : Pool κ ν) : Prop where
  nodup : (pool.map Prod.fst).Nodup
  apart : ∀ ⦃key key'⦄, key ≠ key' → ∀ id, owns key' id → ¬ owns key id
  alone : ∀ item ∈ pool, Alone env known (owns item.1) item.2

variable {owns : κ → String → Prop}

theorem Separate.tail {item : κ × Job (Except Fault ν)} {pool : Pool κ ν}
    (h : Separate env known owns (item :: pool)) : Separate env known owns pool where
  nodup := (List.nodup_cons.mp h.nodup).2
  apart := h.apart
  alone := fun item hitem => h.alone item (List.mem_cons_of_mem _ hitem)

theorem Separate.step {before after : Pool κ ν} {key : κ}
    {job job' : Job (Except Fault ν)} (h : Separate env known owns (before ++ (key, job) :: after))
    (hjob : Alone env known (owns key) job') :
    Separate env known owns (before ++ (key, job') :: after) where
  nodup := by
    have hnodup := h.nodup
    simp only [List.map_append, List.map_cons] at hnodup ⊢
    exact hnodup
  apart := h.apart
  alone := by
    intro item hitem
    simp only [List.mem_append, List.mem_cons] at hitem
    rcases hitem with hitem | rfl | hitem
    · exact h.alone item (by simp [hitem])
    · exact hjob
    · exact h.alone item (by simp [hitem])

/-! ## What is left of a pool -/

/-- Finishes the jobs of a pool one after another. -/
def finish (env : Environment) : Pool κ ν → Memory → List (κ × Except Fault ν) × Memory
  | [], m => ([], m)
  | (key, job) :: rest, m =>
    let (result, m) := finishJob env job m
    let (results, m) := finish env rest m
    ((key, result) :: results, m)

/-- What a job has ended with is what finishing its pool gives for it. -/
theorem mem_finish_of_done {pool : Pool κ ν} {key : κ} {answer : Except Fault ν} (m : Memory)
    (h : (key, .done answer) ∈ pool) : (key, answer) ∈ (finish env pool m).1 := by
  induction pool generalizing m with
  | nil => exact absurd h List.not_mem_nil
  | cons item pool ih =>
    rcases List.mem_cons.mp h with rfl | hrest
    · exact List.mem_cons_self
    · exact List.mem_cons_of_mem _ (ih _ hrest)

/-- A pool comes to the same when one of its jobs goes on, wherever it stands. -/
theorem finish_step {before after : Pool κ ν} {key : κ} {job : Job (Except Fault ν)}
    (hknown : ToldApart known) (h : Separate env known owns (before ++ (key, job) :: after))
    (hjob : ended job = none) (m : Memory) :
    finish env (before ++ (key, (advance env job m).1) :: after) (advance env job m).2 =
      finish env (before ++ (key, job) :: after) m := by
  induction before generalizing m with
  | nil =>
    simp only [List.nil_append, finish]
    rw [finishJob_advance hjob]
  | cons item before ih =>
    obtain ⟨key', job'⟩ := item
    have hearlier : Alone env known (owns key') job' := h.alone (key', job') (by simp)
    have hlater : Alone env known (owns key) job := h.alone (key, job) (by simp)
    have hkeys : key' ≠ key := by
      have hnodup := h.nodup
      simp only [List.cons_append, List.map_cons, List.map_append, List.nodup_cons, List.mem_append,
        List.mem_cons] at hnodup
      exact fun hsame => hnodup.1 (.inr (.inl hsame))
    -- The earlier job does not notice that the later one has gone on, and the other way round.
    have hpast := (hearlier.detached_finishJob hknown).passes
      ((hlater.detached_advance hknown).unnoticed hknown (h.apart hkeys.symm)) m
    have hadvance := (hlater.detached_advance hknown).passes
      ((hearlier.detached_finishJob hknown).unnoticed hknown (h.apart hkeys)) m
    have hrest := ih h.tail (finishJob env job' m).2
    rw [congrArg (fun done => done.1) hadvance] at hrest
    simp only [List.cons_append, finish, hpast, hrest]

theorem finish_interleaving {x y : Pool κ ν × Memory} {history : List Happening}
    (hknown : ToldApart known) (h : Interleaving env x history y)
    (hpool : Separate env known owns x.1) :
    finish env y.1 y.2 = finish env x.1 x.2 := by
  induction h with
  | rest => rfl
  | @step before after key job m history y hjob _ ih =>
    have hone : Alone env known (owns key) job := hpool.alone (key, job) (by simp)
    rw [ih (hpool.step (hone.advance m)), finish_step hknown hpool hjob]

/-- Counting an event before a pool is finished is counting it afterwards. -/
theorem finish_count {pool : Pool κ ν} (hknown : ToldApart known)
    (h : Separate env known owns pool) (m : Memory) (e : Event) :
    finish env pool (m.count e) = ((finish env pool m).1, (finish env pool m).2.count e) := by
  induction pool generalizing m with
  | nil => rfl
  | cons item pool ih =>
    obtain ⟨key, job⟩ := item
    have hjob : Alone env known (owns key) job := h.alone (key, job) (by simp)
    have hcount := (hjob.detached_finishJob hknown).passes (.of_count e) m
    simp only [finish, hcount, ih h.tail]

/-! ## Pools whose jobs have ended -/

/-- A pool of jobs that have ended with answers. -/
def ofAnswers (answers : List (κ × Except Fault ν)) : Pool κ ν :=
  answers.map fun a => (a.1, .done a.2)

theorem exists_answers {pool : Pool κ ν} (h : ∀ item ∈ pool, (ended item.2).isSome = true) :
    ∃ answers, pool = ofAnswers answers := by
  induction pool with
  | nil => exact ⟨[], rfl⟩
  | cons item pool ih =>
    obtain ⟨key, job⟩ := item
    obtain ⟨hjob, hrest⟩ := List.forall_mem_cons.mp h
    obtain ⟨answer, rfl⟩ := exists_done_of_ended hjob
    obtain ⟨answers, rfl⟩ := ih hrest
    exact ⟨(key, answer) :: answers, rfl⟩

/-- Nothing is left to be done for it. -/
theorem finish_ofAnswers (answers : List (κ × Except Fault ν)) (m : Memory) :
    finish env (ofAnswers answers) m = (answers, m) := by
  induction answers with
  | nil => rfl
  | cons a answers ih =>
    have hrest : finish env (answers.map fun a => (a.1, .done a.2)) m = (answers, m) := ih
    simp only [ofAnswers, List.map_cons, finish, finishJob, ended, hrest]

theorem mem_ofAnswers {answers : List (κ × Except Fault ν)} {key : κ} {answer : Except Fault ν} :
    (key, .done answer) ∈ ofAnswers answers ↔ (key, answer) ∈ answers := by
  simp [ofAnswers]

/-- A batch that is not cancelled comes to what finishing its jobs one after another does. -/
theorem finish_batch [Key κ] [DecidableEq κ] {jobs : Pool κ ν} {m m' : Memory}
    {history : List Happening} {o : BatchOutcome κ ν} (hknown : ToldApart known)
    (hjobs : Separate env known owns jobs)
    (hbatch : Batch env jobs .never m history o m') :
    (finish env jobs m).2 = m' ∧
      (∀ {key value}, o.results.find? key = some value ↔ (key, .ok value) ∈ (finish env jobs m).1) ∧
      (∀ {key fault}, o.failures.find? key = some fault ↔
        (key, .error fault) ∈ (finish env jobs m).1) ∧
      o.total = jobs.length ∧ o.cancelled = false := by
  cases hbatch with
  | idle hnone =>
    subst hnone
    exact ⟨rfl, by simp [finish], by simp [finish], rfl, rfl⟩
  | refused _ hcancel => cases hcancel
  | ran _ _ run hended =>
    have hkeys := run.keys_eq
    obtain ⟨answers, rfl⟩ := exists_answers (hended rfl)
    have hfinish := finish_interleaving hknown run hjobs
    rw [finish_ofAnswers] at hfinish
    have hnodup : ((ofAnswers answers).map Prod.fst).Nodup := by
      rw [hkeys]
      exact hjobs.nodup
    rw [← hfinish]
    exact ⟨rfl, (find?_results hnodup).trans mem_ofAnswers,
      (find?_failures hnodup).trans mem_ofAnswers, rfl, rfl⟩

/-- All batches of the same jobs that are not cancelled come to the same. -/
theorem Batch.unique [Key κ] [DecidableEq κ] {jobs : Pool κ ν} {m m' m'' : Memory}
    {history history' : List Happening} {o o' : BatchOutcome κ ν} (hknown : ToldApart known)
    (hjobs : Separate env known owns jobs) (h : Batch env jobs .never m history o m')
    (h' : Batch env jobs .never m history' o' m'') : o = o' ∧ m' = m'' := by
  obtain ⟨hmemory, hresults, hfailures, htotal, hcancelled⟩ := finish_batch hknown hjobs h
  obtain ⟨hmemory', hresults', hfailures', htotal', hcancelled'⟩ := finish_batch hknown hjobs h'
  have hsame : o.results = o'.results :=
    Table.ext fun key => Option.ext fun value => hresults.trans hresults'.symm
  have hsame' : o.failures = o'.failures :=
    Table.ext fun key => Option.ext fun fault => hfailures.trans hfailures'.symm
  refine ⟨?_, hmemory.symm.trans hmemory'⟩
  cases o
  cases o'
  rw [BatchOutcome.mk.injEq]
  exact ⟨hsame, hsame', htotal.trans htotal'.symm, hcancelled.trans hcancelled'.symm⟩

end Pool

/-! ## Jobs of offsets -/

theorem blind_measureJob (node : Node) (ids : List String) : (measureJob node ids).Blind := by
  induction ids with
  | nil => trivial
  | cons id rest ih =>
    intro answer
    cases answer with
    | error fault => exact ih
    | ok reference =>
      intro measured
      cases measured with
      | error fault => exact ⟨rfl, ih⟩
      | ok result => exact ⟨rfl, ih.bind fun _ => trivial⟩

theorem blind_offsetJob (id : String) (references : List String) (now : Instant) :
    (offsetJob id references now).Blind := by
  intro answer
  cases answer with
  | error fault => trivial
  | ok node =>
    refine (blind_measureJob node _).bind fun ms => ?_
    cases offsetOf node id ms now <;> trivial

/-- The job of an offset evaluates nodes that lookups find, and keeps a record of its id. -/
theorem alone_offsetJob (env : Environment) (id : String) (references : List String) (now : Instant) :
    Pool.Alone env env.Finds (· = id) (offsetJob id references now) where
  blind := blind_offsetJob id references now
  meets := (meets_offsetJob id references now).weaken (fun _ _ h => h) (fun _ h => h.1)
    fun _ _ => trivial

theorem separate_offsetJobs (env : Environment) {ids : List String} (hnodup : ids.Nodup)
    (references : List String) (now : Instant) :
    Pool.Separate env env.Finds (fun id => (· = id))
      (ids.map fun id => (id, offsetJob id references now)) where
  nodup := by
    rw [List.map_map]
    exact (List.map_id ids).symm ▸ hnodup
  apart := fun _ _ hne _ hother hown => hne (hown.symm.trans hother)
  alone := by
    intro item hitem
    obtain ⟨id, _, rfl⟩ := List.mem_map.mp hitem
    exact alone_offsetJob env id references now

/-- Nodes that lookups find are told apart by their ids. -/
theorem Environment.Keyed.toldApart_finds {env : Environment} (hkeyed : env.Keyed) :
    ToldApart env.Finds := by
  rintro a b ⟨_, ha⟩ ⟨_, hb⟩ hid
  exact (hkeyed.knows ha).unique (hkeyed.knows hb) hid

end LightCone
