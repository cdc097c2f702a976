import LightCone.Proofs.Run.Trace
import Mathlib.Logic.Relation

/-!
Batches whose jobs interleave in any order.

Jobs of a batch break at lookups only, and after each lookup any of them may go on. This file

1. lets the jobs of a pool go on one after another in any order, with what happens on the way
   (`Pool.Interleaving`);
2. says what a batch may come to (`Pool.Batch`): it stops at some point of some interleaving, and
   unless it was cancelled every job has ended by then;
3. shows that interleavings are sequences of steps (`exists_interleaving_iff`), and that
   answering lookups in rounds is such a batch (`fanOut_batch`), provided no job makes more
   lookups than rounds are allowed; how many more are allowed does not matter (`fanOut_of_le`).
-/
namespace LightCone.Pool

variable {κ ν : Type} {env : Environment}

/-- Jobs that have not ended go on, one at a time and in any order. -/
inductive Interleaving (env : Environment) :
    Pool κ ν × Memory → List Happening → Pool κ ν × Memory → Prop where
  | rest (x : Pool κ ν × Memory) : Interleaving env x [] x
  | step {before after : Pool κ ν} {key : κ} {job : Job (Except Fault ν)} {m : Memory}
      {history : List Happening} {y : Pool κ ν × Memory} (h : ended job = none)
      (later : Interleaving env
        (before ++ (key, (advance env job m).1) :: after, (advance env job m).2) history y) :
      Interleaving env (before ++ (key, job) :: after, m) (job.resumed env m ++ history) y

/-- What a batch may come to when its jobs interleave: nothing without jobs or if it is cancelled
    before its start, else what has ended at some point, which is all of it if it is never
    cancelled. -/
inductive Batch [Key κ] [DecidableEq κ] (env : Environment) (jobs : Pool κ ν)
    (cancel : Cancellation) (m : Memory) :
    List Happening → BatchOutcome κ ν → Memory → Prop where
  | idle (hjobs : jobs = []) : Batch env jobs cancel m [] ⟨.empty, .empty, 0, false⟩ m
  | refused (hjobs : jobs ≠ []) (hcancel : cancel = .before) :
      Batch env jobs cancel m [] ⟨.empty, .empty, jobs.length, true⟩ m
  | ran {history : List Happening} {pool : Pool κ ν} {m' : Memory} (hjobs : jobs ≠ [])
      (hcancel : cancel ≠ .before) (run : Interleaving env (jobs, m) history (pool, m'))
      (hended : cancel = .never → ∀ item ∈ pool, (ended item.2).isSome = true) :
      Batch env jobs cancel m history
        ⟨pool.results, pool.failures, jobs.length,
          decide (cancel ≠ .never) &&
            decide (pool.results.size + pool.failures.size < jobs.length)⟩ m'

/-! ## Interleavings compose -/

theorem Interleaving.trans {x y z : Pool κ ν × Memory} {first second : List Happening}
    (h₁ : Interleaving env x first y) (h₂ : Interleaving env y second z) :
    Interleaving env x (first ++ second) z := by
  induction h₁ with
  | rest => exact h₂
  | step h _ ih =>
    rw [List.append_assoc]
    exact .step h (ih h₂)

theorem Interleaving.single (before after : Pool κ ν) (key : κ) {job : Job (Except Fault ν)}
    (m : Memory) (h : ended job = none) :
    Interleaving env (before ++ (key, job) :: after, m) (job.resumed env m)
      (before ++ (key, (advance env job m).1) :: after, (advance env job m).2) := by
  have hone : Interleaving env (before ++ (key, job) :: after, m) (job.resumed env m ++ []) _ :=
    .step h (.rest _)
  rwa [List.append_nil] at hone

/-- A job that is left alone stays as it is. -/
theorem Interleaving.cons (item : κ × Job (Except Fault ν)) {x y : Pool κ ν × Memory}
    {history : List Happening} (h : Interleaving env x history y) :
    Interleaving env (item :: x.1, x.2) history (item :: y.1, y.2) := by
  induction h with
  | rest => exact .rest _
  | @step before after key job m history y h _ ih =>
    have hlonger : Interleaving env ((item :: before) ++ (key, job) :: after, m) _ _ := .step h ih
    exact hlonger

/-- An interleaving is a sequence of steps, told with what happens in it. -/
theorem exists_interleaving_iff {x y : Pool κ ν × Memory} :
    (∃ history, Interleaving env x history y) ↔ Relation.ReflTransGen (Step env) x y := by
  refine ⟨?_, ?_⟩
  · intro hsome
    obtain ⟨history, hrun⟩ := hsome
    induction hrun with
    | rest => exact .refl
    | step h _ ih => exact .head (.run _ _ _ _ _ h) ih
  · intro hsteps
    induction hsteps using Relation.ReflTransGen.head_induction_on with
    | refl => exact ⟨[], .rest _⟩
    | head hstep _ ih =>
      obtain ⟨before, after, key, job, m, h⟩ := hstep
      obtain ⟨history, hrun⟩ := ih
      exact ⟨job.resumed env m ++ history, .step h hrun⟩

/-! ## Jobs that wait and jobs that have ended -/

section Shapes

variable {job : Job (Except Fault ν)}

theorem exists_lookup_of_waits (h : waits job = true) : ∃ id next, job = .lookup id next := by
  cases job with
  | lookup id next => exact ⟨id, next, rfl⟩
  | done value => exact absurd h Bool.false_ne_true
  | delay a b next => exact absurd h Bool.false_ne_true
  | keep record next => exact absurd h Bool.false_ne_true

theorem exists_done_of_ended (h : (ended job).isSome = true) : ∃ value, job = .done value := by
  cases job with
  | done value => exact ⟨value, rfl⟩
  | lookup id next => exact absurd h Bool.false_ne_true
  | delay a b next => exact absurd h Bool.false_ne_true
  | keep record next => exact absurd h Bool.false_ne_true

theorem ended_of_waits (h : waits job = true) : ended job = none := by
  obtain ⟨id, next, rfl⟩ := exists_lookup_of_waits h
  rfl

/-- A job that does not wait needs no answer to go on. -/
theorem resume_of_not_waits (h : ¬ waits job = true) (m : Memory) :
    job.resume env m = job.settle env m := by
  cases job with
  | lookup id next => exact absurd rfl h
  | done value => rfl
  | delay a b next => rfl
  | keep record next => rfl

end Shapes

/-! ## Rounds are an interleaving -/

theorem start_interleaving (env : Environment) (pool : Pool κ ν) (m : Memory)
    (hfresh : ∀ item ∈ pool, ended item.2 = none) :
    ∃ history, Interleaving env (pool, m) history (start env pool m) := by
  induction pool generalizing m with
  | nil => exact ⟨[], .rest _⟩
  | cons item pool ih =>
    obtain ⟨key, job⟩ := item
    have hpool : ∀ item ∈ pool, ended item.2 = none :=
      fun item hitem => hfresh item (List.mem_cons_of_mem _ hitem)
    by_cases hwaits : waits job = true
    · obtain ⟨history, hrun⟩ := ih m hpool
      refine ⟨history, ?_⟩
      simp only [start, hwaits, if_true]
      exact hrun.cons (key, job)
    · obtain ⟨history, hrun⟩ := ih (advance env job m).2 hpool
      refine ⟨job.resumed env m ++ history, ?_⟩
      simp only [start, hwaits, if_false, Bool.false_eq_true]
      have hjob : ended job = none := hfresh (key, job) List.mem_cons_self
      exact (Interleaving.single [] pool key m hjob).trans (hrun.cons (key, (advance env job m).1))

theorem round_interleaving (env : Environment) (pool : Pool κ ν) (m : Memory) :
    ∃ history, Interleaving env (pool, m) history (round env pool m) := by
  induction pool generalizing m with
  | nil => exact ⟨[], .rest _⟩
  | cons item pool ih =>
    obtain ⟨key, job⟩ := item
    by_cases hwaits : waits job = true
    · obtain ⟨history, hrun⟩ := ih (advance env job m).2
      refine ⟨job.resumed env m ++ history, ?_⟩
      simp only [round, hwaits, if_true]
      exact (Interleaving.single [] pool key m (ended_of_waits hwaits)).trans
        (hrun.cons (key, (advance env job m).1))
    · obtain ⟨history, hrun⟩ := ih m
      refine ⟨history, ?_⟩
      simp only [round, hwaits, if_false, Bool.false_eq_true]
      exact hrun.cons (key, job)

theorem rounds_interleaving (env : Environment) (most : Nat) (pool : Pool κ ν) (m : Memory) :
    ∃ history, Interleaving env (pool, m) history (rounds env most pool m).2 := by
  induction most generalizing pool m with
  | zero => exact ⟨[], .rest _⟩
  | succ most ih =>
    simp only [rounds]
    split
    · obtain ⟨first, hfirst⟩ := round_interleaving env pool m
      obtain ⟨second, hsecond⟩ := ih (round env pool m).1 (round env pool m).2
      exact ⟨first ++ second, hfirst.trans hsecond⟩
    · exact ⟨[], .rest _⟩

/-! ## Enough rounds end every job -/

/-- A job at rest: it has ended or waits for a lookup. -/
def Settled (job : Job (Except Fault ν)) : Prop := (ended job).isSome = true ∨ waits job = true

theorem settled_settle (job : Job (Except Fault ν)) (m : Memory) : Settled (job.settle env m).1 := by
  induction job generalizing m with
  | done value => exact .inl rfl
  | lookup id next ih => exact .inr rfl
  | delay a b next ih => exact ih _ _
  | keep record next ih => exact ih _

theorem looksUpAtMost_settle {α : Type} {n : Nat} {job : Job α} (m : Memory)
    (h : job.LooksUpAtMost n) : (job.settle env m).1.LooksUpAtMost n := by
  induction job generalizing m with
  | done value => simp [Job.settle, Job.LooksUpAtMost]
  | lookup id next ih => exact h
  | delay a b next ih =>
    simp only [Job.LooksUpAtMost] at h
    exact ih _ _ (h _)
  | keep record next ih =>
    simp only [Job.LooksUpAtMost] at h
    exact ih _ h

/-- Answering a waiting job uses up one lookup. -/
theorem advance_waiting {n : Nat} {job : Job (Except Fault ν)} (m : Memory)
    (hwaits : waits job = true) (h : job.LooksUpAtMost (n + 1)) :
    Settled (advance env job m).1 ∧ (advance env job m).1.LooksUpAtMost n := by
  obtain ⟨id, next, rfl⟩ := exists_lookup_of_waits hwaits
  simp only [Job.LooksUpAtMost] at h
  exact ⟨settled_settle _ m, looksUpAtMost_settle m (h _)⟩

theorem looksUpAtMost_of_ended {n : Nat} {job : Job (Except Fault ν)}
    (h : (ended job).isSome = true) : job.LooksUpAtMost n := by
  obtain ⟨value, rfl⟩ := exists_done_of_ended h
  simp [Job.LooksUpAtMost]

/-- Every job of a pool is at rest and has at most `n` lookups to make. -/
def AtRest (n : Nat) (pool : Pool κ ν) : Prop :=
  ∀ item ∈ pool, Settled item.2 ∧ item.2.LooksUpAtMost n

theorem atRest_start {n : Nat} (pool : Pool κ ν) (m : Memory)
    (h : ∀ item ∈ pool, item.2.LooksUpAtMost n) : AtRest n (start env pool m).1 := by
  induction pool generalizing m with
  | nil => intro item hitem; exact absurd hitem List.not_mem_nil
  | cons item pool ih =>
    obtain ⟨key, job⟩ := item
    have hjob : job.LooksUpAtMost n := h (key, job) List.mem_cons_self
    have hpool : ∀ item ∈ pool, item.2.LooksUpAtMost n :=
      fun item hitem => h item (List.mem_cons_of_mem _ hitem)
    intro item hitem
    by_cases hwaits : waits job = true
    · simp only [start, hwaits, if_true, List.mem_cons] at hitem
      rcases hitem with rfl | hitem
      · exact ⟨.inr hwaits, hjob⟩
      · exact ih m hpool item hitem
    · simp only [start, hwaits, if_false, Bool.false_eq_true, List.mem_cons] at hitem
      rcases hitem with rfl | hitem
      · show Settled (job.resume env m).1 ∧ (job.resume env m).1.LooksUpAtMost n
        rw [resume_of_not_waits hwaits]
        exact ⟨settled_settle job m, looksUpAtMost_settle m hjob⟩
      · exact ih _ hpool item hitem

theorem atRest_round {n : Nat} (pool : Pool κ ν) (m : Memory) (h : AtRest (n + 1) pool) :
    AtRest n (round env pool m).1 := by
  induction pool generalizing m with
  | nil => intro item hitem; exact absurd hitem List.not_mem_nil
  | cons item pool ih =>
    obtain ⟨key, job⟩ := item
    obtain ⟨hsettled, hjob⟩ := h (key, job) List.mem_cons_self
    have hpool : AtRest (n + 1) pool := fun item hitem => h item (List.mem_cons_of_mem _ hitem)
    intro item hitem
    by_cases hwaits : waits job = true
    · simp only [round, hwaits, if_true, List.mem_cons] at hitem
      rcases hitem with rfl | hitem
      · exact advance_waiting m hwaits hjob
      · exact ih _ hpool item hitem
    · simp only [round, hwaits, if_false, Bool.false_eq_true, List.mem_cons] at hitem
      have hended : (ended job).isSome = true := hsettled.resolve_right hwaits
      rcases hitem with rfl | hitem
      · exact ⟨.inl hended, looksUpAtMost_of_ended hended⟩
      · exact ih m hpool item hitem

theorem ended_rounds (most : Nat) (pool : Pool κ ν) (m : Memory) (h : AtRest most pool) :
    ∀ item ∈ (rounds env most pool m).2.1, (ended item.2).isSome = true := by
  induction most generalizing pool m with
  | zero =>
    intro item hitem
    obtain ⟨hsettled, hjob⟩ := h item hitem
    refine hsettled.resolve_right fun hwaits => ?_
    -- A job without lookups left does not wait for one.
    obtain ⟨id, next, hlookup⟩ := exists_lookup_of_waits hwaits
    rw [hlookup] at hjob
    exact hjob
  | succ most ih =>
    simp only [rounds]
    split
    · exact ih _ _ (atRest_round pool m h)
    · next hnone =>
      intro item hitem
      refine (h item hitem).1.resolve_right fun hwaits => hnone ?_
      exact List.any_eq_true.mpr ⟨item, hitem, hwaits⟩

/-- More rounds than the jobs have lookups left to make change nothing. -/
theorem rounds_min {n : Nat} {pool : Pool κ ν} (h : AtRest n pool) (most : Nat) (m : Memory) :
    rounds env (min most n) pool m = rounds env most pool m := by
  induction most generalizing n pool m with
  | zero => rw [Nat.zero_min]
  | succ most ih =>
    cases n with
    | zero =>
      have hnone : ¬ (pool.any fun item => waits item.2) = true := by
        rintro hsome
        obtain ⟨item, hitem, hwaits⟩ := List.any_eq_true.mp hsome
        obtain ⟨id, next, hlookup⟩ := exists_lookup_of_waits hwaits
        have hleft := (h item hitem).2
        rw [hlookup] at hleft
        exact hleft
      simp only [Nat.min_zero, rounds, hnone, if_false, Bool.false_eq_true]
    | succ n =>
      rw [Nat.add_min_add_right]
      simp only [rounds]
      split
      · rw [ih (atRest_round pool m h)]
      · rfl

/-- A batch that may take more rounds than its jobs make lookups comes to the same. -/
theorem fanOut_of_le [Key κ] [DecidableEq κ] {jobs : Pool κ ν} {n most : Nat} (h : n ≤ most)
    (hjobs : ∀ item ∈ jobs, item.2.LooksUpAtMost n) (cancel : Cancellation) (m : Memory) :
    fanOut env jobs most cancel m = fanOut env jobs n cancel m := by
  have hallowed : min (cancel.rounds env.access most) n = cancel.rounds env.access n := by
    unfold Cancellation.rounds
    split
    · omega
    · omega
    · split <;> omega
  have hrest : AtRest n (start env jobs m).1 := atRest_start jobs m hjobs
  have hrounds : rounds env (min (cancel.rounds env.access most) n) (start env jobs m).1
      (start env jobs m).2 =
      rounds env (cancel.rounds env.access most) (start env jobs m).1 (start env jobs m).2 :=
    rounds_min hrest _ _
  rw [hallowed] at hrounds
  simp only [fanOut, hrounds]

/-- A batch whose lookups are answered in rounds is a batch whose jobs interleave. -/
theorem fanOut_batch [Key κ] [DecidableEq κ] {jobs : Pool κ ν} {most : Nat}
    (cancel : Cancellation) (m : Memory) (hfresh : ∀ item ∈ jobs, ended item.2 = none)
    (hmost : ∀ item ∈ jobs, item.2.LooksUpAtMost most) :
    ∃ history, Batch env jobs cancel m history
      (fanOut env jobs most cancel m).1.outcome (fanOut env jobs most cancel m).2 := by
  unfold fanOut
  split
  · next hempty => exact ⟨[], .idle (List.isEmpty_iff.mp hempty)⟩
  · next hsome =>
    have hjobs : jobs ≠ [] := fun h => hsome (List.isEmpty_iff.mpr h)
    split
    · next hbefore => exact ⟨[], .refused hjobs hbefore⟩
    · next hbefore =>
      obtain ⟨first, hfirst⟩ := start_interleaving env jobs m hfresh
      obtain ⟨second, hsecond⟩ := rounds_interleaving env (cancel.rounds env.access most)
        (start env jobs m).1 (start env jobs m).2
      refine ⟨first ++ second, .ran hjobs hbefore (hfirst.trans hsecond) fun hnever => ?_⟩
      -- Without a cancellation the rounds are as many as the lookups a job may make.
      subst hnever
      exact ended_rounds most _ _ (atRest_start jobs m hmost)

end LightCone.Pool
