import LightCone.Proofs.Run.TwoNodes
import LightCone.Proofs.Run.Waiting

/-!
Deadlines on delays.

A delay between two ids takes two lookups, and each may fail, or be answered late. Only when both have
found a node is the store read, and a delay evaluated, stored and counted. This file

1. asks for delays with the lookups answered through a port (`Service.delayVia`,
   `Service.delayWithinVia`), and says what comes of it for each outcome of the lookups;
2. concludes that a delay with a deadline is the delay without it, or else leaves the service as it was
   (`delayWithinVia_all_or_nothing`).
-/
namespace LightCone

theorem looksUpFirst_delayJob (source target : String) : (delayJob source target).LooksUpFirst := by
  intro first
  cases first with
  | error fault => trivial
  | ok a =>
    intro second
    cases second with
    | error fault => trivial
    | ok b => exact fun _ => trivial

/-- How long the lookups of a delay take. The target is only looked up once the source is found. -/
def Port.waitForDelay (port : Port) (source target : String) : Nat :=
  match port.answer 0 source with
  | .error _ => port.wait 0 source
  | .ok _ => port.wait 0 source + port.wait 1 target

theorem waiting_delayJob (port : Port) (source target : String) :
    (delayJob source target).waiting port 0 = port.waitForDelay source target := by
  rw [delayJob, Job.waiting, Port.waitForDelay]
  cases port.answer 0 source with
  | error fault => rfl
  | ok a =>
    simp only [Job.waiting]
    cases port.answer 1 target <;> rfl

namespace Service

/-- The delay between two ids, looked up through a port. -/
def delayVia (s : Service) (port : Port) (source target : String) :
    Except Fault DelayResult × Service :=
  s.performVia port (delayJob source target)

/-- The delay between two ids, if both lookups are answered through a port by a deadline. -/
def delayWithinVia (s : Service) (port : Port) (deadline : Duration) (source target : String) :
    Except Fault DelayResult × Service :=
  match s.performBy port deadline (delayJob source target) with
  | (some answer, s) => (answer, s)
  | (none, s) => (.error (.deadlineExceeded deadline), s)

theorem delay_eq_delayVia (s : Service) (source target : String) :
    s.delay source target = s.delayVia s.env.port source target :=
  s.perform_eq_performVia _

theorem delayWithin_eq_delayWithinVia (s : Service) (deadline : Duration) (source target : String) :
    s.delayWithin deadline source target = s.delayWithinVia s.env.port deadline source target := by
  have hsame := s.performWithin_eq_performBy deadline (delayJob source target)
  rw [delayWithin, delayWithinVia]
  -- Both calls become variables, else the last step would follow them into the job.
  generalize s.performWithin deadline (delayJob source target) = within at hsame ⊢
  generalize s.performBy s.env.port deadline (delayJob source target) = performed at hsame ⊢
  subst hsame
  rfl

section Outcomes

variable {s : Service} {port : Port} {source target : String} {a b : Node} {fault : Fault}

theorem delayVia_of_source_fault (h : port.answer 0 source = .error fault) :
    s.delayVia port source target = (.error fault, s) := by
  simp only [delayVia, performVia, delayJob, Job.runVia, h]

theorem delayVia_of_target_fault (ha : port.answer 0 source = .ok a)
    (h : port.answer 1 target = .error fault) :
    s.delayVia port source target = (.error fault, s) := by
  simp only [delayVia, performVia, delayJob, Job.runVia, ha, h]

theorem delayVia_of_found (ha : port.answer 0 source = .ok a) (hb : port.answer 1 target = .ok b) :
    s.delayVia port source target = ((s.memory.evaluate s.env a b).1,
      { s with memory := (s.memory.evaluate s.env a b).2 }) := by
  simp only [delayVia, performVia, delayJob, Job.runVia, ha, hb]

end Outcomes

theorem delayWithinVia_eq (s : Service) (port : Port) (deadline : Duration) (source target : String) :
    s.delayWithinVia port deadline source target =
      if port.waitForDelay source target ≤ deadline.nanos then s.delayVia port source target
      else (.error (.deadlineExceeded deadline), s) := by
  rw [delayWithinVia, performBy_eq (looksUpFirst_delayJob source target), waiting_delayJob]
  by_cases hfits : port.waitForDelay source target ≤ deadline.nanos
  · rw [if_pos hfits, if_pos hfits]
    rfl
  · rw [if_neg hfits, if_neg hfits]

/-- What an evaluation fails for is the distance, never the time. -/
theorem evaluate_ne_deadlineExceeded (m : Memory) (env : Environment) (a b : Node) (d : Duration) :
    (m.evaluate env a b).1 ≠ .error (.deadlineExceeded d) := by
  have hcompute : Memory.compute env a b ≠ .error (.deadlineExceeded d) := by
    simp only [Memory.compute]
    split <;> simp
  intro hpassed
  rcases m.evaluate_cases env a b with ⟨_, _, h, _⟩ | ⟨_, _, hfault, h, _⟩ | ⟨_, _, _, h, _⟩ <;>
    cases h.symm.trans hpassed
  exact hcompute hfault

/-- A delay that says that some deadline has passed, as one of its lookups said, has changed nothing. -/
theorem delayVia_of_deadlineExceeded {s : Service} {port : Port} {source target : String}
    {d : Duration} (h : (s.delayVia port source target).1 = .error (.deadlineExceeded d)) :
    (s.delayVia port source target).2 = s := by
  cases ha : port.answer 0 source with
  | error fault => rw [delayVia_of_source_fault ha]
  | ok a =>
    cases hb : port.answer 1 target with
    | error fault => rw [delayVia_of_target_fault ha hb]
    | ok b =>
      rw [delayVia_of_found ha hb] at h
      exact absurd h (evaluate_ne_deadlineExceeded _ _ a b d)

end Service

/-- Whatever the lookups find and however long they take, a delay with a deadline is the delay without
    one, in its answer and in all that the service remembers, if its lookups are answered by then. If
    not, the answer is that the deadline has passed, and the service is as it was. So an answer that a
    deadline has passed never comes with anything stored or counted. Lookups without waiting meet every
    deadline, the zero one too. The service's own calls are those through its environment's port. -/
theorem delayWithinVia_all_or_nothing (s : Service) (port : Port) (deadline : Duration)
    (source target : String) :
    (s.delayWithinVia port deadline source target =
      if port.waitForDelay source target ≤ deadline.nanos then s.delayVia port source target
      else (.error (.deadlineExceeded deadline), s)) ∧
    (∀ d, (s.delayWithinVia port deadline source target).1 = .error (.deadlineExceeded d) →
      (s.delayWithinVia port deadline source target).2 = s) ∧
    (port.wait 0 source = 0 ∧ port.wait 1 target = 0 →
      s.delayWithinVia port deadline source target = s.delayVia port source target) ∧
    s.delay source target = s.delayVia s.env.port source target ∧
    s.delayWithin deadline source target = s.delayWithinVia s.env.port deadline source target := by
  have hwithin := s.delayWithinVia_eq port deadline source target
  refine ⟨hwithin, ?_, ?_, s.delay_eq_delayVia _ _, s.delayWithin_eq_delayWithinVia _ _ _⟩
  · intro d hpassed
    rw [hwithin] at hpassed ⊢
    split at hpassed
    · next hfits =>
      rw [if_pos hfits]
      exact Service.delayVia_of_deadlineExceeded hpassed
    · next hlate => rw [if_neg hlate]
  · rintro ⟨hsource, htarget⟩
    have hnowait : port.waitForDelay source target = 0 := by
      unfold Port.waitForDelay
      split <;> omega
    rw [hwithin, hnowait, if_pos (Nat.zero_le _)]

open TwoNodes

/-- Two lookups of three milliseconds are too long for five, not for six; and answered at once they are
    in time for the deadline zero. -/
theorem delayWithinVia_of_three_millis :
    let s := service 20000000 high_ok
    let port (wait : Nat) : Port := ⟨fun _ => s.env.answer, fun _ _ => wait⟩
    s.delayWithinVia (port 3000000) ⟨5000000, by decide⟩ "a" "b" =
      (.error (.deadlineExceeded ⟨5000000, by decide⟩), s) ∧
    (∃ r, (s.delayWithinVia (port 3000000) ⟨6000000, by decide⟩ "a" "b").1 = .ok r) ∧
    ∃ r, (s.delayWithinVia (port 0) .zero "a" "b").1 = .ok r := by
  intro s port
  have hsource : s.env.answer "a" = .ok lower := answer_lower
  have htarget : s.env.answer "b" = .ok (upper 20000000 high_ok) := answer_upper
  have hwait (wait : Nat) : (port wait).waitForDelay "a" "b" = wait + wait := by
    rw [Port.waitForDelay, show (port wait).answer 0 "a" = .ok lower from hsource]
  have hfound (wait : Nat) : ∃ r, (s.delayVia (port wait) "a" "b").1 = .ok r := by
    obtain ⟨computed, hcomputed⟩ := evaluate_first finite_high
    rw [Service.delayVia_of_found hsource htarget]
    exact ⟨_, hcomputed⟩
  refine ⟨?_, ?_, ?_⟩
  · rw [(delayWithinVia_all_or_nothing s (port 3000000) ⟨5000000, by decide⟩ "a" "b").1, hwait]
    exact if_neg (by decide)
  · rw [(delayWithinVia_all_or_nothing s (port 3000000) ⟨6000000, by decide⟩ "a" "b").1, hwait,
      if_pos (by decide)]
    exact hfound 3000000
  · rw [(delayWithinVia_all_or_nothing s (port 0) .zero "a" "b").2.2.1 ⟨rfl, rfl⟩]
    exact hfound 0

end LightCone
