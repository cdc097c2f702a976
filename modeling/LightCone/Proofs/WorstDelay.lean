import LightCone.Proofs.Directories
import LightCone.Proofs.Distance
import LightCone.Proofs.Expiry
import LightCone.Proofs.NodePairs
import LightCone.Proofs.Run.Requests

/-!
The worst delay of a validator set.

A timing looks its ids up one after another and then evaluates every pair of the nodes found.
What is stored already may be used, so it has to be what the same nodes would give. This file

1. takes the run of a job with another after it apart (`Job.run_bind`) and gives what lookups
   in order find (`run_resolveJob`);
2. defines that the stored delays between certain nodes are their own (`Memory.FaithfulTo`);
   every evaluation of such nodes then gives the delay between them, and keeps that up;
3. shows that the worst delay is the longest one between two of the nodes
   (`run_worstDelayJob`), and says when a set has a timing, and which (`consensusTiming_eq_ok_iff`).
-/
namespace LightCone

/-! ## Jobs in sequence -/

theorem Job.run_bind {α β : Type} {env : Environment} (job : Job α) (f : α → Job β) (m : Memory) :
    (job.bind f).run env m = (f (job.run env m).1).run env (job.run env m).2 := by
  induction job generalizing m with
  | done value => rfl
  | lookup id next ih => exact ih _ m
  | delay a b next ih => exact ih _ _
  | keep record next ih => exact ih _

namespace Environment

variable {env : Environment}

/-- The network delay over the distance of two nodes. -/
def delayBetween (env : Environment) (a b : Node) : Duration :=
  networkDelay (a.position.distance b.position) env.settings.propagation.networkFactor

theorem delayBetween_comm (a b : Node) : env.delayBetween a b = env.delayBetween b a := by
  rw [delayBetween, delayBetween, Position.distance_comm]

end Environment

theorem run_resolveJob {env : Environment} (ids : List String) (m : Memory) :
    (resolveJob ids).run env m = (env.resolved ids, m) := by
  induction ids with
  | nil => rfl
  | cons id rest ih =>
    unfold resolveJob Environment.resolved
    simp only [Job.run, List.filterMap_cons]
    cases env.answer id with
    | error fault => exact ih
    | ok node =>
      rw [Job.run_bind, ih]
      rfl

/-! ## Stored delays and the nodes they belong to -/

/-- What is stored and fresh for two nodes of a kind is what they would give now. -/
def Memory.FaithfulTo (env : Environment) (known : Node → Prop) (m : Memory) : Prop :=
  ∀ ⦃a b stored⦄, known a → known b →
    m.delays.get? (.of a.id b.id) env.now = some stored →
      (a.position.distance b.position).isFinite = true ∧
        stored.distance = a.position.distance b.position ∧ stored.delay = env.delayBetween a b

/-- The ids of the nodes of a kind tell them apart. -/
def ToldApart (known : Node → Prop) : Prop := ∀ ⦃a b⦄, known a → known b → a.id = b.id → a = b

theorem Memory.faithful_initial (env : Environment) (known : Node → Prop) (settings : Settings)
    (metrics : Option Metrics) : (Memory.initial settings metrics).FaithfulTo env known := by
  intro a b stored _ _ hget
  cases hget

namespace Memory.FaithfulTo

variable {env : Environment} {known : Node → Prop} {m : Memory} {a b : Node}

/-- Two such nodes at a finite distance get the delay between them. -/
theorem evaluate_ok (h : m.FaithfulTo env known) (ha : known a) (hb : known b)
    (hfinite : (a.position.distance b.position).isFinite = true) :
    ∃ r, (m.evaluate env a b).1 = .ok r ∧ r.delay = env.delayBetween a b := by
  cases hget : m.delays.get? (.of a.id b.id) env.now with
  | some stored =>
    obtain ⟨_, _, hdelay⟩ := h ha hb hget
    exact ⟨answerStored a b stored true, by simp only [evaluate, hget], hdelay⟩
  | none => exact ⟨_, evaluate_of_missing hget hfinite, rfl⟩

theorem evaluate_error (h : m.FaithfulTo env known) (ha : known a) (hb : known b)
    (hfinite : (a.position.distance b.position).isFinite ≠ true) :
    ∃ fault, (m.evaluate env a b).1 = .error fault := by
  cases hget : m.delays.get? (.of a.id b.id) env.now with
  | some stored => exact absurd (h ha hb hget).1 hfinite
  | none =>
    obtain ⟨fault, hcompute⟩ : ∃ fault, compute env a b = .error fault := ⟨_, if_neg hfinite⟩
    exact ⟨fault, by simp only [evaluate, hget, hcompute]⟩

/-- What an evaluation stores is what its nodes give, in either order. -/
theorem evaluate (h : m.FaithfulTo env known) (hknown : ToldApart known) (ha : known a)
    (hb : known b) : (m.evaluate env a b).2.FaithfulTo env known := by
  intro x y stored hx hy hget
  rcases m.evaluate_cases env a b with ⟨_, _, _, hdelays⟩ | ⟨_, _, _, _, hdelays⟩ |
    ⟨_, computed, hcompute, _, hdelays⟩
  · rw [hdelays] at hget
    exact h hx hy hget
  · rw [hdelays] at hget
    exact h hx hy hget
  · rw [hdelays] at hget
    -- What is found is the new entry, of these nodes in either order, or an old one.
    obtain ⟨e, hfind, hfresh, rfl⟩ := ExpiringCache.get?_eq_some_iff.mp hget
    simp only [ExpiringCache.insert, ExpiringCache.insertFor, Table.find?_insert] at hfind
    split at hfind
    · next hpair =>
      cases hfind
      have hfinite := finite_of_compute hcompute
      obtain ⟨hdelay, hdistance, _⟩ := compute_ok hcompute
      rw [hdistance] at hdelay
      rcases NodePair.of_eq_of_iff.mp hpair with ⟨hax, hby⟩ | ⟨hay, hbx⟩
      · obtain rfl := hknown ha hx hax
        obtain rfl := hknown hb hy hby
        exact ⟨hfinite, hdistance, hdelay⟩
      · obtain rfl := hknown ha hy hay
        obtain rfl := hknown hb hx hbx
        rw [Position.distance_comm, Environment.delayBetween_comm]
        exact ⟨hfinite, hdistance, hdelay⟩
    · exact h hx hy (ExpiringCache.get?_eq_some_iff.mpr ⟨e, hfind, hfresh, rfl⟩)

end Memory.FaithfulTo

/-! ## The worst delay -/

/-- A delay and those of some pairs, the longest of them. -/
def longestOf (delay : Node × Node → Duration) (worst : Duration) (pairs : List (Node × Node)) :
    Duration :=
  pairs.foldl (fun worst p => worst.longer (delay p)) worst

/-- It is as long as all of them, and one of them. -/
theorem longestOf_spec {delay : Node × Node → Duration} {pairs : List (Node × Node)}
    (worst : Duration) : worst ≤ longestOf delay worst pairs ∧
    (∀ p ∈ pairs, delay p ≤ longestOf delay worst pairs) ∧
    (longestOf delay worst pairs = worst ∨ ∃ p ∈ pairs, delay p = longestOf delay worst pairs) := by
  induction pairs generalizing worst with
  | nil => exact ⟨Nat.le_refl _, by simp, .inl rfl⟩
  | cons p rest ih =>
    obtain ⟨hstart, hrest, hfound⟩ := ih (worst.longer (delay p))
    have hlonger : (worst.longer (delay p)).nanos ≤ _ := hstart
    rw [Duration.nanos_longer] at hlonger
    refine ⟨Nat.le_trans (Nat.le_max_left ..) hlonger, ?_, ?_⟩
    · exact List.forall_mem_cons.mpr ⟨Nat.le_trans (Nat.le_max_right ..) hlonger, hrest⟩
    · rcases hfound with hsame | ⟨q, hq, hsame⟩
      · -- Nothing later is longer, so it is the first pair or what there was before.
        have hcases : worst.longer (delay p) = worst ∨ worst.longer (delay p) = delay p := by
          unfold Duration.longer
          split
          · exact .inr rfl
          · exact .inl rfl
        rcases hcases with hworst | hp
        · exact .inl (hsame.trans hworst)
        · exact .inr ⟨p, List.mem_cons_self, (hsame.trans hp).symm⟩
      · exact .inr ⟨q, List.mem_cons_of_mem _ hq, hsame⟩

namespace Environment

variable {env : Environment}

/-- The longest of a delay and the delays between pairs of nodes. -/
def longestBetween (env : Environment) (worst : Duration) (pairs : List (Node × Node)) : Duration :=
  pairs.foldl (fun worst p => worst.longer (env.delayBetween p.1 p.2)) worst

/-- No delay between two of the nodes is longer. -/
theorem delayBetween_le_longestBetween {worst : Duration} {pairs : List (Node × Node)} {a b : Node}
    (h : (a, b) ∈ pairs) : env.delayBetween a b ≤ env.longestBetween worst pairs := by
  have hspec : _ ∧ (∀ p ∈ pairs, env.delayBetween p.1 p.2 ≤ env.longestBetween worst pairs) ∧ _ :=
    longestOf_spec worst
  exact hspec.2.1 (a, b) h

end Environment

/-- The search for the worst delay of pairs succeeds just if all their distances are finite, and
    then it finds the longest delay between them. -/
theorem run_worstDelayJob {env : Environment} {known : Node → Prop} {m : Memory}
    (h : m.FaithfulTo env known) (hknown : ToldApart known)
    {pairs : List (Node × Node)} (hpairs : ∀ p ∈ pairs, known p.1 ∧ known p.2)
    (worst : Duration) {w : Duration} :
    ((worstDelayJob worst pairs).run env m).1 = .ok w ↔
      (∀ p ∈ pairs, (p.1.position.distance p.2.position).isFinite = true) ∧
        w = env.longestBetween worst pairs := by
  induction pairs generalizing worst m with
  | nil =>
    refine ⟨?_, ?_⟩
    · intro hdone
      cases hdone
      exact ⟨by simp, rfl⟩
    · intro hdone
      rw [hdone.2]
      rfl
  | cons p rest ih =>
    obtain ⟨a, b⟩ := p
    obtain ⟨⟨ha, hb⟩, hrest⟩ := List.forall_mem_cons.mp hpairs
    simp only [worstDelayJob, Job.run, List.forall_mem_cons]
    by_cases hfinite : (a.position.distance b.position).isFinite = true
    · obtain ⟨r, hanswer, hdelay⟩ := h.evaluate_ok ha hb hfinite
      rw [hanswer]
      refine (ih (h.evaluate hknown ha hb) hrest (worst.longer r.delay)).trans ?_
      rw [hdelay]
      exact ⟨fun hw => ⟨⟨hfinite, hw.1⟩, hw.2⟩, fun hw => ⟨hw.1.2, hw.2⟩⟩
    · obtain ⟨fault, hanswer⟩ := h.evaluate_error ha hb hfinite
      rw [hanswer]
      refine ⟨?_, ?_⟩
      · intro herror
        cases herror
      · intro hw
        exact absurd hw.1.1 hfinite

/-- The worst delay of a set is found from two nodes on. -/
theorem run_worstOfSetJob {env : Environment} (ids : List String) (m : Memory) :
    ((worstOfSetJob ids).run env m).1 =
      if (env.resolved ids).length < leastValidators then
        .error (.insufficientValidators leastValidators (env.resolved ids).length)
      else ((worstDelayJob .zero (pairsOf (env.resolved ids))).run env m).1.map fun worst =>
        ((env.resolved ids).length, worst) := by
  unfold worstOfSetJob
  rw [Job.run_bind, run_resolveJob]
  split
  · rfl
  · rw [Job.run_bind]
    rfl

/-- The nodes that ids find are told apart by their ids. -/
theorem Environment.Keyed.toldApart {env : Environment} (hkeyed : env.Keyed) (ids : List String) :
    ToldApart (· ∈ env.resolved ids) := by
  intro a b ha hb hid
  obtain ⟨_, _, ha⟩ := Environment.mem_resolved.mp ha
  obtain ⟨_, _, hb⟩ := Environment.mem_resolved.mp hb
  exact (hkeyed.knows ha).unique (hkeyed.knows hb) hid

/-- It is found just if there are two nodes and all distances are finite. -/
theorem run_worstOfSetJob_eq_ok_iff {env : Environment} {m : Memory} {ids : List String}
    (h : m.FaithfulTo env (· ∈ env.resolved ids)) (hkeyed : env.Keyed) {validators : Nat}
    {worst : Duration} :
    ((worstOfSetJob ids).run env m).1 = .ok (validators, worst) ↔
      leastValidators ≤ (env.resolved ids).length ∧
      (∀ p ∈ pairsOf (env.resolved ids), (p.1.position.distance p.2.position).isFinite = true) ∧
      validators = (env.resolved ids).length ∧
      worst = env.longestBetween .zero (pairsOf (env.resolved ids)) := by
  have hsearch := fun found =>
    run_worstDelayJob h (hkeyed.toldApart ids) (fun _ hp => mem_of_mem_pairsOf hp) .zero (w := found)
  rw [run_worstOfSetJob]
  split
  · next hfew =>
    refine ⟨?_, ?_⟩
    · intro herror
      cases herror
    · intro hmany
      exact absurd hfew (Nat.not_lt.mpr hmany.1)
  · next hmany =>
    cases hjob : ((worstDelayJob .zero (pairsOf (env.resolved ids))).run env m).1 with
    | error fault =>
      refine ⟨?_, ?_⟩
      · intro herror
        cases herror
      · intro hall
        have hok := (hsearch _).mpr ⟨hall.2.1, rfl⟩
        rw [hjob] at hok
        cases hok
    | ok found =>
      obtain ⟨hfinite, rfl⟩ := (hsearch found).mp hjob
      refine ⟨?_, ?_⟩
      · intro hsame
        cases hsame
        exact ⟨Nat.not_lt.mp hmany, hfinite, rfl, rfl⟩
      · intro hall
        rw [hall.2.2.1, hall.2.2.2]
        rfl

/-- With nothing fresh stored for a set, it has a timing just if two of its ids resolve and all
    distances are finite. The timing is derived from the longest delay between two nodes. -/
theorem consensusTiming_eq_ok_iff {s : Service} {ids : List String} {timing : ConsensusTiming}
    (hget : s.memory.timings.get? (fingerprint ids) s.now = none)
    (hfaithful : s.memory.FaithfulTo s.env (· ∈ s.env.resolved (distinctIds ids)))
    (hkeyed : s.env.Keyed) : (s.consensusTiming ids).1 = .ok timing ↔
      leastValidators ≤ (s.env.resolved (distinctIds ids)).length ∧
      (∀ p ∈ pairsOf (s.env.resolved (distinctIds ids)),
        (p.1.position.distance p.2.position).isFinite = true) ∧
      timing = .derive (s.env.longestBetween .zero (pairsOf (s.env.resolved (distinctIds ids))))
        (s.env.resolved (distinctIds ids)).length (fingerprint ids) s.now s.settings.consensus := by
  have hcounted : (s.memory.count (.cacheMiss .timing)).FaithfulTo s.env
    (· ∈ s.env.resolved (distinctIds ids)) := hfaithful
  refine ⟨?_, ?_⟩
  · intro hok
    rcases hjob : (s.count (.cacheMiss .timing)).perform (worstOfSetJob (distinctIds ids))
      with ⟨fault | ⟨validators, worst⟩, s'⟩
    · rw [Service.consensusTiming_of_fault hget hjob] at hok
      cases hok
    · obtain ⟨hmany, hfinite, rfl, rfl⟩ :=
        (run_worstOfSetJob_eq_ok_iff hcounted hkeyed).mp (congrArg Prod.fst hjob)
      have hs' : _ = s' := congrArg Prod.snd hjob
      rw [Service.consensusTiming_of_worst hget hjob] at hok
      cases hok
      rw [← hs']
      exact ⟨hmany, hfinite, rfl⟩
  · intro h
    obtain ⟨hmany, hfinite, rfl⟩ := h
    have hjob := (run_worstOfSetJob_eq_ok_iff hcounted hkeyed).mpr ⟨hmany, hfinite, rfl, rfl⟩
    rw [Service.consensusTiming_of_worst hget (Prod.ext hjob rfl)]
    rfl

end LightCone
