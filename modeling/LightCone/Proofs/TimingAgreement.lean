import LightCone.Proofs.Cancellation
import LightCone.Proofs.IdSets
import LightCone.Proofs.Provenance

/-!
The timing of a set and the worst pair of a batch agree.

A timing evaluates the pairs of its nodes one after another, up to a fault; a batch has a job for
every pair, and looks for the worst one among the results. The stored delays may be of any age and
of any nodes. This file

1. gives the delay that a memory has for two nodes at a finite distance (`Memory.delayOf`), and
   shows that an evaluation of another pair does not change it;
2. defines the longest delay of some pairs (`IsLongest`), of which there is one at most; the search
   of a timing finds it (`run_worstDelayJob_of_finite`), and so does a batch of all pairs, in any
   order (`worst_of_batch`);
3. tells the nodes that a set resolves to by their ids (`Environment.foundIds`);
4. concludes when a set has a timing, and what it says, against single delays and against the worst
   pair of the active nodes (`consensusTiming_agrees`).
-/
namespace LightCone

/-! ## The delays that a memory has -/

/-- The pair of ids of two nodes. -/
def idsOf (p : Node × Node) : NodePair := .of p.1.id p.2.id

/-- The distance of two nodes is finite. -/
def FiniteApart (p : Node × Node) : Prop := (p.1.position.distance p.2.position).isFinite = true

namespace Memory

variable {env : Environment} {p q : Node × Node}

/-- The delay that two nodes get at a time: the stored one, or what their distance gives. -/
def delayOf (m : Memory) (env : Environment) (p : Node × Node) : Duration :=
  match m.delays.get? (idsOf p) env.now with
  | some stored => stored.delay
  | none => env.delayBetween p.1 p.2

theorem evaluate_of_finite (m : Memory) (env : Environment) (h : FiniteApart p) :
    ∃ r, (m.evaluate env p.1 p.2).1 = .ok r ∧ r.delay = m.delayOf env p := by
  cases hget : m.delays.get? (.of p.1.id p.2.id) env.now with
  | some stored =>
    refine ⟨answerStored p.1 p.2 stored true, by simp only [evaluate, hget], ?_⟩
    simp only [delayOf, idsOf, hget, answerStored]
  | none =>
    refine ⟨_, evaluate_of_missing hget h, ?_⟩
    simp only [delayOf, idsOf, hget, answerStored, Environment.delayBetween]

/-- Evaluating one pair does not change the delay of another. -/
theorem delayOf_evaluate (m : Memory) (h : idsOf p ≠ idsOf q) :
    (m.evaluate env p.1 p.2).2.delayOf env q = m.delayOf env q := by
  have hget : (m.evaluate env p.1 p.2).2.delays.get? (idsOf q) env.now =
      m.delays.get? (idsOf q) env.now := by
    rw [snd_evaluate]
    exact get?_delaysAfter_of_ne h
  rw [delayOf, hget, delayOf]

/-- With the pairs told apart, those after the first one keep their delays when it is evaluated. -/
theorem delayOf_evaluate_rest (m : Memory) (env : Environment) {rest : List (Node × Node)}
    (h : ((p :: rest).map idsOf).Nodup) :
    ∀ q ∈ rest, (m.evaluate env p.1 p.2).2.delayOf env q = m.delayOf env q := by
  intro q hq
  apply m.delayOf_evaluate
  intro hsame
  have hfresh := (List.nodup_cons.mp h).1
  exact hfresh (hsame ▸ List.mem_map_of_mem hq)

end Memory

/-! ## The longest delay -/

/-- A delay is the longest of those that some pairs have. -/
structure IsLongest (delay : Node × Node → Duration) (pairs : List (Node × Node)) (d : Duration) :
    Prop where
  attained : ∃ p ∈ pairs, delay p = d
  bound : ∀ p ∈ pairs, delay p ≤ d

theorem IsLongest.unique {delay : Node × Node → Duration} {pairs pairs' : List (Node × Node)}
    {d d' : Duration} (h : IsLongest delay pairs d) (h' : IsLongest delay pairs' d')
    (hsame : ∀ p, p ∈ pairs ↔ p ∈ pairs') : d = d' := by
  obtain ⟨p, hp, rfl⟩ := h.attained
  obtain ⟨q, hq, rfl⟩ := h'.attained
  have hpq : (delay p).nanos ≤ (delay q).nanos := h'.bound p ((hsame p).mp hp)
  have hqp : (delay q).nanos ≤ (delay p).nanos := h.bound q ((hsame q).mpr hq)
  exact Duration.ext (Nat.le_antisymm hpq hqp)

section Longest

variable {delay : Node × Node → Duration} {pairs : List (Node × Node)}

/-- Looked for from zero, it is the longest delay of the pairs, if there is one. -/
theorem isLongest_longestOf (h : pairs ≠ []) :
    IsLongest delay pairs (longestOf delay .zero pairs) := by
  obtain ⟨_, hbound, hfound⟩ : Duration.zero ≤ longestOf delay .zero pairs ∧ _ ∧ _ :=
    longestOf_spec .zero
  refine ⟨?_, hbound⟩
  rcases hfound with hzero | hsome
  · obtain ⟨p, hp⟩ := List.exists_mem_of_ne_nil pairs h
    have hle : (delay p).nanos ≤ _ := hbound p hp
    rw [hzero] at hle ⊢
    exact ⟨p, hp, Duration.ext (Nat.le_zero.mp hle)⟩
  · exact hsome

end Longest

/-! ## The search of a timing -/

/-- With all distances finite the search comes to an end, with the longest of the delays that the
    memory has at its start. -/
theorem run_worstDelayJob_of_finite {env : Environment} {pairs : List (Node × Node)}
    (hids : (pairs.map idsOf).Nodup) (hfinite : ∀ p ∈ pairs, FiniteApart p) (worst : Duration)
    (m : Memory) : ((worstDelayJob worst pairs).run env m).1 =
      .ok (longestOf (m.delayOf env) worst pairs) := by
  induction pairs generalizing worst m with
  | nil => rfl
  | cons p rest ih =>
    obtain ⟨hp, hrest⟩ := List.forall_mem_cons.mp hfinite
    obtain ⟨r, hanswer, hdelay⟩ := m.evaluate_of_finite env hp
    have hsame := m.delayOf_evaluate_rest env hids
    obtain ⟨a, b⟩ := p
    simp only [worstDelayJob, Job.run, hanswer, hdelay]
    rw [ih (List.nodup_cons.mp hids).2 hrest, longestOf, longestOf, List.foldl_cons]
    exact congrArg Except.ok (List.foldl_ext _ _ _ fun worst q hq => by rw [hsame q hq])

/-! ## The worst pair of a batch -/

/-- Finishing the jobs of pairs gives each the delay that the memory has for it. -/
theorem finish_pairJobs {env : Environment} {pairs : List (Node × Node)}
    (hids : (pairs.map idsOf).Nodup) (hfinite : ∀ p ∈ pairs, FiniteApart p) (m : Memory) :
    (Pool.finish env (pairs.map fun p => (idsOf p, pairJob p.1 p.2)) m).1 =
      pairs.map fun p => (idsOf p, .ok (m.delayOf env p)) := by
  induction pairs generalizing m with
  | nil => rfl
  | cons p rest ih =>
    obtain ⟨hp, hrest⟩ := List.forall_mem_cons.mp hfinite
    obtain ⟨r, hanswer, hdelay⟩ := m.evaluate_of_finite env hp
    have hsame := m.delayOf_evaluate_rest env hids
    have hjob : Pool.finishJob env (pairJob p.1 p.2) m =
        (.ok (m.delayOf env p), (m.evaluate env p.1 p.2).2.count (.batchItem true)) := by
      rw [← hdelay]
      simp only [Pool.finishJob, pairJob, Pool.ended, Job.run, hanswer]
      rfl
    simp only [List.map_cons, Pool.finish, hjob, ih (List.nodup_cons.mp hids).2 hrest]
    refine congrArg _ (List.map_congr_left fun q hq => ?_)
    show (idsOf q, Except.ok ((m.evaluate env p.1 p.2).2.delayOf env q)) = _
    rw [hsame q hq]

/-- Among pairs with delays the worst one is at least as long as any. -/
theorem worstPair_spec (l : List (NodePair × Duration)) :
    match worstPair l with
    | none => l = []
    | some w => w ∈ l ∧ ∀ q ∈ l, q.2 ≤ w.2 := by
  induction l with
  | nil => rfl
  | cons p rest ih =>
    rw [worstPair]
    cases hrest : worstPair rest with
    | none =>
      rw [hrest] at ih
      subst ih
      simp only [List.mem_singleton, forall_eq, true_and]
      exact Nat.le_refl _
    | some q =>
      rw [hrest] at ih
      obtain ⟨hmem, hbound⟩ := ih
      by_cases hworse : worse q p
      · have hle : p.2.nanos ≤ q.2.nanos := by
          simp only [worse, Bool.or_eq_true, Bool.and_eq_true, decide_eq_true_eq] at hworse
          rcases hworse with hlt | ⟨hsame, _⟩
          · exact Nat.le_of_lt hlt
          · rw [hsame]
        simp only [hworse, if_true]
        exact ⟨List.mem_cons_of_mem _ hmem, List.forall_mem_cons.mpr ⟨hle, hbound⟩⟩
      · have hle : q.2.nanos ≤ p.2.nanos := by
          simp only [worse, Bool.or_eq_true, not_or, decide_eq_true_eq] at hworse
          exact Nat.not_lt.mp hworse.1
        simp only [hworse]
        refine ⟨List.mem_cons_self, List.forall_mem_cons.mpr ⟨Nat.le_refl _, ?_⟩⟩
        exact fun x hx => Nat.le_trans (hbound x hx) hle

/-- A batch over the pairs of some nodes finds the longest delay that the memory has for them, in
    whatever order its jobs run. -/
theorem worst_of_batch {env : Environment} {nodes : List Node} {m m' : Memory}
    {history : List Happening} {o : BatchOutcome NodePair Duration}
    (hpairs : pairsOf (distinctNodes nodes) ≠ [])
    (hfinite : ∀ p ∈ pairsOf (distinctNodes nodes), FiniteApart p)
    (hbatch : Pool.Batch env (pairJobs nodes) .never m history o m') :
    ∃ pair d, worstPair o.results.entries = some (pair, d) ∧
      IsLongest (m.delayOf env) (pairsOf (distinctNodes nodes)) d := by
  have hids := nodup_pairKeys (pairwise_distinctNodes nodes)
  have hknown : ToldApart (· ∈ distinctNodes nodes) :=
    fun _ _ ha hb hid => eq_of_mem_distinctNodes ha hb hid
  obtain ⟨_, hresults, _⟩ := Pool.finish_batch hknown (separate_pairJobs env nodes) hbatch
  have hfinish : (Pool.finish env (pairJobs nodes) m).1 = _ := finish_pairJobs hids hfinite m
  have hentry {pair : NodePair} {d : Duration} : (pair, d) ∈ o.results.entries ↔
      ∃ p ∈ pairsOf (distinctNodes nodes), idsOf p = pair ∧ m.delayOf env p = d := by
    rw [← Table.find?_eq_some_iff, hresults, hfinish]
    simp only [List.mem_map, Prod.mk.injEq, Except.ok.injEq]
  have hworst := worstPair_spec o.results.entries
  cases hfound : worstPair o.results.entries with
  | none =>
    rw [hfound] at hworst
    obtain ⟨p, hp⟩ := List.exists_mem_of_ne_nil _ hpairs
    have hmem := hentry.mpr ⟨p, hp, rfl, rfl⟩
    rw [hworst] at hmem
    exact absurd hmem List.not_mem_nil
  | some w =>
    rw [hfound] at hworst
    obtain ⟨hmem, hbound⟩ := hworst
    obtain ⟨p, hp, _, hdelay⟩ := hentry.mp hmem
    refine ⟨w.1, w.2, rfl, ⟨p, hp, hdelay⟩, ?_⟩
    intro q hq
    exact hbound (idsOf q, m.delayOf env q) (hentry.mpr ⟨q, hq, rfl, rfl⟩)

/-! ## The nodes of a set -/

namespace Environment

variable {env : Environment}

/-- The ids of a list that resolve. -/
def foundIds (env : Environment) (ids : List String) : Finset String :=
  ids.toFinset.filter fun id => (env.answer id).isOk = true

theorem mem_foundIds {ids : List String} {id : String} :
    id ∈ env.foundIds ids ↔ id ∈ ids ∧ ∃ a, env.answer id = .ok a := by
  simp only [foundIds, Finset.mem_filter, List.mem_toFinset]
  cases env.answer id <;> simp [Except.isOk, Except.toBool]

/-- A node is found for each of them. -/
theorem length_resolved (env : Environment) (ids : List String) :
    (env.resolved (distinctIds ids)).length = (env.foundIds ids).card := by
  have hnodup : ((distinctIds ids).filter fun id => (env.answer id).isOk).Nodup :=
    ((sorted_distinctIds ids).imp String.ne_of_lt).filter _
  have hsame : ((distinctIds ids).filter fun id => (env.answer id).isOk).toFinset =
      env.foundIds ids := by
    ext id
    simp only [foundIds, List.mem_toFinset, List.mem_filter, Finset.mem_filter, mem_distinctIds]
  rw [← hsame, List.toFinset_card_of_nodup hnodup]
  unfold resolved
  rw [List.length_filterMap_eq_countP, ← List.countP_eq_length_filter]
  refine List.countP_congr fun id _ => ?_
  cases env.answer id <;> rfl

/-- The nodes are found in the order of their ids. -/
theorem Keyed.sorted_resolved (hkeyed : env.Keyed) (ids : List String) :
    (env.resolved (distinctIds ids)).Pairwise fun a b => a.id < b.id := by
  refine List.pairwise_filterMap.mpr ((sorted_distinctIds ids).imp fun {x y} hxy a ha b hb => ?_)
  have hfound {id : String} {node : Node} (h : (env.answer id).toOption = some node) :
      node.id = id := by
    cases hanswer : env.answer id with
    | error fault =>
      rw [hanswer] at h
      cases h
    | ok found =>
      rw [hanswer] at h
      cases h
      exact hkeyed hanswer
  rw [hfound ha, hfound hb]
  exact hxy

/-- Their pairs are those of two ids in order. -/
theorem Keyed.mem_pairs_resolved (hkeyed : env.Keyed) {ids : List String} {a b : Node} :
    (a, b) ∈ pairsOf (env.resolved (distinctIds ids)) ↔
      ∃ x ∈ ids, ∃ y ∈ ids, x < y ∧ env.answer x = .ok a ∧ env.answer y = .ok b := by
  rw [mem_pairsOf_iff String.lt_asymm (hkeyed.sorted_resolved ids), mem_resolved, mem_resolved]
  simp only [mem_distinctIds]
  refine ⟨?_, ?_⟩
  · rintro ⟨⟨x, hx, ha⟩, ⟨y, hy, hb⟩, hab⟩
    rw [hkeyed ha, hkeyed hb] at hab
    exact ⟨x, hx, y, hy, hab, ha, hb⟩
  · rintro ⟨x, hx, y, hy, hxy, ha, hb⟩
    refine ⟨⟨x, hx, ha⟩, ⟨y, hy, hb⟩, ?_⟩
    rw [hkeyed ha, hkeyed hb]
    exact hxy

end Environment

theorem pairsOf_ne_nil {α : Type} {l : List α} (h : 2 ≤ l.length) : pairsOf l ≠ [] := by
  match l with
  | [] => exact absurd h (by simp)
  | [a] => exact absurd h (by simp)
  | a :: b :: rest => simp [pairsOf]

/-! ## The timing of a set -/

namespace Service

variable {s : Service} {ids : List String}

/-- A delay is the longest that is given between two of some ids, asked for in their order. -/
structure WorstOf (s : Service) (found : Finset String) (worst : Duration) : Prop where
  attained : ∃ x ∈ found, ∃ y ∈ found, x < y ∧ ∃ r, (s.delay x y).1 = .ok r ∧ r.delay = worst
  bound : ∀ x ∈ found, ∀ y ∈ found, x < y → ∃ r, (s.delay x y).1 = .ok r ∧ r.delay ≤ worst

/-- The nodes that a set resolves to are at finite distances. -/
def FiniteSet (s : Service) (ids : List String) : Prop :=
  ∀ x ∈ ids, ∀ y ∈ ids, x < y → ∀ a b, s.env.answer x = .ok a → s.env.answer y = .ok b →
    FiniteApart (a, b)

theorem FiniteSet.pairs (h : s.FiniteSet ids) (hkeyed : s.env.Keyed) :
    ∀ p ∈ pairsOf (s.env.resolved (distinctIds ids)), FiniteApart p := by
  rintro ⟨a, b⟩ hp
  obtain ⟨x, hx, y, hy, hxy, ha, hb⟩ := hkeyed.mem_pairs_resolved.mp hp
  exact h x hx y hy hxy a b ha hb

/-- What the memory has for the nodes of a set is what is given for its ids. -/
theorem worstOf_of_isLongest (hkeyed : s.env.Keyed) (hfinite : s.FiniteSet ids) {worst : Duration}
    (h : IsLongest (s.memory.delayOf s.env) (pairsOf (s.env.resolved (distinctIds ids))) worst) :
    s.WorstOf (s.env.foundIds ids) worst := by
  have hgiven {x y : String} {a b : Node} (hx : x ∈ ids) (hy : y ∈ ids) (hxy : x < y)
      (ha : s.env.answer x = .ok a) (hb : s.env.answer y = .ok b) :
      ∃ r, (s.delay x y).1 = .ok r ∧ r.delay = s.memory.delayOf s.env (a, b) := by
    rw [delay_of_answers ha hb]
    exact s.memory.evaluate_of_finite s.env (p := (a, b)) (hfinite x hx y hy hxy a b ha hb)
  refine ⟨?_, ?_⟩
  · obtain ⟨⟨a, b⟩, hp, hworst⟩ := h.attained
    obtain ⟨x, hx, y, hy, hxy, ha, hb⟩ := hkeyed.mem_pairs_resolved.mp hp
    obtain ⟨r, hr, hdelay⟩ := hgiven hx hy hxy ha hb
    exact ⟨x, Environment.mem_foundIds.mpr ⟨hx, a, ha⟩, y, Environment.mem_foundIds.mpr ⟨hy, b, hb⟩,
      hxy, r, hr, hdelay.trans hworst⟩
  · intro x hx y hy hxy
    obtain ⟨hx, a, ha⟩ := Environment.mem_foundIds.mp hx
    obtain ⟨hy, b, hb⟩ := Environment.mem_foundIds.mp hy
    obtain ⟨r, hr, hdelay⟩ := hgiven hx hy hxy ha hb
    refine ⟨r, hr, ?_⟩
    rw [hdelay]
    exact h.bound (a, b) (hkeyed.mem_pairs_resolved.mpr ⟨x, hx, y, hy, hxy, ha, hb⟩)

theorem run_worstOfSetJob_of_few {env : Environment} {ids : List String} (m : Memory)
    (hfew : (env.resolved ids).length < leastValidators) :
    (worstOfSetJob ids).run env m =
      (.error (.insufficientValidators leastValidators (env.resolved ids).length), m) := by
  unfold worstOfSetJob
  rw [Job.run_bind, run_resolveJob]
  simp only [hfew, if_true]
  rfl

/-- With fewer than two nodes found there is no timing, and only the miss is counted. -/
theorem consensusTiming_of_few (hget : s.memory.timings.get? (fingerprint ids) s.now = none)
    (hfew : (s.env.foundIds ids).card < leastValidators) :
    s.consensusTiming ids =
      (.error (.insufficientValidators leastValidators (s.env.foundIds ids).card),
        s.count (.cacheMiss .timing)) := by
  rw [← Environment.length_resolved] at hfew ⊢
  have hjob := run_worstOfSetJob_of_few (s.memory.count (.cacheMiss .timing)) hfew
  apply consensusTiming_of_fault hget
  show (((worstOfSetJob (distinctIds ids)).run s.env (s.memory.count (.cacheMiss .timing))).1,
    s.remember ((worstOfSetJob (distinctIds ids)).run s.env
      (s.memory.count (.cacheMiss .timing))).2) = _
  rw [hjob]
  rfl

/-- Otherwise the timing is derived from the longest delay that the memory has for its nodes. -/
theorem consensusTiming_of_many (hget : s.memory.timings.get? (fingerprint ids) s.now = none)
    (hkeyed : s.env.Keyed) (hfinite : s.FiniteSet ids)
    (hmany : leastValidators ≤ (s.env.foundIds ids).card) : ∃ worst,
    (s.consensusTiming ids).1 = .ok (.derive worst (s.env.foundIds ids).card (fingerprint ids) s.now
      s.settings.consensus) ∧
    IsLongest (s.memory.delayOf s.env) (pairsOf (s.env.resolved (distinctIds ids))) worst := by
  rw [← Environment.length_resolved] at hmany ⊢
  have hids : ((pairsOf (s.env.resolved (distinctIds ids))).map idsOf).Nodup :=
    nodup_pairKeys ((hkeyed.sorted_resolved ids).imp String.ne_of_lt)
  have hjob : ((worstOfSetJob (distinctIds ids)).run s.env (s.memory.count (.cacheMiss .timing))).1 =
      .ok ((s.env.resolved (distinctIds ids)).length,
        longestOf (s.memory.delayOf s.env) .zero (pairsOf (s.env.resolved (distinctIds ids)))) := by
    rw [run_worstOfSetJob, if_neg (Nat.not_lt.mpr hmany),
      run_worstDelayJob_of_finite hids (hfinite.pairs hkeyed)]
    rfl
  refine ⟨_, ?_, isLongest_longestOf (pairsOf_ne_nil hmany)⟩
  rw [consensusTiming_of_worst hget (Prod.ext hjob rfl)]
  rfl

end Service

/-! ## The active nodes -/

/-- The active nodes are listed in the order of their ids. -/
theorem Directory.Keyed.sorted_active {d : Directory} (h : d.Keyed) :
    d.active.Pairwise fun a b => a.id < b.id :=
  h.sorted_all.sublist List.filter_sublist

/-- Nodes with distinct ids are their own first records. -/
theorem distinctNodes_eq {nodes : List Node} (h : nodes.Pairwise fun a b => a.id ≠ b.id) :
    distinctNodes nodes = nodes := by
  induction nodes with
  | nil => rfl
  | cons n rest ih =>
    obtain ⟨hfirst, hrest⟩ := List.pairwise_cons.mp h
    rw [distinctNodes, ih hrest, List.filter_eq_self.mpr]
    intro m hm
    exact decide_eq_true (hfirst m hm).symm

namespace Service

variable {s s' : Service} {ids : List String}

/-- The ids of the active nodes resolve to these, if their lookups are answered. -/
theorem mem_resolved_active (hkeyed : s.env.directory.Keyed)
    (hactive : ∀ id, id ∈ ids ↔ id ∈ Directory.ids s.env.directory.active)
    (hanswered : ∀ id ∈ ids, id ∉ s.env.access.failing) {a : Node} :
    a ∈ s.env.resolved (distinctIds ids) ↔ a ∈ s.env.directory.active := by
  have hanswer {n : Node} (hn : n ∈ s.env.directory.active) : s.env.answer n.id = .ok n := by
    have hid : n.id ∈ ids := (hactive n.id).mpr (List.mem_map_of_mem hn)
    have hfind : s.env.directory.nodes.find? n.id = some n := Directory.holds_of_mem_active hkeyed hn
    rw [Environment.answer, if_neg (hanswered n.id hid), Directory.get, hfind]
  rw [Environment.mem_resolved]
  refine ⟨?_, ?_⟩
  · rintro ⟨id, hid, ha⟩
    obtain ⟨n, hn, rfl⟩ := List.mem_map.mp ((hactive id).mp (mem_distinctIds.mp hid))
    rw [hanswer hn] at ha
    cases ha
    exact hn
  · intro ha
    have hid : a.id ∈ ids := (hactive a.id).mpr (List.mem_map_of_mem ha)
    exact ⟨a.id, mem_distinctIds.mpr hid, hanswer ha⟩

/-- However the worst pair of the active nodes is looked for, it has the longest delay that the
    memory has for them. -/
theorem worst_of_active (hkeyed : s.env.directory.Keyed) (hfinite : s.FiniteSet ids)
    (hactive : ∀ id, id ∈ ids ↔ id ∈ Directory.ids s.env.directory.active)
    (hanswered : ∀ id ∈ ids, id ∉ s.env.access.failing) {worst : Duration}
    (hworst : IsLongest (s.memory.delayOf s.env) (pairsOf (s.env.resolved (distinctIds ids))) worst)
    {history : List Happening} {answer : Answer} (hserves : s.Serves .maxDelay history answer s') :
    ∃ pair, answer = .worst (some (pair, worst)) := by
  have hfound := Environment.keyed_of_directory hkeyed
  have hsorted := hkeyed.sorted_active
  have hsame (p : Node × Node) : p ∈ pairsOf (distinctNodes s.env.directory.active) ↔
      p ∈ pairsOf (s.env.resolved (distinctIds ids)) := by
    obtain ⟨a, b⟩ := p
    rw [distinctNodes_eq (hsorted.imp String.ne_of_lt), mem_pairsOf_iff String.lt_asymm hsorted,
      mem_pairsOf_iff String.lt_asymm (hfound.sorted_resolved ids),
      mem_resolved_active hkeyed hactive hanswered, mem_resolved_active hkeyed hactive hanswered]
  cases hserves with
  | alone halone => exact absurd halone Bool.noConfusion
  | @maxDelay _ o m batch =>
    have hpairs : pairsOf (distinctNodes s.env.directory.active) ≠ [] := by
      obtain ⟨p, hp, _⟩ := hworst.attained
      exact List.ne_nil_of_mem ((hsame p).mpr hp)
    obtain ⟨pair, d, hpair, hd⟩ :=
      worst_of_batch hpairs (fun p hp => hfinite.pairs hfound p ((hsame p).mp hp)) batch
    rw [hpair, hd.unique hworst hsame]
    exact ⟨pair, rfl⟩

end Service

/-! ## Both ways to the worst delay -/

/-- After any run over a directory of records, with the jobs of a batch in any order, take a set of
    ids without a fresh timing, whose nodes are at finite distances. It has a timing just if two of
    its ids resolve. The timing then counts the ids that resolve, and its delay is the longest one
    that would be given at that moment between two of them, but at least the least delay to count
    with; for the ids of all active nodes that is the delay of the worst pair, in whatever order this
    is looked for. Without a timing the answer is that there are too few validators, and a miss is
    counted, but nothing else changes. -/
theorem consensusTiming_agrees {settings : Settings} {nodes : List Node} {directory : Directory}
    {access : Access} {now : Instant} {metrics : Option Metrics} {start s : Service}
    (hdirectory : Directory.ofList nodes = .ok directory)
    (hstart : Service.start settings directory access now metrics = .ok start)
    {requests : List Request} {history : List Happening} {answers : List Answer}
    (hrun : Service.Run Service.anyTime start requests history answers s) {ids : List String}
    (hmissing : s.memory.timings.get? (fingerprint ids) s.now = none)
    (hfinite : s.FiniteSet ids) :
    ((∃ timing, (s.consensusTiming ids).1 = .ok timing) ↔ 2 ≤ (s.env.foundIds ids).card) ∧
    (∀ timing, (s.consensusTiming ids).1 = .ok timing →
      timing.validators = (s.env.foundIds ids).card ∧
      ∃ worst, s.WorstOf (s.env.foundIds ids) worst ∧
        timing.maxDelay = worst.longer s.settings.consensus.minPropagationDelay ∧
        ((∀ id, id ∈ ids ↔ id ∈ Directory.ids s.env.directory.active) →
          (∀ id ∈ ids, id ∉ s.env.access.failing) →
          ∀ happened answer s', s.Serves .maxDelay happened answer s' →
            ∃ pair, answer = .worst (some (pair, worst)))) ∧
    (∀ fault, (s.consensusTiming ids).1 = .error fault →
      s.consensusTiming ids = (.error (.insufficientValidators 2 (s.env.foundIds ids).card),
        s.count (.cacheMiss .timing))) := by
  have hopened : start.env.directory.Keyed := by
    rw [Service.eq_of_start hstart]
    exact Directory.Keyed.ofList hdirectory
  have hkeyed := hrun.keyed hopened
  have hfound := Environment.keyed_of_directory hkeyed
  by_cases hfew : (s.env.foundIds ids).card < leastValidators
  · have hfault := Service.consensusTiming_of_few hmissing hfew
    refine ⟨?_, ?_, fun _ _ => hfault⟩
    · refine ⟨?_, fun hmany => absurd hfew (Nat.not_lt.mpr hmany)⟩
      rintro ⟨timing, htiming⟩
      rw [hfault] at htiming
      cases htiming
    · intro timing htiming
      rw [hfault] at htiming
      cases htiming
  · have hmany := Nat.not_lt.mp hfew
    obtain ⟨worst, htiming, hworst⟩ := Service.consensusTiming_of_many hmissing hfound hfinite hmany
    rw [htiming]
    refine ⟨⟨fun _ => hmany, fun _ => ⟨_, rfl⟩⟩, ?_, fun fault hfault => by cases hfault⟩
    intro timing hsame
    cases hsame
    refine ⟨rfl, worst, Service.worstOf_of_isLongest hfound hfinite hworst, rfl, ?_⟩
    intro hactive hanswered happened answer s' hserves
    exact Service.worst_of_active hkeyed hfinite hactive hanswered hworst hserves

open TwoNodes in
/-- Two nodes have a timing, and its delay is that of their pair. -/
theorem consensusTiming_agrees_two_nodes : ∃ timing worst,
    ((service 20000000 high_ok).consensusTiming ["a", "b"]).1 = .ok timing ∧
    timing.validators = ((service 20000000 high_ok).env.foundIds ["a", "b"]).card ∧
    timing.maxDelay = worst.longer (.ofMillis 100) ∧
    ∃ pair, ((service 20000000 high_ok).maxDelay).1 = some (pair, worst) := by
  have hrun : Service.Run Service.anyTime (service 20000000 high_ok) [] [] [] _ := .nil
  have hfinite : (service 20000000 high_ok).FiniteSet ["a", "b"] := by
    have hids (x : String) (hx : x ∈ ["a", "b"]) : x = "a" ∨ x = "b" := by simpa using hx
    intro x hx y hy hxy a b ha hb
    rcases hids x hx with rfl | rfl <;> rcases hids y hy with rfl | rfl
    · exact absurd hxy (String.lt_irrefl _)
    · cases ha
      cases hb
      exact finite_high
    · exact absurd hxy (by decide)
    · exact absurd hxy (String.lt_irrefl _)
  have hmissing : (service 20000000 high_ok).memory.timings.get? (fingerprint ["a", "b"]) .epoch =
      none := rfl
  obtain ⟨hiff, hok, _⟩ := consensusTiming_agrees ofList_eq start_eq hrun hmissing hfinite
  have htiming := consensusTiming_ok finite_high
  obtain ⟨hvalidators, worst, _, hdelay, hpair⟩ := hok _ htiming
  obtain ⟨_, hserves⟩ := Service.serves_serve (service 20000000 high_ok) .maxDelay
  obtain ⟨pair, hanswer⟩ := hpair (fun _ => Iff.rfl) (by simp [service]) _ _ _ hserves
  exact ⟨_, worst, htiming, hvalidators, hdelay, pair, by injection hanswer⟩

end LightCone
