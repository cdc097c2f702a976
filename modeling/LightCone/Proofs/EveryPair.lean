import LightCone.Proofs.TimingAgreement
import Mathlib.Data.Nat.Choose.Basic

/-!
A batch of delays covers every pair once.

A batch is asked for with a list of records, in which an id may stand more than once and at
different positions; the first record of an id is the one that counts. This file

1. says which records those are (`FirstListed`), in which order they stand, and how many pairs they
   form (`card_listedIds`, `length_pairsOf`);
2. shows that finishing the jobs of some pairs gives each what the memory has for it at the start,
   fault or delay (`finish_pairs`);
3. concludes that a batch, in whatever order its jobs run, reports every unordered pair of distinct
   ids once, with what a single evaluation before the batch gives, and comes to one and the same
   memory (`batchDelays_cover_pairs`).
-/
namespace LightCone

/-! ## The first records of a list -/

section Records

variable {nodes : List Node} {x y : Node}

/-- The record is the first one of its id in a list. -/
def FirstListed (nodes : List Node) (x : Node) : Prop :=
  nodes.find? (fun n => n.id = x.id) = some x

/-- The ids of a list of records. -/
def listedIds (nodes : List Node) : Finset String := (nodes.map Node.id).toFinset

/-- In a list of records the id of `x` comes up before that of `y`. -/
def ListedBefore (nodes : List Node) (x y : Node) : Prop :=
  (nodes.map Node.id).idxOf x.id < (nodes.map Node.id).idxOf y.id

theorem mem_distinctNodes_iff : x ∈ distinctNodes nodes ↔ FirstListed nodes x := by
  unfold FirstListed
  induction nodes with
  | nil => simp [distinctNodes]
  | cons n rest ih =>
    by_cases hid : n.id = x.id
    · simp [distinctNodes, hid, eq_comm]
    · have hne : x ≠ n := fun hsame => hid (hsame ▸ rfl)
      simp [distinctNodes, hid, hne, Ne.symm hid, ih]

theorem exists_firstListed {id : String} (h : id ∈ listedIds nodes) :
    ∃ x, FirstListed nodes x ∧ x.id = id := by
  obtain ⟨n, hn, rfl⟩ := List.mem_map.mp (List.mem_toFinset.mp h)
  have hsome : (nodes.find? fun m => m.id = n.id).isSome = true :=
    List.find?_isSome.mpr ⟨n, hn, decide_eq_true rfl⟩
  obtain ⟨x, hx⟩ := Option.isSome_iff_exists.mp hsome
  have hid : x.id = n.id := by simpa using List.find?_some hx
  refine ⟨x, ?_, hid⟩
  rw [FirstListed, hid]
  exact hx

theorem FirstListed.mem (h : FirstListed nodes x) : x.id ∈ listedIds nodes :=
  List.mem_toFinset.mpr (List.mem_map_of_mem (List.mem_of_find?_eq_some h))

/-- There is one first record for each id. -/
theorem card_listedIds (nodes : List Node) : (listedIds nodes).card = (distinctNodes nodes).length := by
  have hnodup : ((distinctNodes nodes).map Node.id).Nodup :=
    List.pairwise_map.mpr (pairwise_distinctNodes nodes)
  have hsame : listedIds nodes = ((distinctNodes nodes).map Node.id).toFinset := by
    ext id
    simp only [List.mem_toFinset, List.mem_map, mem_distinctNodes_iff]
    refine ⟨exists_firstListed, ?_⟩
    rintro ⟨x, hx, rfl⟩
    exact hx.mem
  rw [hsame, List.toFinset_card_of_nodup hnodup, List.length_map]

/-- The first records stand in the order of the list. -/
theorem pairwise_listedBefore (nodes : List Node) :
    (distinctNodes nodes).Pairwise (ListedBefore nodes) := by
  induction nodes with
  | nil => exact .nil
  | cons n rest ih =>
    have hother {m : Node} (hm : m ∈ (distinctNodes rest).filter fun m => m.id ≠ n.id) :
        n.id ≠ m.id := by
      have hne : m.id ≠ n.id := by simpa using (List.mem_filter.mp hm).2
      exact hne.symm
    refine List.pairwise_cons.mpr ⟨fun m hm => ?_, ?_⟩
    · rw [ListedBefore, List.map_cons, List.idxOf_cons_self, List.idxOf_cons_ne _ (hother hm)]
      exact Nat.succ_pos _
    · refine (ih.sublist List.filter_sublist).imp_of_mem fun {a b} ha hb hab => ?_
      rw [ListedBefore, List.map_cons, List.idxOf_cons_ne _ (hother ha),
        List.idxOf_cons_ne _ (hother hb)]
      exact Nat.succ_lt_succ hab

/-- A batch has a job for two records just if each is the first of its id, the one before the other. -/
theorem mem_pairs_iff : (x, y) ∈ pairsOf (distinctNodes nodes) ↔
    FirstListed nodes x ∧ FirstListed nodes y ∧ ListedBefore nodes x y := by
  have hasymm {a b : Node} (h : ListedBefore nodes a b) : ¬ ListedBefore nodes b a :=
    Nat.lt_asymm h
  rw [mem_pairsOf_iff hasymm (pairwise_listedBefore nodes), mem_distinctNodes_iff,
    mem_distinctNodes_iff]

/-- Of two different ids in a list one comes up before the other. -/
theorem FirstListed.before_or_before (hx : FirstListed nodes x) (hne : x.id ≠ y.id) :
    ListedBefore nodes x y ∨ ListedBefore nodes y x := by
  refine Nat.lt_or_gt_of_ne fun hsame => hne ?_
  exact List.idxOf_inj (List.mem_toFinset.mp hx.mem) |>.mp hsame

/-- The jobs of a batch are for the unordered pairs of distinct ids. -/
theorem exists_pair_iff_listed {key : NodePair} :
    (∃ p ∈ pairsOf (distinctNodes nodes), idsOf p = key) ↔
      ∃ a ∈ listedIds nodes, ∃ b ∈ listedIds nodes, a ≠ b ∧ key = .of a b := by
  refine ⟨?_, ?_⟩
  · rintro ⟨⟨x, y⟩, hp, rfl⟩
    obtain ⟨hx, hy⟩ := mem_of_mem_pairsOf hp
    exact ⟨x.id, (mem_distinctNodes_iff.mp hx).mem, y.id, (mem_distinctNodes_iff.mp hy).mem,
      rel_of_mem_pairsOf (pairwise_distinctNodes nodes) hp, rfl⟩
  · rintro ⟨a, ha, b, hb, hne, rfl⟩
    obtain ⟨x, hx, rfl⟩ := exists_firstListed ha
    obtain ⟨y, hy, rfl⟩ := exists_firstListed hb
    rcases hx.before_or_before hne with hbefore | hbefore
    · exact ⟨(x, y), mem_pairs_iff.mpr ⟨hx, hy, hbefore⟩, rfl⟩
    · exact ⟨(y, x), mem_pairs_iff.mpr ⟨hy, hx, hbefore⟩, NodePair.of_comm _ _⟩

theorem length_pairsOf {α : Type} (l : List α) : (pairsOf l).length = l.length.choose 2 := by
  induction l with
  | nil => rfl
  | cons a rest ih =>
    rw [pairsOf, List.length_append, List.length_map, ih, List.length_cons, Nat.choose_succ_succ,
      Nat.choose_one_right]

end Records

/-! ## Single evaluations -/

section Evaluations

variable {env : Environment} {p q : Node × Node}

/-- The delay of two nodes, or why there is none, when the memory is asked for it. -/
def Memory.delayAnswer (m : Memory) (env : Environment) (p : Node × Node) : Except Fault Duration :=
  (m.evaluate env p.1 p.2).1.map DelayResult.delay

theorem Memory.delayAnswer_eq_ok_iff {m : Memory} {a b : Node} {d : Duration} :
    m.delayAnswer env (a, b) = .ok d ↔ ∃ r, (m.evaluate env a b).1 = .ok r ∧ r.delay = d := by
  unfold delayAnswer
  cases (m.evaluate env a b).1 <;> simp [Except.map]

theorem Memory.delayAnswer_eq_error_iff {m : Memory} {a b : Node} {fault : Fault} :
    m.delayAnswer env (a, b) = .error fault ↔ (m.evaluate env a b).1 = .error fault := by
  unfold delayAnswer
  cases (m.evaluate env a b).1 <;> simp [Except.map]

theorem Memory.delayAnswer_eq (m : Memory) (env : Environment) (p : Node × Node) :
    m.delayAnswer env p = (delayFor env p.1 p.2 m.delays).map StoredDelay.delay := by
  have hunmarked : m.delayAnswer env p =
      (unmarked (m.evaluate env p.1 p.2).1).map DelayResult.delay := by
    unfold delayAnswer
    cases (m.evaluate env p.1 p.2).1 <;> rfl
  rw [hunmarked, unmarked_evaluate_eq]
  cases delayFor env p.1 p.2 m.delays <;> rfl

/-- Evaluating one pair, and counting its item, does not change what another is given. -/
theorem Memory.delayAnswer_evaluate (m : Memory) (h : idsOf p ≠ idsOf q) (e : Event) :
    ((m.evaluate env p.1 p.2).2.count e).delayAnswer env q = m.delayAnswer env q := by
  have hget : (m.evaluate env p.1 p.2).2.delays.get? (idsOf q) env.now =
      m.delays.get? (idsOf q) env.now := by
    rw [snd_evaluate]
    exact get?_delaysAfter_of_ne h
  have hdelays : ((m.evaluate env p.1 p.2).2.count e).delays = (m.evaluate env p.1 p.2).2.delays := rfl
  unfold idsOf at hget
  rw [delayAnswer_eq, delayAnswer_eq, hdelays, delayFor, delayFor, hget]

/-- Asked for in the other direction, two nodes have the same delay. -/
theorem Memory.delayAnswer_swap (m : Memory) (env : Environment) (a b : Node) (d : Duration) :
    m.delayAnswer env (a, b) = .ok d ↔ m.delayAnswer env (b, a) = .ok d := by
  have hcomputed := toOption_compute_comm env a b
  rw [delayAnswer_eq, delayAnswer_eq]
  simp only [delayFor, NodePair.of_comm a.id b.id]
  cases m.delays.get? (.of b.id a.id) env.now with
  | some stored => exact Iff.rfl
  | none =>
    cases hab : compute env a b <;> cases hba : compute env b a <;> rw [hab, hba] at hcomputed <;>
      cases hcomputed <;> simp [Except.map]

/-- Finishing the jobs of pairs gives each what the memory has for it at the start. -/
theorem finish_pairs {pairs : List (Node × Node)} (hids : (pairs.map idsOf).Nodup) (m : Memory) :
    (Pool.finish env (pairs.map fun p => (idsOf p, pairJob p.1 p.2)) m).1 =
      pairs.map fun p => (idsOf p, m.delayAnswer env p) := by
  induction pairs generalizing m with
  | nil => rfl
  | cons p rest ih =>
    obtain ⟨hfresh, hrest⟩ := List.nodup_cons.mp hids
    have hjob : Pool.finishJob env (pairJob p.1 p.2) m = (m.delayAnswer env p,
        (m.evaluate env p.1 p.2).2.count (.batchItem (m.delayAnswer env p).isOk)) := by
      simp only [Pool.finishJob, pairJob, Pool.ended, Job.run, Memory.delayAnswer]
      cases (m.evaluate env p.1 p.2).1 <;> rfl
    simp only [List.map_cons, Pool.finish, hjob, ih hrest]
    refine congrArg _ (List.map_congr_left fun q hq => ?_)
    have hne : idsOf p ≠ idsOf q := fun hsame => hfresh (hsame ▸ List.mem_map_of_mem hq)
    rw [m.delayAnswer_evaluate hne]

end Evaluations

/-! ## Every pair once -/

section Batches

variable {env : Environment} {nodes : List Node} {m m' : Memory} {history : List Happening}
  {o : BatchOutcome NodePair Duration}

theorem toldApart_distinctNodes (nodes : List Node) : ToldApart (· ∈ distinctNodes nodes) :=
  fun _ _ ha hb hid => eq_of_mem_distinctNodes ha hb hid

theorem nodup_idsOf_pairs (nodes : List Node) : ((pairsOf (distinctNodes nodes)).map idsOf).Nodup :=
  nodup_pairKeys (pairwise_distinctNodes nodes)

/-- What a batch has for a pair is what the memory had for it at the start. -/
theorem Pool.Batch.find?_pair (h : Batch env (pairJobs nodes) .never m history o m')
    (key : NodePair) :
    (∀ d, o.results.find? key = some d ↔
      ∃ p ∈ pairsOf (distinctNodes nodes), idsOf p = key ∧ m.delayAnswer env p = .ok d) ∧
    ∀ fault, o.failures.find? key = some fault ↔
      ∃ p ∈ pairsOf (distinctNodes nodes), idsOf p = key ∧ m.delayAnswer env p = .error fault := by
  obtain ⟨_, hresults, hfailures, _⟩ :=
    finish_batch (toldApart_distinctNodes nodes) (separate_pairJobs env nodes) h
  have hfinish : (finish env (pairJobs nodes) m).1 = _ := finish_pairs (nodup_idsOf_pairs nodes) m
  refine ⟨fun d => ?_, fun fault => ?_⟩
  · rw [hresults, hfinish]
    simp only [List.mem_map, Prod.mk.injEq]
  · rw [hfailures, hfinish]
    simp only [List.mem_map, Prod.mk.injEq]

/-- A pair that has a job is not found under the key of another. -/
theorem exists_pair_iff {p : Node × Node} (hp : p ∈ pairsOf (distinctNodes nodes))
    {P : Node × Node → Prop} :
    (∃ q ∈ pairsOf (distinctNodes nodes), idsOf q = idsOf p ∧ P q) ↔ P p := by
  refine ⟨?_, fun h => ⟨p, hp, rfl, h⟩⟩
  rintro ⟨q, hq, hsame, h⟩
  rwa [← List.inj_on_of_nodup_map (nodup_idsOf_pairs nodes) hq hp hsame]

theorem Pool.Batch.mem_keys_iff_pair (h : Batch env (pairJobs nodes) .never m history o m')
    {key : NodePair} : key ∈ o.results.keys ++ o.failures.keys ↔
      ∃ p ∈ pairsOf (distinctNodes nodes), idsOf p = key := by
  obtain ⟨hresults, hfailures⟩ := h.find?_pair key
  rw [List.mem_append, Table.mem_keys_iff, Table.mem_keys_iff]
  simp only [hresults, hfailures]
  refine ⟨?_, ?_⟩
  · rintro (⟨_, p, hp, hkey, _⟩ | ⟨_, p, hp, hkey, _⟩) <;> exact ⟨p, hp, hkey⟩
  · rintro ⟨p, hp, hkey⟩
    cases hgiven : m.delayAnswer env p with
    | ok d => exact .inl ⟨d, p, hp, hkey, hgiven⟩
    | error fault => exact .inr ⟨fault, p, hp, hkey, hgiven⟩

end Batches

/-- A batch of delays over any list of records, with any memory at the start, and whatever the order
    in which its jobs run. It launches as many jobs as there are unordered pairs of distinct ids, and
    reports each of these pairs once, as a result or as a failure, and nothing else; what it reports
    is what one evaluation of the first records of both ids gives before the batch. The service's own
    run has the same outcome and leaves the same memory. -/
theorem batchDelays_cover_pairs {s : Service} {nodes : List Node} {history : List Happening}
    {o : BatchOutcome NodePair Duration} {m : Memory}
    (hbatch : Pool.Batch s.env (pairJobs nodes) .never s.memory history o m) :
    o.total = (listedIds nodes).card * ((listedIds nodes).card - 1) / 2 ∧ o.cancelled = false ∧
    (o.results.keys ++ o.failures.keys).Nodup ∧
    (∀ key, key ∈ o.results.keys ++ o.failures.keys ↔
      ∃ a ∈ listedIds nodes, ∃ b ∈ listedIds nodes, a ≠ b ∧ key = .of a b) ∧
    (∀ id, NodePair.of id id ∉ o.results.keys ++ o.failures.keys) ∧
    (∀ x y, FirstListed nodes x → FirstListed nodes y → x.id ≠ y.id →
      ∀ d, o.results.find? (.of x.id y.id) = some d ↔
        ∃ r, (s.memory.evaluate s.env x y).1 = .ok r ∧ r.delay = d) ∧
    (∀ x y, FirstListed nodes x → FirstListed nodes y → ListedBefore nodes x y →
      ∀ fault, o.failures.find? (.of x.id y.id) = some fault ↔
        (s.memory.evaluate s.env x y).1 = .error fault) ∧
    (s.batchDelays nodes .never).1 = o ∧ (s.batchDelays nodes .never).2.memory = m := by
  have hknown := toldApart_distinctNodes nodes
  have hjobs := separate_pairJobs s.env nodes
  obtain ⟨_, _, _, htotal, hcancelled⟩ := Pool.finish_batch hknown hjobs hbatch
  obtain ⟨_, _, hdistinct⟩ := hbatch.keys_outcome (fresh_pairJobs nodes) hjobs.nodup
  obtain ⟨_, hserved⟩ := Service.batch_pairJobs s.env nodes .never s.memory
  obtain ⟨houtcome, hmemory⟩ := Pool.Batch.unique hknown hjobs hserved hbatch
  have hkeys (key : NodePair) : key ∈ o.results.keys ++ o.failures.keys ↔
      ∃ a ∈ listedIds nodes, ∃ b ∈ listedIds nodes, a ≠ b ∧ key = .of a b := by
    rw [hbatch.mem_keys_iff_pair, exists_pair_iff_listed]
  refine ⟨?_, hcancelled, hdistinct, hkeys, ?_, ?_, ?_, houtcome, hmemory⟩
  · rw [htotal, pairJobs, List.length_map, length_pairsOf, card_listedIds, Nat.choose_two_right]
  · intro id hmem
    obtain ⟨a, _, b, _, hne, hsame⟩ := (hkeys _).mp hmem
    rcases NodePair.of_eq_of_iff.mp hsame with ⟨rfl, rfl⟩ | ⟨rfl, rfl⟩ <;> exact hne rfl
  · intro x y hx hy hne d
    rw [← Memory.delayAnswer_eq_ok_iff]
    rcases hx.before_or_before hne with hbefore | hbefore
    · rw [(hbatch.find?_pair _).1 d]
      exact exists_pair_iff (mem_pairs_iff.mpr ⟨hx, hy, hbefore⟩)
    -- The job of the pair has its records the other way round.
    · rw [NodePair.of_comm, (hbatch.find?_pair _).1 d, s.memory.delayAnswer_swap]
      exact exists_pair_iff (mem_pairs_iff.mpr ⟨hy, hx, hbefore⟩)
  · intro x y hx hy hbefore fault
    rw [← Memory.delayAnswer_eq_error_iff, (hbatch.find?_pair _).2 fault]
    exact exists_pair_iff (mem_pairs_iff.mpr ⟨hx, hy, hbefore⟩)

/-! ## A list with a repeated id -/

open TwoNodes

/-- Three nodes, of which the upper one is listed again on the ground: there are three pairs, and the
    delay of the first one is that from the height listed first. -/
theorem batchDelays_cover_three_nodes :
    let s := service 0 ground_ok
    let nodes := [upper 20000000 high_ok, lower, upper 0 ground_ok, middle]
    let o := (s.batchDelays nodes .never).1
    (∃ history, Pool.Batch s.env (pairJobs nodes) .never s.memory history o
      (s.batchDelays nodes .never).2.memory) ∧
    o.total = 3 ∧ NodePair.of "m" "b" ∈ o.results.keys ++ o.failures.keys ∧
    ∃ d, o.results.find? (.of "a" "b") = some d ∧ d ≠ .zero := by
  intro s nodes o
  obtain ⟨history, hbatch⟩ := Service.batch_pairJobs s.env nodes .never s.memory
  have hlower : FirstListed nodes lower := by
    unfold FirstListed
    decide +kernel
  have hupper : FirstListed nodes (upper 20000000 high_ok) := by
    unfold FirstListed
    decide +kernel
  have hcard : (listedIds nodes).card = 3 := by decide +kernel
  obtain ⟨htotal, _, _, hkeys, _, hresults, _⟩ := batchDelays_cover_pairs (s := s) hbatch
  have hevaluated : (s.memory.evaluate s.env lower (upper 20000000 high_ok)).1 = .ok _ :=
    Memory.evaluate_of_missing rfl finite_high
  refine ⟨⟨history, hbatch⟩, ?_, ?_, _, (hresults _ _ hlower hupper (by decide) _).mpr
    ⟨_, hevaluated, rfl⟩, by decide +kernel⟩
  · rw [hcard] at htotal
    exact htotal
  · exact (hkeys _).mpr ⟨"m", by decide +kernel, "b", by decide +kernel, by decide, rfl⟩

end LightCone
