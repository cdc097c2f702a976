import LightCone.Proofs.EveryPair
import LightCone.Proofs.FiniteDistance

/-!
The worst pair of a network.

The results of a batch come in no particular order, and several pairs may have the longest delay. This
file

1. shows that one result is worse than another by a strict total order (`worse_asymm`, `worse_trans`,
   `worse_or_worse`), so that a list has one worst result at most (`IsWorst.unique`);
2. shows that the search finds it, from either end of the list (`worstPair_eq_some_iff`,
   `worstInTurn_eq_worstPair`), and the same one in every order (`worstPair_eq_of_perm`);
3. reads the results of a batch off its nodes (`Pool.Batch.mem_results_iff`), and concludes which pair of
   a directory is the worst one (`maxDelay_is_worst_active`).
-/
namespace LightCone

/-! ## The order of results -/

section Order

variable {p q r w w' : NodePair × Duration} {l l' : List (NodePair × Duration)}

theorem worse_iff : worse p q = true ↔
    q.2 < p.2 ∨ q.2 = p.2 ∧ (p.1.first < q.1.first ∨
      p.1.first = q.1.first ∧ p.1.second < q.1.second) := by
  simp only [worse, Bool.or_eq_true, Bool.and_eq_true, decide_eq_true_eq]
  exact or_congr_right (and_congr_right fun _ => NodePair.before_iff)

/-- A result is worse for its delay, or for its pair. -/
theorem worse_cases (h : worse p q = true) :
    q.2.nanos < p.2.nanos ∨ q.2 = p.2 ∧ Key.before p.1 q.1 = true := by
  simp only [worse, Bool.or_eq_true, Bool.and_eq_true, decide_eq_true_eq] at h
  exact h

theorem worse_of_before (hdelay : q.2 = p.2) (hpair : Key.before p.1 q.1 = true) :
    worse p q = true := by
  simp [worse, hdelay, hpair]

theorem worse_of_longer (h : q.2.nanos < p.2.nanos) : worse p q = true := by
  have hlonger : q.2 < p.2 := h
  simp [worse, hlonger]

theorem worse_asymm (h : worse p q = true) : worse q p = false := by
  refine Bool.eq_false_iff.mpr fun h' => ?_
  rcases worse_cases h with hlonger | ⟨hsame, hbefore⟩ <;>
    rcases worse_cases h' with hlonger' | ⟨hsame', hbefore'⟩
  · omega
  · rw [hsame'] at hlonger
    omega
  · rw [hsame] at hlonger'
    omega
  · have hloop := Key.trans hbefore hbefore'
    rw [Key.irrefl] at hloop
    cases hloop

theorem worse_trans (h : worse p q = true) (h' : worse q r = true) : worse p r = true := by
  rcases worse_cases h with hlonger | ⟨hsame, hbefore⟩ <;>
    rcases worse_cases h' with hlonger' | ⟨hsame', hbefore'⟩
  · exact worse_of_longer (hlonger'.trans hlonger)
  · exact worse_of_longer (hsame' ▸ hlonger)
  · exact worse_of_longer (hsame ▸ hlonger')
  · exact worse_of_before (hsame'.trans hsame) (Key.trans hbefore hbefore')

/-- Of two results one is worse. -/
theorem worse_or_worse (p q : NodePair × Duration) :
    worse p q = true ∨ p = q ∨ worse q p = true := by
  rcases Nat.lt_trichotomy q.2.nanos p.2.nanos with hlonger | hsame | hlonger
  · exact .inl (worse_of_longer hlonger)
  · have hdelay : q.2 = p.2 := Duration.ext hsame
    rcases Key.total p.1 q.1 with hbefore | hpair | hbefore
    · exact .inl (worse_of_before hdelay hbefore)
    · exact .inr (.inl (Prod.ext hpair hdelay.symm))
    · exact .inr (.inr (worse_of_before hdelay.symm hbefore))
  · exact .inr (.inr (worse_of_longer hlonger))

/-- The worst of some results is worse than every other. -/
structure IsWorst (l : List (NodePair × Duration)) (w : NodePair × Duration) : Prop where
  mem : w ∈ l
  others : ∀ q ∈ l, q = w ∨ worse w q = true

theorem IsWorst.unique (h : IsWorst l w) (h' : IsWorst l w') : w = w' := by
  rcases h'.others w h.mem with hsame | hworse
  · exact hsame
  · rcases h.others w' h'.mem with hsame | hworse'
    · exact hsame.symm
    · rw [worse_asymm hworse] at hworse'
      cases hworse'

theorem IsWorst.perm (h : IsWorst l w) (hperm : l.Perm l') : IsWorst l' w :=
  ⟨hperm.mem_iff.mp h.mem, fun q hq => h.others q (hperm.mem_iff.mpr hq)⟩

/-! ## The search -/

theorem isWorst_singleton (p : NodePair × Duration) : IsWorst [p] p :=
  ⟨List.mem_singleton_self p, fun _ hq => .inl (List.mem_singleton.mp hq)⟩

/-- A further result is the worst one, or else the worst one stays. -/
theorem IsWorst.cons (h : IsWorst l w) (p : NodePair × Duration) :
    IsWorst (p :: l) (if worse w p = true then w else p) := by
  by_cases hworse : worse w p = true
  · rw [if_pos hworse]
    exact ⟨List.mem_cons_of_mem _ h.mem, List.forall_mem_cons.mpr ⟨.inr hworse, h.others⟩⟩
  · rw [if_neg hworse]
    refine ⟨List.mem_cons_self, List.forall_mem_cons.mpr ⟨.inl rfl, fun q hq => ?_⟩⟩
    rcases worse_or_worse p w with hpw | rfl | hwp
    · rcases h.others q hq with rfl | hwq
      · exact .inr hpw
      · exact .inr (worse_trans hpw hwq)
    · exact h.others q hq
    · exact absurd hwp hworse

theorem worstPair_eq_none_iff : worstPair l = none ↔ l = [] := by
  cases l with
  | nil => simp [worstPair]
  | cons p rest =>
    rw [worstPair]
    cases worstPair rest <;> simp

theorem isWorst_of_worstPair (h : worstPair l = some w) : IsWorst l w := by
  induction l generalizing w with
  | nil => cases h
  | cons p rest ih =>
    rw [worstPair] at h
    cases hrest : worstPair rest with
    | none =>
      rw [hrest] at h
      cases h
      rw [worstPair_eq_none_iff.mp hrest]
      exact isWorst_singleton p
    | some v =>
      rw [hrest] at h
      cases h
      exact (ih hrest).cons p

theorem worstPair_eq_some_iff : worstPair l = some w ↔ IsWorst l w := by
  refine ⟨isWorst_of_worstPair, fun h => ?_⟩
  cases hfound : worstPair l with
  | none =>
    rw [worstPair_eq_none_iff.mp hfound] at h
    exact absurd h.mem List.not_mem_nil
  | some v => rw [(isWorst_of_worstPair hfound).unique h]

/-- The search finds the same in every order of the results. -/
theorem worstPair_eq_of_perm (h : l.Perm l') : worstPair l = worstPair l' := by
  refine Option.ext fun w => ?_
  rw [worstPair_eq_some_iff, worstPair_eq_some_iff]
  exact ⟨fun hw => hw.perm h, fun hw => hw.perm h.symm⟩

/-- The search from the front: each result in turn takes the place of the one so far, unless that one
    is worse. -/
def worstInTurn : List (NodePair × Duration) → Option (NodePair × Duration)
  | [] => none
  | p :: rest => some (rest.foldl (fun w q => if worse w q then w else q) p)

theorem isWorst_foldl (h : IsWorst l w) (rest : List (NodePair × Duration)) :
    IsWorst (rest.reverse ++ l) (rest.foldl (fun w q => if worse w q then w else q) w) := by
  induction rest generalizing l w with
  | nil => exact h
  | cons q rest ih =>
    rw [List.reverse_cons, List.append_assoc]
    exact ih (h.cons q)

theorem worstInTurn_eq_worstPair (l : List (NodePair × Duration)) : worstInTurn l = worstPair l := by
  cases l with
  | nil => rfl
  | cons p rest =>
    refine (worstPair_eq_some_iff.mpr ?_).symm
    have hperm : (rest.reverse ++ [p]).Perm (p :: rest) := by
      rw [← List.reverse_cons]
      exact List.reverse_perm _
    exact (isWorst_foldl (isWorst_singleton p) rest).perm hperm

end Order

/-! ## The results of a batch -/

section Batches

variable {env : Environment} {nodes : List Node} {m m' : Memory} {history : List Happening}
  {o : BatchOutcome NodePair Duration}

/-- The results of a batch are the delays that its nodes had at the start. -/
theorem Pool.Batch.mem_results_iff (h : Batch env (pairJobs nodes) .never m history o m')
    {pair : NodePair} {d : Duration} : (pair, d) ∈ o.results.entries ↔
      ∃ x y, FirstListed nodes x ∧ FirstListed nodes y ∧ x.id ≠ y.id ∧ pair = .of x.id y.id ∧
        m.delayAnswer env (x, y) = .ok d := by
  rw [← Table.find?_eq_some_iff, (h.find?_pair pair).1 d]
  refine ⟨?_, ?_⟩
  · rintro ⟨⟨x, y⟩, hp, rfl, hdelay⟩
    obtain ⟨hx, hy, _⟩ := mem_pairs_iff.mp hp
    exact ⟨x, y, hx, hy, rel_of_mem_pairsOf (pairwise_distinctNodes nodes) hp, rfl, hdelay⟩
  · rintro ⟨x, y, hx, hy, hne, rfl, hdelay⟩
    rcases hx.before_or_before hne with hbefore | hbefore
    · exact ⟨(x, y), mem_pairs_iff.mpr ⟨hx, hy, hbefore⟩, rfl, hdelay⟩
    · exact ⟨(y, x), mem_pairs_iff.mpr ⟨hy, hx, hbefore⟩, NodePair.of_comm _ _,
        (m.delayAnswer_swap env x y d).mp hdelay⟩

/-- All distances being finite, no pair is without a result. -/
theorem Pool.Batch.results_eq_nil_iff (h : Batch env (pairJobs nodes) .never m history o m') :
    o.results.entries = [] ↔ (listedIds nodes).card < 2 := by
  refine ⟨fun hnil => ?_, fun hfew => ?_⟩
  · by_contra hmany
    obtain ⟨a, ha, b, hb, hne⟩ := Finset.one_lt_card.mp (Nat.not_lt.mp hmany)
    obtain ⟨x, hx, rfl⟩ := exists_firstListed ha
    obtain ⟨y, hy, rfl⟩ := exists_firstListed hb
    have hfinite : FiniteApart (x, y) := Position.isFinite_distance _ _
    obtain ⟨r, hr, -⟩ := m.evaluate_of_finite env hfinite
    have hmem := h.mem_results_iff.mpr
      ⟨x, y, hx, hy, hne, rfl, Memory.delayAnswer_eq_ok_iff.mpr ⟨r, hr, rfl⟩⟩
    rw [hnil] at hmem
    exact absurd hmem List.not_mem_nil
  · refine List.eq_nil_iff_forall_not_mem.mpr fun ⟨pair, d⟩ hmem => ?_
    obtain ⟨x, y, hx, hy, hne, -⟩ := h.mem_results_iff.mp hmem
    exact hne (Finset.card_le_one.mp (Nat.lt_succ_iff.mp hfew) _ hx.mem _ hy.mem)

end Batches

/-- A pair of nodes of a list with its delay: that of any other two is no longer, and if it is as long,
    the text order of the ids puts the pair first. -/
structure WorstAmong (m : Memory) (env : Environment) (nodes : List Node) (pair : NodePair)
    (d : Duration) : Prop where
  attained : ∃ x y, FirstListed nodes x ∧ FirstListed nodes y ∧ x.id ≠ y.id ∧ pair = .of x.id y.id ∧
    ∃ r, (m.evaluate env x y).1 = .ok r ∧ r.delay = d
  longest : ∀ x y, FirstListed nodes x → FirstListed nodes y → x.id ≠ y.id →
    ∀ r, (m.evaluate env x y).1 = .ok r → r.delay ≤ d
  first : ∀ x y, FirstListed nodes x → FirstListed nodes y → x.id ≠ y.id →
    ∀ r, (m.evaluate env x y).1 = .ok r → r.delay = d →
    pair = .of x.id y.id ∨ pair.first < (NodePair.of x.id y.id).first ∨
      pair.first = (NodePair.of x.id y.id).first ∧ pair.second < (NodePair.of x.id y.id).second

theorem isWorst_iff_worstAmong {env : Environment} {nodes : List Node} {m m' : Memory}
    {history : List Happening} {o : BatchOutcome NodePair Duration}
    (hbatch : Pool.Batch env (pairJobs nodes) .never m history o m') {pair : NodePair}
    {d : Duration} : IsWorst o.results.entries (pair, d) ↔ WorstAmong m env nodes pair d := by
  have hentry {q : NodePair} {d' : Duration} : (q, d') ∈ o.results.entries ↔
      ∃ x y, FirstListed nodes x ∧ FirstListed nodes y ∧ x.id ≠ y.id ∧ q = .of x.id y.id ∧
        ∃ r, (m.evaluate env x y).1 = .ok r ∧ r.delay = d' := by
    rw [hbatch.mem_results_iff]
    simp only [Memory.delayAnswer_eq_ok_iff]
  refine ⟨fun h => ?_, fun h => ?_⟩
  · have hothers {x y : Node} (hx : FirstListed nodes x) (hy : FirstListed nodes y)
        (hne : x.id ≠ y.id) {r : DelayResult} (hr : (m.evaluate env x y).1 = .ok r) :
        (NodePair.of x.id y.id, r.delay) = (pair, d) ∨
          worse (pair, d) (NodePair.of x.id y.id, r.delay) = true :=
      h.others _ (hentry.mpr ⟨x, y, hx, hy, hne, rfl, r, hr, rfl⟩)
    refine ⟨hentry.mp h.mem, fun x y hx hy hne r hr => ?_, fun x y hx hy hne r hr hsame => ?_⟩
    · rcases hothers hx hy hne hr with hsame | hworse
      · exact Nat.le_of_eq (congrArg (fun q => q.2.nanos) hsame)
      · rcases worse_cases hworse with hlonger | ⟨hsame, _⟩
        · exact Nat.le_of_lt hlonger
        · exact Nat.le_of_eq (congrArg Duration.nanos hsame)
    · rcases hothers hx hy hne hr with hpair | hworse
      · exact .inl (congrArg Prod.fst hpair).symm
      · rcases worse_iff.mp hworse with hlonger | ⟨_, hbefore⟩
        · rw [hsame] at hlonger
          exact absurd hlonger (Nat.lt_irrefl _)
        · exact .inr hbefore
  · refine ⟨hentry.mpr h.attained, fun q hq => ?_⟩
    obtain ⟨x, y, hx, hy, hne, hpair, r, hr, hdelay⟩ := hentry.mp hq
    obtain ⟨_, _⟩ := q
    subst hpair hdelay
    rcases Nat.lt_or_eq_of_le (h.longest x y hx hy hne r hr) with hlonger | hsame
    · exact .inr (worse_of_longer hlonger)
    · have hdelay : r.delay = d := Duration.ext hsame
      rcases h.first x y hx hy hne r hr hdelay with hpair | hbefore
      · exact .inl (Prod.ext hpair.symm hdelay)
      · exact .inr (worse_iff.mpr (.inr ⟨hdelay, hbefore⟩))

/-! ## The active nodes -/

/-- A keyed directory lists each of its active nodes once. -/
theorem Directory.Keyed.distinct_active {d : Directory} (h : d.Keyed) :
    (listedIds d.active).card = d.active.length ∧ ∀ x, FirstListed d.active x ↔ x ∈ d.active := by
  have hsame : distinctNodes d.active = d.active :=
    distinctNodes_eq (h.sorted_active.imp String.ne_of_lt)
  refine ⟨?_, fun x => ?_⟩
  · rw [card_listedIds, hsame]
  · rw [← mem_distinctNodes_iff, hsame]

/-- The worst pair of the active nodes, over any directory and with any stored delays. Let the jobs of
    the pairs run in whatever order, and their results be gone through in whatever order, from the front
    or from the back: what is found is the same. It is nothing just if there is no result, and so just
    if fewer than two nodes are active. Else it is the one pair that no other pair of active nodes
    exceeds in delay, and that comes first among those that equal it. -/
theorem maxDelay_is_worst_active {s : Service} {history : List Happening}
    {o : BatchOutcome NodePair Duration} {m : Memory} {entries : List (NodePair × Duration)}
    (hbatch : Pool.Batch s.env (pairJobs s.env.directory.active) .never s.memory history o m)
    (horder : entries.Perm o.results.entries) :
    worstInTurn entries = s.maxDelay.1 ∧ worstPair entries = s.maxDelay.1 ∧
    (s.maxDelay.1 = none ↔ o.results.entries = []) ∧
    (s.maxDelay.1 = none ↔ (listedIds s.env.directory.active).card < 2) ∧
    (∀ pair d, s.maxDelay.1 = some (pair, d) ↔
      WorstAmong s.memory s.env s.env.directory.active pair d) ∧
    (s.env.directory.Keyed →
      (listedIds s.env.directory.active).card = s.env.directory.active.length ∧
        ∀ x, FirstListed s.env.directory.active x ↔ x ∈ s.env.directory.active) := by
  obtain ⟨_, hserved⟩ := Service.batch_pairJobs s.env s.env.directory.active .never s.memory
  obtain ⟨houtcome, -⟩ := Pool.Batch.unique (toldApart_distinctNodes s.env.directory.active)
    (separate_pairJobs s.env s.env.directory.active) hserved hbatch
  have hmax : s.maxDelay.1 = worstPair o.results.entries := by
    rw [← houtcome]
    rfl
  have hsame : worstPair entries = s.maxDelay.1 := (worstPair_eq_of_perm horder).trans hmax.symm
  have hnone : s.maxDelay.1 = none ↔ o.results.entries = [] := by
    rw [hmax]
    exact worstPair_eq_none_iff
  refine ⟨(worstInTurn_eq_worstPair entries).trans hsame, hsame, hnone,
    hnone.trans hbatch.results_eq_nil_iff, fun pair d => ?_, fun hkeyed => hkeyed.distinct_active⟩
  rw [hmax, worstPair_eq_some_iff]
  exact isWorst_iff_worstAmong hbatch

open TwoNodes

/-- Three nodes, two of them on the ground: the upper one is as far from the one as from the other, and
    the worst pair is the first of these two, in whatever order they are gone through. -/
theorem maxDelay_of_three_nodes :
    let s : Service := ⟨⟨{}, ⟨(directory 20000000 high_ok).nodes.insert "m" middle⟩, {}, .epoch⟩,
      .initial {} none⟩
    let o := (s.delayMatrix).1
    (∃ history, Pool.Batch s.env (pairJobs s.env.directory.active) .never s.memory history o
      s.delayMatrix.2.memory) ∧
    o.results.entries.length = 3 ∧
    (∀ entries, entries.Perm o.results.entries →
      (worstInTurn entries).map Prod.fst = some (.of "a" "b")) ∧
    o.results.find? (.of "b" "m") = o.results.find? (.of "a" "b") := by
  intro s o
  obtain ⟨history, hbatch⟩ := Service.batch_pairJobs s.env s.env.directory.active .never s.memory
  have hfirst : s.maxDelay.1.map Prod.fst = some (.of "a" "b") := by decide +kernel
  refine ⟨⟨history, hbatch⟩, by decide +kernel, fun entries horder => ?_, by decide +kernel⟩
  rw [(maxDelay_is_worst_active hbatch horder).1]
  exact hfirst

end LightCone
