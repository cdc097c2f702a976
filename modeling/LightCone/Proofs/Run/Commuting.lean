import LightCone.Proofs.Directories
import LightCone.Proofs.Distance
import LightCone.Proofs.Run.Effects
import Mathlib.Data.List.Perm.Basic

/-!
Jobs that share a memory and do not notice each other.

Two jobs of a batch may evaluate the same pair, from either end, and then one of them computes
the delay and the other is served with it. All that this changes for a job is the mark whether
a delay was stored before. This file

1. shows that counted events, and evaluations of nodes told apart by their ids, leave the same
   memory in either order and give the same answers but for that mark
   (`snd_evaluate_comm`, `unmarked_evaluate`);
2. defines the changes of a memory that a job with records of its own does not notice
   (`Unnoticed`), and the computations that let such changes pass through unchanged
   (`Detached`). What a computation does to the memory is then unnoticed by every other that
   owns none of its records (`Detached.unnoticed`);
3. shows that jobs which do not look at the mark are such computations (`detached_settle`,
   `detached_run`).
-/
namespace LightCone

/-! ## Counted events -/

/-- Tallies are told apart by their listings. -/
theorem Tally.counters_injective {t u : Tally} (h : t.counters = u.counters) : t = u := by
  cases t
  cases u
  simp only [counters, List.cons.injEq, Prod.mk.injEq, true_and, and_true] at h
  simp only [mk.injEq]
  exact h

theorem Tally.record_comm (t : Tally) (e e' : Event) :
    (t.record e).record e' = (t.record e').record e := by
  apply counters_injective
  simp only [counters_record, List.mapIdx_mapIdx]
  congr 1
  funext i c
  simp only [Function.comp_apply, Nat.add_right_comm]

/-- The rows of one metric with one more event of a label. -/
def countedRow (rows : Table String Nat) (label : String) : Table String Nat :=
  rows.insert label ((rows.find? label).getD 0 + 1)

theorem countedRow_comm (rows : Table String Nat) (label label' : String) :
    countedRow (countedRow rows label) label' = countedRow (countedRow rows label') label := by
  by_cases h : label = label'
  · rw [h]
  · simp only [countedRow, Table.find?_insert, if_neg h, if_neg (Ne.symm h)]
    rw [Table.insert_comm h]

theorem Metrics.record_comm (m : Metrics) (e e' : Event) :
    (m.record e).record e' = (m.record e').record e := by
  have hrow (m : Metrics) (e : Event) : m.record e = ⟨m.counts.insert (row e).metric
      (countedRow ((m.counts.find? (row e).metric).getD .empty) (row e).labelText)⟩ := rfl
  simp only [hrow, mk.injEq, Table.find?_insert]
  by_cases h : (row e).metric = (row e').metric
  · simp only [h, if_true, Option.getD_some, Table.insert_insert]
    rw [countedRow_comm]
  · simp only [if_neg h, if_neg (Ne.symm h)]
    rw [Table.insert_comm h]

theorem Memory.count_comm (m : Memory) (e e' : Event) : (m.count e).count e' = (m.count e').count e := by
  simp only [count, Tally.record_comm m.tally e e', Option.map_map]
  congr 2
  funext x
  exact x.record_comm e e'

/-- The memory after events were counted. -/
def Memory.countAll (m : Memory) (es : List Event) : Memory := es.foldl Memory.count m

theorem Memory.countAll_perm {es es' : List Event} (h : es.Perm es') (m : Memory) :
    m.countAll es = m.countAll es' := by
  have : RightCommutative Memory.count := ⟨count_comm⟩
  exact h.foldl_eq m

theorem Memory.countAll_comm (m : Memory) (es es' : List Event) :
    (m.countAll es).countAll es' = (m.countAll es').countAll es := by
  have hswap : (es ++ es').Perm (es' ++ es) := List.perm_append_comm
  have hsame := m.countAll_perm hswap
  rwa [countAll, List.foldl_append, countAll, List.foldl_append] at hsame

/-- Counting changes the counts only. -/
theorem Memory.countAll_eq (m : Memory) (es : List Event) :
    m.countAll es = { m with
      tally := es.foldl Tally.record m.tally
      metrics := es.foldl (fun metrics e => metrics.map (·.record e)) m.metrics } := by
  induction es generalizing m with
  | nil => rfl
  | cons e es ih => exact ih (m.count e)

/-! ## Evaluations -/

section Pairs

variable {env : Environment} {p q : NodePair} {v w : Option StoredDelay}
  {c : ExpiringCache NodePair StoredDelay}

/-- The events of an evaluation, given what would be computed for its pair. -/
def evaluationEvents (env : Environment) (p : NodePair) (v : Option StoredDelay)
    (c : ExpiringCache NodePair StoredDelay) : List Event :=
  match c.get? p env.now, v with
  | some _, _ => [.cacheHit .delay]
  | none, none => [.cacheMiss .delay]
  | none, some _ => [.cacheMiss .delay, .delayComputed]

/-- What it stores: nothing if its pair is stored and fresh. -/
def newDelay (env : Environment) (p : NodePair) (v : Option StoredDelay)
    (c : ExpiringCache NodePair StoredDelay) : Option StoredDelay :=
  match c.get? p env.now with
  | some _ => none
  | none => v

/-- The delays after it. -/
def delaysAfter (env : Environment) (p : NodePair) (v : Option StoredDelay)
    (c : ExpiringCache NodePair StoredDelay) : ExpiringCache NodePair StoredDelay :=
  match newDelay env p v c with
  | some computed => c.insert p computed env.now
  | none => c

theorem get?_delaysAfter_of_ne (h : p ≠ q) :
    (delaysAfter env p v c).get? q env.now = c.get? q env.now := by
  unfold delaysAfter
  split
  · simp only [ExpiringCache.get?, ExpiringCache.lookup, ExpiringCache.insert,
      ExpiringCache.insertFor, Table.find?_insert, if_neg h]
  · rfl

theorem delaysAfter_comm (h : p ≠ q) : delaysAfter env q w (delaysAfter env p v c) =
    delaysAfter env p v (delaysAfter env q w c) := by
  -- Neither evaluation changes what the other stores.
  have hp : newDelay env p v (delaysAfter env q w c) = newDelay env p v c := by
    rw [newDelay, get?_delaysAfter_of_ne h.symm, newDelay]
  have hq : newDelay env q w (delaysAfter env p v c) = newDelay env q w c := by
    rw [newDelay, get?_delaysAfter_of_ne h, newDelay]
  rw [delaysAfter, hq, delaysAfter, delaysAfter, hp, delaysAfter]
  cases newDelay env p v c with
  | none => rfl
  | some computed =>
    cases newDelay env q w c with
    | none => rfl
    | some computed' =>
      simp only [ExpiringCache.insert, ExpiringCache.insertFor]
      rw [Table.insert_comm h]

end Pairs

namespace Memory

variable {env : Environment} {p q : NodePair} {v w : Option StoredDelay}

/-- What an evaluation leaves, given what would be computed for its pair. -/
def touched (env : Environment) (p : NodePair) (v : Option StoredDelay) (m : Memory) : Memory :=
  { m.countAll (evaluationEvents env p v m.delays) with delays := delaysAfter env p v m.delays }

theorem snd_evaluate (m : Memory) (env : Environment) (a b : Node) :
    (m.evaluate env a b).2 = m.touched env (.of a.id b.id) (compute env a b).toOption := by
  simp only [evaluate, touched, evaluationEvents, delaysAfter, newDelay]
  cases m.delays.get? (.of a.id b.id) env.now with
  | some stored => rfl
  | none =>
    cases compute env a b with
    | error fault => rfl
    | ok computed => rfl

theorem touched_comm (m : Memory) (h : p = q → v = w) :
    (m.touched env p v).touched env q w = (m.touched env q w).touched env p v := by
  by_cases hpair : p = q
  · rw [hpair, h hpair]
  · have hevents {p q : NodePair} {v w : Option StoredDelay} (hpair : p ≠ q) :
        evaluationEvents env q w (delaysAfter env p v m.delays) = evaluationEvents env q w m.delays := by
      unfold evaluationEvents
      rw [get?_delaysAfter_of_ne hpair]
    have hcounts := m.countAll_comm (evaluationEvents env p v m.delays)
      (evaluationEvents env q w m.delays)
    simp only [countAll_eq, mk.injEq] at hcounts
    simp only [touched, hevents hpair, hevents (Ne.symm hpair), countAll_eq, mk.injEq]
    exact ⟨delaysAfter_comm hpair, hcounts.2⟩

theorem snd_evaluate_count (m : Memory) (env : Environment) (a b : Node) (e : Event) :
    ((m.count e).evaluate env a b).2 = (m.evaluate env a b).2.count e := by
  have hcounts := m.countAll_comm [e] (evaluationEvents env (.of a.id b.id)
    (compute env a b).toOption m.delays)
  simp only [countAll_eq, List.foldl_cons, List.foldl_nil, mk.injEq, true_and] at hcounts
  simp only [snd_evaluate, touched, countAll_eq, count, mk.injEq, true_and]
  exact hcounts

end Memory

/-! ## Nodes told apart by their ids -/

/-- An answer without the mark whether it was stored. -/
def unmarked (answer : Except Fault DelayResult) : Except Fault DelayResult :=
  answer.map fun r => { r with cached := false }

/-- What would be stored for two nodes does not depend on their order. -/
theorem toOption_compute_comm (env : Environment) (a b : Node) :
    (Memory.compute env a b).toOption = (Memory.compute env b a).toOption := by
  simp only [Memory.compute, Position.distance_comm a.position b.position]
  split <;> rfl

section Known

variable {env : Environment} {known : Node → Prop} {a b x y : Node}

theorem toOption_compute_of_pair (hknown : ToldApart known) (ha : known a) (hb : known b)
    (hx : known x) (hy : known y) (h : NodePair.of a.id b.id = .of x.id y.id) :
    (Memory.compute env a b).toOption = (Memory.compute env x y).toOption := by
  rcases NodePair.of_eq_of_iff.mp h with ⟨hax, hby⟩ | ⟨hay, hbx⟩
  · rw [hknown ha hx hax, hknown hb hy hby]
  · rw [hknown ha hy hay, hknown hb hx hbx, toOption_compute_comm]

/-- Evaluations of known nodes leave the same memory in either order. -/
theorem snd_evaluate_comm (hknown : ToldApart known) (ha : known a) (hb : known b) (hx : known x)
    (hy : known y) (m : Memory) : ((m.evaluate env x y).2.evaluate env a b).2 =
      ((m.evaluate env a b).2.evaluate env x y).2 := by
  simp only [Memory.snd_evaluate]
  exact m.touched_comm fun h => toOption_compute_of_pair hknown hx hy ha hb h

/-- The delay that an evaluation of two nodes gives: what is stored and fresh, or what is computed. -/
def delayFor (env : Environment) (a b : Node) (c : ExpiringCache NodePair StoredDelay) :
    Except Fault StoredDelay :=
  match c.get? (.of a.id b.id) env.now with
  | some stored => .ok stored
  | none => Memory.compute env a b

theorem unmarked_evaluate_eq (m : Memory) (env : Environment) (a b : Node) :
    unmarked (m.evaluate env a b).1 =
      (delayFor env a b m.delays).map fun d => Memory.answerStored a b d false := by
  unfold delayFor
  rcases m.evaluate_cases env a b with ⟨stored, hget, hanswer, _⟩ |
    ⟨hget, fault, hcompute, hanswer, _⟩ | ⟨hget, computed, hcompute, hanswer, _⟩
  · rw [hanswer, hget]
    rfl
  · rw [hanswer, hget, hcompute]
    rfl
  · rw [hanswer, hget, hcompute]
    rfl

theorem delayFor_delaysAfter (c : ExpiringCache NodePair StoredDelay) {v : Option StoredDelay}
    (h : NodePair.of x.id y.id = .of a.id b.id → v = (Memory.compute env a b).toOption) :
    delayFor env a b (delaysAfter env (.of x.id y.id) v c) = delayFor env a b c := by
  by_cases hpair : NodePair.of x.id y.id = .of a.id b.id
  · obtain rfl := h hpair
    rw [hpair]
    unfold delaysAfter newDelay delayFor
    cases hget : c.get? (.of a.id b.id) env.now with
    | some stored => simp only [hget]
    | none =>
      cases hcompute : Memory.compute env a b with
      | error fault => simp only [Except.toOption, hget]
      | ok computed =>
        -- The new entry may have expired at once; then the delay is computed again.
        simp only [Except.toOption]
        split
        · next stored hstored =>
          obtain ⟨e, hfind, _, rfl⟩ := ExpiringCache.get?_eq_some_iff.mp hstored
          rw [ExpiringCache.insert, ExpiringCache.insertFor, Table.find?_insert, if_pos rfl] at hfind
          cases hfind
          rfl
        · rfl
  · unfold delayFor
    rw [get?_delaysAfter_of_ne hpair]

/-- An evaluation answers as before after another one, but for the mark. -/
theorem unmarked_evaluate (hknown : ToldApart known) (ha : known a) (hb : known b) (hx : known x)
    (hy : known y) (m : Memory) : unmarked ((m.evaluate env x y).2.evaluate env a b).1 =
      unmarked (m.evaluate env a b).1 := by
  rw [unmarked_evaluate_eq, unmarked_evaluate_eq, Memory.snd_evaluate, Memory.touched]
  rw [delayFor_delaysAfter _ fun h => toOption_compute_of_pair hknown hx hy ha hb h]

end Known

/-! ## Changes that a job does not notice -/

/-- A change of the memory that a job does not notice: it evaluates known nodes, keeps records of
    ids of its own and counts events, before or after the change. -/
structure Unnoticed (env : Environment) (known : Node → Prop) (own : String → Prop)
    (f : Memory → Memory) : Prop where
  answer : ∀ m {a b}, known a → known b →
    unmarked ((f m).evaluate env a b).1 = unmarked (m.evaluate env a b).1
  evaluate : ∀ m {a b}, known a → known b → ((f m).evaluate env a b).2 = f (m.evaluate env a b).2
  keep : ∀ m {record}, own record.id → (f m).keepOffset env record = f (m.keepOffset env record)
  count : ∀ m e, (f m).count e = f (m.count e)

namespace Unnoticed

variable {env : Environment} {known : Node → Prop} {own : String → Prop}

theorem of_evaluate (hknown : ToldApart known) {a b : Node} (ha : known a) (hb : known b) :
    Unnoticed env known own fun m => (m.evaluate env a b).2 where
  answer m _ _ hx hy := unmarked_evaluate hknown hx hy ha hb m
  evaluate m _ _ hx hy := snd_evaluate_comm hknown hx hy ha hb m
  keep m _ _ := by
    simp only [Memory.snd_evaluate, Memory.touched, Memory.countAll_eq, Memory.keepOffset]
  count m e := (m.snd_evaluate_count env a b e).symm

theorem of_count (e : Event) : Unnoticed env known own (·.count e) where
  answer m _ _ _ _ := by
    simp only [unmarked_evaluate_eq, Memory.count]
  evaluate m a b _ _ := m.snd_evaluate_count env a b e
  keep m _ _ := rfl
  count m e' := m.count_comm e e'

theorem of_keep {record : NodeOffset} (h : ¬ own record.id) :
    Unnoticed env known own (·.keepOffset env record) where
  answer m _ _ _ _ := by
    simp only [unmarked_evaluate_eq, Memory.keepOffset]
  evaluate m a b _ _ := by
    simp only [Memory.snd_evaluate, Memory.touched, Memory.countAll_eq, Memory.keepOffset]
  keep m record' hown := by
    have hne : record.id ≠ record'.id := fun hsame => h (hsame ▸ hown)
    simp only [Memory.keepOffset, ExpiringCache.insert, ExpiringCache.insertFor]
    rw [Table.insert_comm hne]
  count m e := rfl

end Unnoticed

/-! ## Computations that let such changes pass -/

/-- A computation that owns records gives the same with such a change made before it, which it
    leaves in place; and it changes no answer between known nodes. -/
structure Detached (env : Environment) (known : Node → Prop) (own : String → Prop) {β : Type}
    (P : Memory → β × Memory) : Prop where
  answer : ∀ m {a b}, known a → known b →
    unmarked ((P m).2.evaluate env a b).1 = unmarked (m.evaluate env a b).1
  passes : ∀ {f}, Unnoticed env known own f → ∀ m, P (f m) = ((P m).1, f (P m).2)

namespace Detached

variable {env : Environment} {known : Node → Prop} {own : String → Prop} {β γ : Type}

theorem pure (value : β) : Detached env known own fun m => (value, m) where
  answer _ _ _ _ _ := rfl
  passes _ _ := rfl

theorem bind {P : Memory → β × Memory} {Q : β → Memory → γ × Memory}
    (hP : Detached env known own P) (hQ : ∀ value, Detached env known own (Q value)) :
    Detached env known own fun m => Q (P m).1 (P m).2 where
  answer m _ _ ha hb := ((hQ (P m).1).answer (P m).2 ha hb).trans (hP.answer m ha hb)
  passes hf m := by
    simp only [hP.passes hf m]
    exact (hQ (P m).1).passes hf (P m).2

theorem of_evaluate (hknown : ToldApart known) {a b : Node} (ha : known a) (hb : known b) :
    Detached env known own fun m => (unmarked (m.evaluate env a b).1, (m.evaluate env a b).2) where
  answer m _ _ hx hy := unmarked_evaluate hknown hx hy ha hb m
  passes hf m := Prod.ext (hf.answer m ha hb) (hf.evaluate m ha hb)

theorem of_keep {record : NodeOffset} (h : own record.id) :
    Detached env known own fun m => ((), m.keepOffset env record) where
  answer m _ _ _ _ := by
    simp only [unmarked_evaluate_eq, Memory.keepOffset]
  passes hf m := Prod.ext rfl (hf.keep m h)

theorem of_count (e : Event) : Detached env known own fun m => ((), m.count e) where
  answer m _ _ _ _ := by
    simp only [unmarked_evaluate_eq, Memory.count]
  passes hf m := Prod.ext rfl (hf.count m e)

/-- A computation is not noticed by those that own none of its records. -/
theorem unnoticed {P : Memory → β × Memory} (h : Detached env known own P)
    (hknown : ToldApart known) {own' : String → Prop} (hapart : ∀ id, own' id → ¬ own id) :
    Unnoticed env known own' fun m => (P m).2 where
  answer m _ _ ha hb := h.answer m ha hb
  evaluate m _ _ ha hb :=
    (congrArg Prod.snd (h.passes (.of_evaluate hknown ha hb) m)).symm
  keep m record hown :=
    (congrArg Prod.snd (h.passes (.of_keep (hapart record.id hown)) m)).symm
  count m e := (congrArg Prod.snd (h.passes (.of_count e) m)).symm

end Detached

/-! ## Jobs -/

/-- A job goes on alike whether a delay was stored before or not. -/
def Job.Blind {α : Type} : Job α → Prop
  | .done _ => True
  | .lookup _ next => ∀ answer, (next answer).Blind
  | .delay _ _ next => ∀ answer, next answer = next (unmarked answer) ∧ (next answer).Blind
  | .keep _ next => next.Blind

/-- The effects of a job on known nodes and on records of ids of its own. -/
def Effects.own (known : Node → Prop) (own : String → Prop) : Effects where
  evaluates a b := known a ∧ known b
  keeps record := own record.id

section Jobs

variable {α β : Type} {env : Environment} {known : Node → Prop} {own : String → Prop} {job : Job α}
  {post : α → Prop}

theorem Job.Blind.bind {f : α → Job β} (h : job.Blind) (hf : ∀ value, (f value).Blind) :
    (job.bind f).Blind := by
  induction job with
  | done value => exact hf value
  | lookup id next ih => exact fun answer => ih answer (h answer)
  | delay a b next ih =>
    intro answer
    obtain ⟨hsame, hnext⟩ := h answer
    exact ⟨congrArg (fun job => job.bind f) hsame, ih answer hnext⟩
  | keep record next ih => exact ih h

theorem Job.Blind.settle (h : job.Blind) (m : Memory) : (job.settle env m).1.Blind := by
  induction job generalizing m with
  | done value => trivial
  | lookup id next ih => exact h
  | delay a b next ih => exact ih _ (h _).2 _
  | keep record next ih => exact ih h _

theorem Job.Blind.resume (h : job.Blind) (m : Memory) : (job.resume env m).1.Blind := by
  cases job with
  | lookup id next =>
    have hnext : (next (env.answer id)).Blind := h _
    exact hnext.settle m
  | done value => trivial
  | delay a b next =>
    have hjob : (Job.delay a b next).Blind := h
    exact hjob.settle m
  | keep record next =>
    have hjob : (Job.keep record next).Blind := h
    exact hjob.settle m

/-- What a blind job does after an evaluation depends on the unmarked answer only. -/
theorem Detached.delay {γ : Type} (hknown : ToldApart known) {a b : Node} (ha : known a)
    (hb : known b) {next : Except Fault DelayResult → Job α}
    (hblind : ∀ answer, next answer = next (unmarked answer))
    {Q : Job α → Memory → γ × Memory}
    (hQ : ∀ answer, Detached env known own (Q (next answer))) :
    Detached env known own fun m => Q (next (m.evaluate env a b).1) (m.evaluate env a b).2 := by
  have hunmarked : Detached env known own fun m =>
      (unmarked (m.evaluate env a b).1, (m.evaluate env a b).2) := .of_evaluate hknown ha hb
  have hboth := hunmarked.bind hQ
  simp only [← hblind] at hboth
  exact hboth

theorem detached_settle (hknown : ToldApart known) (hblind : job.Blind)
    (hmeets : job.Meets env (.own known own) post) :
    Detached env known own fun m => job.settle env m := by
  induction job with
  | done value => exact .pure _
  | lookup id next ih => exact .pure _
  | delay a b next ih =>
    obtain ⟨⟨ha, hb⟩, hnext⟩ := hmeets
    exact .delay hknown ha hb (fun answer => (hblind answer).1)
      fun answer => ih answer (hblind answer).2 (hnext answer)
  | keep record next ih =>
    obtain ⟨hown, hnext⟩ := hmeets
    exact (Detached.of_keep hown).bind fun _ => ih hblind hnext

theorem detached_run (hknown : ToldApart known) (hblind : job.Blind)
    (hmeets : job.Meets env (.own known own) post) :
    Detached env known own fun m => job.run env m := by
  induction job with
  | done value => exact .pure _
  | lookup id next ih => exact ih _ (hblind _) hmeets
  | delay a b next ih =>
    obtain ⟨⟨ha, hb⟩, hnext⟩ := hmeets
    exact .delay hknown ha hb (fun answer => (hblind answer).1)
      fun answer => ih answer (hblind answer).2 (hnext answer)
  | keep record next ih =>
    obtain ⟨hown, hnext⟩ := hmeets
    exact (Detached.of_keep hown).bind fun _ => ih hblind hnext

theorem detached_resume (hknown : ToldApart known) (hblind : job.Blind)
    (hmeets : job.Meets env (.own known own) post) :
    Detached env known own fun m => job.resume env m := by
  cases job with
  | lookup id next => exact detached_settle hknown (hblind _) hmeets
  | done value => exact detached_settle hknown hblind hmeets
  | delay a b next => exact detached_settle hknown hblind hmeets
  | keep record next => exact detached_settle hknown hblind hmeets

end Jobs
end LightCone
