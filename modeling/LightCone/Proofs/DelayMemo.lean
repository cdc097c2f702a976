import LightCone.Proofs.Expiry
import LightCone.Proofs.Run.Latest
import LightCone.Proofs.Run.Moves
import LightCone.Proofs.Run.TwoNodes

/-!
The stored delays over whole runs.

A delay is asked for by five kinds of requests, swept by two and cleared by one, and jobs of a
batch interleave. Still the history alone tells how an evaluation is answered. This file

1. defines the latest computation of a pair in a history (`LatestComputed`);
2. says what every evaluation must answer after what happened before it (`MemoRule`);
3. keeps, along every move, that the store holds the latest computations and nothing else, and
   that all evaluations so far kept the rule (`Memo.move`);
4. concludes for runs whose clock does not go back (`evaluated_of_run`).
-/
namespace LightCone

/-! ## The latest computation of a pair -/

/-- A value is computed for two ids at a time, not taken from the store. -/
def Happening.Computes (x y : String) (time : Instant) (value : DelayResult) (h : Happening) : Prop :=
  ∃ source target, h = .evaluated source target time (.ok value) ∧ value.cached = false ∧
    SamePair source.id target.id x y

theorem Happening.computes_evaluated_iff {a b : Node} {now time : Instant} {r value : DelayResult}
    {x y : String} : (Happening.evaluated a b now (.ok r)).Computes x y time value ↔
      r.cached = false ∧ SamePair a.id b.id x y ∧ time = now ∧ value = r := by
  refine ⟨?_, ?_⟩
  · intro hcomputes
    obtain ⟨source, target, hsame, hcached, hpair⟩ := hcomputes
    cases hsame
    exact ⟨hcached, hpair, rfl, rfl⟩
  · intro hcomputes
    obtain ⟨hcached, hpair, rfl, rfl⟩ := hcomputes
    exact ⟨a, b, rfl, hcached, hpair⟩

theorem Happening.not_computes_fault {a b : Node} {now time : Instant} {fault : Fault}
    {value : DelayResult} {x y : String} :
    ¬ (Happening.evaluated a b now (.error fault)).Computes x y time value := by
  intro hcomputes
  obtain ⟨source, target, hsame, _⟩ := hcomputes
  cases hsame

/-- The last value computed for two ids, and its time; nothing was cleared since. -/
def LatestComputed (history : List Happening) (x y : String) (time : Instant)
    (value : DelayResult) : Prop :=
  ∃ h, Latest (fun g => ∃ t v, g.Computes x y t v) history h ∧ h.Computes x y time value

section Latest

variable {history : List Happening} {h : Happening} {x y : String} {time : Instant}
  {value : DelayResult}

theorem not_latestComputed_nil : ¬ LatestComputed [] x y time value := by
  intro hsome
  obtain ⟨h, hlatest, _⟩ := hsome
  exact not_latest_nil hlatest

theorem latestComputed_snoc : LatestComputed (history ++ [h]) x y time value ↔
    h.Computes x y time value ∨
      LatestComputed history x y time value ∧ h ≠ .cleared ∧ ∀ t v, ¬ h.Computes x y t v := by
  refine ⟨?_, ?_⟩
  · intro hsome
    obtain ⟨g, hlatest, hcomputes⟩ := hsome
    rcases latest_snoc.mp hlatest with ⟨rfl, _⟩ | ⟨hold, hclear, hnot⟩
    · exact .inl hcomputes
    · exact .inr ⟨⟨g, hold, hcomputes⟩, hclear, fun t v hnew => hnot ⟨t, v, hnew⟩⟩
  · intro hcases
    rcases hcases with hcomputes | ⟨⟨g, hold, hcomputes⟩, hclear, hnot⟩
    · exact ⟨h, latest_snoc.mpr (.inl ⟨rfl, time, value, hcomputes⟩), hcomputes⟩
    · refine ⟨g, latest_snoc.mpr (.inr ⟨hold, hclear, ?_⟩), hcomputes⟩
      intro hsome
      obtain ⟨t, v, hnew⟩ := hsome
      exact hnot t v hnew

/-- There is one latest computation at most. -/
theorem LatestComputed.unique {time' : Instant} {value' : DelayResult}
    (hlatest : LatestComputed history x y time value)
    (hlatest' : LatestComputed history x y time' value') : time = time' ∧ value = value' := by
  obtain ⟨g, hg, source, target, hsame, _⟩ := hlatest
  obtain ⟨g', hg', _, _, hsame', _⟩ := hlatest'
  rw [hg.unique hg', hsame'] at hsame
  cases hsame
  exact ⟨rfl, rfl⟩

end Latest

/-! ## What an evaluation must answer -/

/-- What is stored of a computed value. -/
def DelayResult.stored (value : DelayResult) : StoredDelay :=
  ⟨value.delay, value.distance, value.computedAt⟩

/-- The latest computation of two ids has not expired: its lifetime has not passed, or the calendar
    has not ended if that comes first. -/
def FreshComputed (settings : PropagationSettings) (history : List Happening) (x y : String)
    (now : Instant) : Prop :=
  ∃ t₀ v, LatestComputed history x y t₀ v ∧ now < t₀.addCapped settings.delayLifetime

/-- What a delay evaluation of two nodes at a time must answer after a history. -/
structure MemoRule (settings : PropagationSettings) (history : List Happening) (a b : Node)
    (now : Instant) (answer : Except Fault DelayResult) : Prop where
  /-- It is served from the store just while the latest computation of the pair is fresh. -/
  served_iff : (∃ r, answer = .ok r ∧ r.cached = true) ↔
    FreshComputed settings history a.id b.id now
  /-- What is served is the latest computation. -/
  served_eq : ∀ {r t₀ v}, answer = .ok r → r.cached = true →
    LatestComputed history a.id b.id t₀ v →
      r.delay = v.delay ∧ r.distance = v.distance ∧ r.computedAt = v.computedAt
  /-- What is computed is the network delay over the distance of the two nodes, at this time. -/
  computed_eq : ∀ {r}, answer = .ok r → r.cached = false →
    r.delay = networkDelay r.distance settings.networkFactor ∧
      r.distance = a.position.distance b.position ∧ r.computedAt = now
  /-- The answer names the nodes in the order in which they were asked for. -/
  named : ∀ {r}, answer = .ok r → r.source = a.id ∧ r.target = b.id

namespace MemoRule

variable {settings : PropagationSettings} {history : List Happening} {a b : Node} {now t₀ : Instant}
  {v : DelayResult} {computed : StoredDelay} {fault : Fault}

theorem of_stored (hlatest : LatestComputed history a.id b.id t₀ v)
    (hfresh : now < t₀.addCapped settings.delayLifetime) :
    MemoRule settings history a b now (.ok (Memory.answerStored a b v.stored true)) where
  served_iff := ⟨fun _ => ⟨t₀, v, hlatest, hfresh⟩, fun _ => ⟨_, rfl, rfl⟩⟩
  served_eq := by
    intro r t₁ v₁ hr _ hlatest₁
    obtain ⟨_, rfl⟩ := hlatest.unique hlatest₁
    cases hr
    exact ⟨rfl, rfl, rfl⟩
  computed_eq := by
    intro r hr hcached
    cases hr
    exact absurd hcached Bool.noConfusion
  named := by
    intro r hr
    cases hr
    exact ⟨rfl, rfl⟩

theorem of_computed (hmissing : ¬ FreshComputed settings history a.id b.id now)
    (hdelay : computed.delay = networkDelay computed.distance settings.networkFactor)
    (hdistance : computed.distance = a.position.distance b.position)
    (hat : computed.computedAt = now) :
    MemoRule settings history a b now (.ok (Memory.answerStored a b computed false)) where
  served_iff := by
    refine ⟨?_, fun hfresh => absurd hfresh hmissing⟩
    intro hserved
    obtain ⟨r, hr, hcached⟩ := hserved
    cases hr
    exact absurd hcached Bool.noConfusion
  served_eq := by
    intro r t₁ v₁ hr hcached _
    cases hr
    exact absurd hcached Bool.noConfusion
  computed_eq := by
    intro r hr _
    cases hr
    exact ⟨hdelay, hdistance, hat⟩
  named := by
    intro r hr
    cases hr
    exact ⟨rfl, rfl⟩

theorem of_fault (hmissing : ¬ FreshComputed settings history a.id b.id now) :
    MemoRule settings history a b now (.error fault) where
  served_iff := by
    refine ⟨?_, fun hfresh => absurd hfresh hmissing⟩
    intro hserved
    obtain ⟨r, hr, _⟩ := hserved
    cases hr
  served_eq := by
    intro r t₁ v₁ hr
    cases hr
  computed_eq := by
    intro r hr
    cases hr
  named := by
    intro r hr
    cases hr

end MemoRule

/-- Every evaluation of a history keeps the rule. -/
def KeepsMemoRule (settings : PropagationSettings) (history : List Happening) : Prop :=
  ∀ ⦃before after a b now answer⦄, history = before ++ .evaluated a b now answer :: after →
    MemoRule settings before a b now answer

theorem KeepsMemoRule.snoc {settings : PropagationSettings} {history : List Happening}
    {h : Happening} (hkeeps : KeepsMemoRule settings history)
    (hlast : ∀ {a b now answer}, h = .evaluated a b now answer →
      MemoRule settings history a b now answer) : KeepsMemoRule settings (history ++ [h]) := by
  intro before after a b now answer hsplit
  rcases snoc_eq_append_cons hsplit with ⟨rfl, rfl, _⟩ | ⟨rest, _, rfl⟩
  · exact hlast rfl
  · exact hkeeps rfl

/-! ## The store along a run -/

/-- The latest computed values, as they are stored. -/
def latestDelays (history : List Happening) (ids : String × String) (time : Instant)
    (stored : StoredDelay) : Prop :=
  ∃ value, LatestComputed history ids.1 ids.2 time value ∧ value.stored = stored

/-- The store holds the latest computations, but for expired ones that were swept; and all
    evaluations kept the rule. -/
structure Memo (settings : PropagationSettings) (history : List Happening) (s : Service) : Prop where
  settings_eq : s.settings.propagation = settings
  remembers : s.memory.delays.Remembers (fun ids : String × String => NodePair.of ids.1 ids.2)
    settings.delayLifetime (· ≤ s.now) (latestDelays history)
  keeps : KeepsMemoRule settings history

namespace Memo

variable {settings : PropagationSettings} {history : List Happening} {s s' : Service}

/-- A read finds the latest computation of its pair, and only while that is fresh. -/
theorem get?_eq_some_iff (h : Memo settings history s) {x y : String} {stored : StoredDelay} :
    s.memory.delays.get? (.of x y) s.now = some stored ↔
      ∃ t v, LatestComputed history x y t v ∧ v.stored = stored ∧
        s.now < t.addCapped settings.delayLifetime := by
  refine (h.remembers.get?_eq_some_iff (i := (x, y))).trans ⟨?_, ?_⟩
  · intro hsome
    obtain ⟨t, ⟨v, hlatest, hstored⟩, hfresh⟩ := hsome
    exact ⟨t, v, hlatest, hstored, hfresh⟩
  · intro hsome
    obtain ⟨t, v, hlatest, hstored, hfresh⟩ := hsome
    exact ⟨t, ⟨v, hlatest, hstored⟩, hfresh⟩

/-- The rule holds of the next evaluation, whatever it is. -/
theorem rule (h : Memo settings history s) (a b : Node) :
    MemoRule settings history a b s.now (s.memory.evaluate s.env a b).1 := by
  have hmissing (hget : s.memory.delays.get? (.of a.id b.id) s.now = none) :
      ¬ FreshComputed settings history a.id b.id s.now := by
    intro hfresh
    obtain ⟨t₀, v, hlatest, hfresh⟩ := hfresh
    have hsome := h.get?_eq_some_iff.mpr ⟨t₀, v, hlatest, rfl, hfresh⟩
    rw [hget] at hsome
    cases hsome
  rcases s.memory.evaluate_cases s.env a b with ⟨stored, hget, hanswer, _⟩ |
    ⟨hget, fault, _, hanswer, _⟩ | ⟨hget, computed, hcompute, hanswer, _⟩
  all_goals
    rw [hanswer]
  · obtain ⟨t, v, hlatest, rfl, hfresh⟩ := h.get?_eq_some_iff.mp hget
    exact .of_stored hlatest hfresh
  · exact .of_fault (hmissing hget)
  · obtain ⟨hdelay, hdistance, hat⟩ := Memory.compute_ok hcompute
    rw [← h.settings_eq]
    refine .of_computed ?_ hdelay hdistance hat
    rw [h.settings_eq]
    exact hmissing hget

/-- The store is as it was, and what happens neither computes nor clears. -/
theorem frame (h : Memo settings history s) {e : Happening}
    (henv : s'.settings = s.settings ∧ s'.now = s.now) (hdelays : s'.memory.delays = s.memory.delays)
    (hclear : e ≠ .cleared) (hnot : ∀ x y t v, ¬ e.Computes x y t v)
    (hkeeps : KeepsMemoRule settings (history ++ [e])) : Memo settings (history ++ [e]) s' := by
  refine ⟨henv.1 ▸ h.settings_eq, ?_, hkeeps⟩
  rw [hdelays, henv.2]
  refine h.remembers.congr ?_
  intro ids time stored
  simp only [latestDelays, latestComputed_snoc, hnot, false_or]
  refine ⟨?_, ?_⟩
  · intro hsome
    obtain ⟨v, ⟨hlatest, _⟩, hstored⟩ := hsome
    exact ⟨v, hlatest, hstored⟩
  · intro hsome
    obtain ⟨v, hlatest, hstored⟩ := hsome
    exact ⟨v, ⟨hlatest, hclear, fun _ _ => not_false⟩, hstored⟩

/-- The store is as it was, and what happens is no evaluation. -/
theorem other (h : Memo settings history s) {e : Happening}
    (henv : s'.settings = s.settings ∧ s'.now = s.now) (hdelays : s'.memory.delays = s.memory.delays)
    (hclear : e ≠ .cleared) (hother : ∀ a b now answer, e ≠ .evaluated a b now answer) :
    Memo settings (history ++ [e]) s' := by
  refine h.frame henv hdelays hclear ?_ ?_
  · intro x y t v hsome
    obtain ⟨source, target, hsame, _⟩ := hsome
    exact hother _ _ _ _ hsame
  · refine h.keeps.snoc ?_
    intro a b now answer hsame
    exact absurd hsame (hother _ _ _ _)

/-- The store is as it was, and nothing happens. -/
theorem still (h : Memo settings history s) (henv : s'.settings = s.settings ∧ s'.now = s.now)
    (hdelays : s'.memory.delays = s.memory.delays) : Memo settings (history ++ []) s' := by
  rw [List.append_nil]
  refine ⟨henv.1 ▸ h.settings_eq, ?_, h.keeps⟩
  rw [hdelays, henv.2]
  exact h.remembers

/-- What an evaluation computes is stored, and is the latest computation of its pair then. -/
theorem computed (h : Memo settings history s) {a b : Node} {stored : StoredDelay}
    (hdelays : s'.memory.delays = s.memory.delays.insert (.of a.id b.id) stored s.now)
    (henv : s'.settings = s.settings ∧ s'.now = s.now)
    (hkeeps : KeepsMemoRule settings
      (history ++ [.evaluated a b s.now (.ok (Memory.answerStored a b stored false))])) :
    Memo settings
      (history ++ [.evaluated a b s.now (.ok (Memory.answerStored a b stored false))]) s' := by
  refine ⟨henv.1 ▸ h.settings_eq, ?_, hkeeps⟩
  rw [hdelays, henv.2]
  refine h.remembers.insert ?_
  -- Only the pair of the two nodes, in either order, gets a new latest computation.
  intro ids t found
  obtain ⟨x, y⟩ := ids
  rw [ne_eq, eq_comm, NodePair.of_eq_of_iff]
  simp only [latestDelays, latestComputed_snoc, Happening.computes_evaluated_iff]
  refine ⟨?_, ?_⟩
  · intro hlatest
    obtain ⟨v, ⟨_, hpair, rfl, rfl⟩ | ⟨hold, _, hnot⟩, rfl⟩ := hlatest
    · exact .inl ⟨hpair, rfl, rfl⟩
    · exact .inr ⟨fun hpair => hnot _ _ ⟨rfl, hpair, rfl, rfl⟩, v, hold, rfl⟩
  · intro hcases
    rcases hcases with ⟨hpair, rfl, rfl⟩ | ⟨hpair, v, hold, rfl⟩
    · exact ⟨_, .inl ⟨rfl, hpair, rfl, rfl⟩, rfl⟩
    · exact ⟨v, .inr ⟨hold, Happening.noConfusion, fun _ _ hnew => hpair hnew.2.1⟩, rfl⟩

/-- An evaluation keeps the rule and stores what it computes. -/
theorem evaluate (h : Memo settings history s) (a b : Node) :
    Memo settings (history ++ [s.memory.evaluation s.env a b])
      (s.remember (s.memory.evaluate s.env a b).2) := by
  have hkeeps : KeepsMemoRule settings (history ++ [s.memory.evaluation s.env a b]) := by
    refine h.keeps.snoc ?_
    intro a' b' now answer hsame
    rw [Memory.evaluation] at hsame
    cases hsame
    exact h.rule a b
  rw [Memory.evaluation] at hkeeps ⊢
  rcases s.memory.evaluate_cases s.env a b with ⟨stored, _, hanswer, hdelays⟩ |
    ⟨_, fault, _, hanswer, hdelays⟩ | ⟨_, computed, _, hanswer, hdelays⟩
  all_goals
    rw [hanswer] at hkeeps ⊢
  · refine h.frame ⟨rfl, rfl⟩ hdelays Happening.noConfusion ?_ hkeeps
    intro x y t v hcomputes
    exact absurd (Happening.computes_evaluated_iff.mp hcomputes).1 Bool.noConfusion
  · exact h.frame ⟨rfl, rfl⟩ hdelays Happening.noConfusion
      (fun _ _ _ _ => Happening.not_computes_fault) hkeeps
  · exact h.computed hdelays ⟨rfl, rfl⟩ hkeeps

/-- After clearing nothing is stored and nothing counts as computed. -/
theorem clearCaches (h : Memo settings history s) :
    Memo settings (history ++ [.cleared]) s.clearCaches.2 := by
  refine ⟨h.settings_eq, h.remembers.clear ?_, ?_⟩
  · intro ids time stored hsome
    obtain ⟨v, hlatest, _⟩ := hsome
    rcases latestComputed_snoc.mp hlatest with ⟨_, _, hsame, _⟩ | ⟨_, hclear, _⟩
    · cases hsame
    · exact absurd rfl hclear
  · refine h.keeps.snoc ?_
    intro a b now answer hsame
    cases hsame

/-- Every move keeps the store and the rule. -/
theorem move (h : Memo settings history s) {later : List Happening} (hmove : s.Move later s') :
    Memo settings (history ++ later) s' := by
  cases hmove with
  | evaluate a b => exact h.evaluate a b
  | keepOffset record =>
    exact h.other ⟨rfl, rfl⟩ rfl Happening.noConfusion fun _ _ _ _ => Happening.noConfusion
  | deriveTiming ids validators worst =>
    exact h.other ⟨rfl, rfl⟩ rfl Happening.noConfusion fun _ _ _ _ => Happening.noConfusion
  | count e => exact h.still ⟨rfl, rfl⟩ rfl
  | sweepDelays =>
    rw [List.append_nil]
    exact ⟨h.settings_eq, h.remembers.sweep fun _ hexpired => hexpired, h.keeps⟩
  | sweepTimings => exact h.still ⟨rfl, rfl⟩ rfl
  | sweepOffsets => exact h.still ⟨rfl, rfl⟩ rfl
  | clearCaches => exact h.clearCaches
  | statuses statuses => exact h.still ⟨rfl, rfl⟩ rfl
  | directory directory => exact h.still ⟨rfl, rfl⟩ rfl

/-- What has expired stays expired while the clock does not go back. -/
theorem setNow (h : Memo settings history s) {now : Instant}
    (hclock : Service.notEarlier s.now now) : Memo settings history (s.setNow now) :=
  ⟨h.settings_eq, h.remembers.mono fun _ hexpired => hexpired.trans hclock, h.keeps⟩

end Memo

theorem memo_start {settings : Settings} {directory : Directory} {access : Access}
    {now : Instant} {metrics : Option Metrics} {s : Service}
    (hstart : Service.start settings directory access now metrics = .ok s) :
    Memo settings.propagation [] s := by
  rw [Service.eq_of_start hstart]
  refine ⟨rfl, .empty ?_, ?_⟩
  · intro ids time stored hlatest
    obtain ⟨v, hlatest, _⟩ := hlatest
    exact not_latestComputed_nil hlatest
  · intro before after a b now answer hsplit
    exact absurd hsplit.symm (by simp)

/-! ## Every evaluation of every run -/

/-- What has just been computed is the latest computation of the two nodes in the other direction. -/
theorem latestComputed_turned {m : Memory} {env : Environment} {a b : Node} {computed : StoredDelay}
    (h : (m.evaluate env a b).1 = .ok (Memory.answerStored a b computed false))
    (history : List Happening) :
    LatestComputed (history ++ [m.evaluation env a b]) b.id a.id env.now
      (Memory.answerStored a b computed false) := by
  refine latestComputed_snoc.mpr (.inl ⟨a, b, ?_, rfl, .inr ⟨rfl, rfl⟩⟩)
  rw [Memory.evaluation, h]

/-- In a run whose clock does not go back the store holds the latest computations. -/
theorem memo_of_run {settings : Settings} {directory : Directory} {access : Access}
    {start : Instant} {metrics : Option Metrics} {s₀ s : Service}
    (hstart : Service.start settings directory access start metrics = .ok s₀)
    {requests : List Request} {history : List Happening} {answers : List Answer}
    (hrun : Service.Run Service.notEarlier s₀ requests history answers s) :
    Memo settings.propagation history s :=
  hrun.invariant (fun h => h.move) (fun h => h.setNow) (memo_start hstart)

/-- In a run whose clock does not go back, with the jobs of a batch in any order, every delay
    evaluation is answered as the history before it demands. It is served from the store if and
    only if the pair was computed before, nothing was cleared since the latest computation, and
    that has not expired. Then it is that computation, in whichever direction it was made. -/
theorem evaluated_of_run {settings : Settings} {directory : Directory} {access : Access}
    {start : Instant} {metrics : Option Metrics} {s₀ s : Service}
    (hstart : Service.start settings directory access start metrics = .ok s₀)
    {requests : List Request} {history : List Happening} {answers : List Answer}
    (hrun : Service.Run Service.notEarlier s₀ requests history answers s)
    {before after : List Happening} {a b : Node} {now : Instant}
    {answer : Except Fault DelayResult}
    (hsplit : history = before ++ .evaluated a b now answer :: after) :
    MemoRule settings.propagation before a b now answer :=
  (memo_of_run hstart hrun).keeps hsplit

open TwoNodes

/-- Asked for in one direction and then in the other, a delay is served the second time. -/
theorem evaluated_of_run_both_ways : ∃ s history answers before answer,
    Service.Run Service.notEarlier (service 0 ground_ok) [.delay "a" "b", .delay "b" "a"] history
      answers s ∧
    history = before ++ [.evaluated (upper 0 ground_ok) lower .epoch answer] ∧
    MemoRule {} before (upper 0 ground_ok) lower .epoch answer ∧
    ∃ r, answer = .ok r ∧ r.cached = true := by
  obtain ⟨computed, hfirst⟩ := evaluate_first finite_ground
  have hnone : Service.Run Service.notEarlier (service 0 ground_ok) [] [] [] _ := .nil
  have hrun := (hnone.snoc (.alone (r := .delay "a" "b") rfl) (le_refl Instant.epoch)).snoc
    (.alone (r := .delay "b" "a") rfl) (le_refl Instant.epoch)
  rw [Service.history_delay answer_lower answer_upper] at hrun
  rw [Service.history_delay (s := ((service 0 ground_ok).serve (.delay "a" "b")).2)
    answer_upper answer_lower] at hrun
  have hrule := evaluated_of_run start_eq hrun rfl
  refine ⟨_, _, _, _, _, hrun, rfl, hrule, hrule.served_iff.mpr ?_⟩
  exact ⟨.epoch, _, latestComputed_turned hfirst [], by decide⟩

/-- Settings by which delays are stored for half a second. -/
def hasty : Settings := { propagation := { delayLifetime := .ofMillis 500 } }

theorem check_hasty : hasty.check = .ok () :=
  Settings.check_eq_ok_iff.mpr (by constructor <;> decide +kernel)

/-- The start of the leap second at the end of the calendar, past its last instant. -/
def afterLatest : Instant := ⟨8210266876799000000000, true, by decide⟩

/-- Inside that leap second a lifetime shorter than a second is a sum that the calendar holds, and is
    not cut short: the second delay is served, though no time is left before the last instant. -/
theorem served_after_latest :
    Service.start hasty (directory 0 ground_ok) {} .epoch none = .ok (tuned hasty 0 ground_ok) ∧
    (∃ s history answers before answer,
      Service.Run Service.notEarlier (tuned hasty 0 ground_ok)
        [.setNow afterLatest, .delay "a" "b", .delay "b" "a"] history answers s ∧
      history = before ++ [.evaluated (upper 0 ground_ok) lower afterLatest answer] ∧
      ∃ r, answer = .ok r ∧ r.cached = true) ∧
    ∀ sum : Instant, ¬ afterLatest < min sum .latest := by
  have hstart : Service.start hasty (directory 0 ground_ok) {} .epoch none =
      .ok (tuned hasty 0 ground_ok) := start_tuned check_hasty
  have hnone : Service.Run Service.notEarlier (tuned hasty 0 ground_ok) [] [] [] _ := .nil
  have hforward : Instant.epoch ≤ afterLatest := by decide
  have hrun := ((hnone.snoc (.alone (r := .setNow afterLatest) rfl) hforward).snoc
    (.alone (r := .delay "a" "b") rfl) (le_refl afterLatest)).snoc
    (.alone (r := .delay "b" "a") rfl) (le_refl afterLatest)
  let s := (tuned hasty 0 ground_ok).setNow afterLatest
  have hlower : s.env.answer "a" = .ok lower := rfl
  have hupper : s.env.answer "b" = .ok (upper 0 ground_ok) := rfl
  obtain ⟨computed, hfirst⟩ : ∃ computed, (s.memory.evaluate s.env lower (upper 0 ground_ok)).1 =
      .ok (Memory.answerStored lower (upper 0 ground_ok) computed false) :=
    ⟨_, Memory.evaluate_of_missing rfl finite_ground⟩
  have hlast := congrArg (s.history (.delay "a" "b") ++ ·) (Service.history_delay
    (s := (s.serve (.delay "a" "b")).2) hupper hlower)
  refine ⟨hstart, ⟨_, _, _, _, _, hrun, hlast, ?_⟩, fun sum => ?_⟩
  · have hrule := (memo_of_run hstart hrun).keeps hlast
    exact hrule.served_iff.mpr ⟨afterLatest, _, latestComputed_turned hfirst [], by decide⟩
  · have hpast : Instant.latest ≤ afterLatest := by decide
    exact not_lt.mpr ((min_le_right _ _).trans hpast)

end LightCone
