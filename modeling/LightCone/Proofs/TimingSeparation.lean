import LightCone.Proofs.Expiry
import LightCone.Proofs.Run.Latest
import LightCone.Proofs.Run.Moves
import LightCone.Proofs.Run.TwoNodes
import LightCone.Proofs.SetNames

/-!
Whose timing a validator set is given, over whole runs.

Timings are stored under the names of sets, and a set whose name is stored is given what is
there. This file

1. defines the latest timing of a name in a history, and keeps along every move that the store
   holds nothing else (`TimingMemo.move`);
2. says when a call for one list is answered from what a call for another list has stored
   (`AnsweredFrom`);
3. shows over every run that this happens between lists with the same pieces only
   (`answeredFrom_iff_pieces`), hence within one set if no id contains the zero character, and
   gives two sets that share a timing.
-/
namespace LightCone

/-! ## The latest timing of a name -/

/-- A timing is derived for a list of ids of a name. -/
def Happening.Derives (name : String) (h : Happening) : Prop :=
  ∃ ids timing, h = .timed ids timing ∧ fingerprint ids = name

/-- The last timing derived under a name, and the list it was derived for; nothing was cleared
    since. -/
def LatestTiming (history : List Happening) (name : String) (ids : List String)
    (timing : ConsensusTiming) : Prop :=
  Latest (Happening.Derives name) history (.timed ids timing)

/-- The latest timings under the names of lists, each with its time. -/
def latestTimings (history : List Happening) (ids : List String) (time : Instant)
    (timing : ConsensusTiming) : Prop :=
  ∃ source, LatestTiming history (fingerprint ids) source timing ∧ timing.computedAt = time

theorem LatestTiming.fingerprint_eq {history : List Happening} {name : String} {ids : List String}
    {timing : ConsensusTiming} (h : LatestTiming history name ids timing) :
    fingerprint ids = name := by
  obtain ⟨ids', timing', hsame, hname⟩ := h.of_kind
  cases hsame
  exact hname

/-! ## The store along a run -/

/-- The store of timings holds the latest ones. `lapsed` tells which expiries may be forgotten. -/
structure TimingMemo (lapsed : Instant → Instant → Prop) (history : List Happening) (s : Service) :
    Prop where
  remembers : s.memory.timings.Remembers fingerprint s.settings.consensus.timingLifetime
    (lapsed s.now) (latestTimings history)

namespace TimingMemo

variable {lapsed : Instant → Instant → Prop} {history : List Happening} {s s' : Service}

/-- The store is as it was, and what happens is no timing. -/
theorem frame (h : TimingMemo lapsed history s) {e : Happening}
    (henv : s'.settings = s.settings ∧ s'.now = s.now)
    (htimings : s'.memory.timings = s.memory.timings) (hclear : e ≠ .cleared)
    (hother : ∀ ids timing, e ≠ .timed ids timing) : TimingMemo lapsed (history ++ [e]) s' := by
  refine ⟨?_⟩
  rw [htimings, henv.1, henv.2]
  refine h.remembers.congr ?_
  intro ids time timing
  have hnot : ¬ e.Derives (fingerprint ids) := by
    intro hderives
    obtain ⟨ids', timing', hsame, _⟩ := hderives
    exact hother ids' timing' hsame
  simp only [latestTimings, LatestTiming, latest_snoc_of_not hclear hnot]

/-- The store is as it was, and nothing happens. -/
theorem still (h : TimingMemo lapsed history s) (henv : s'.settings = s.settings ∧ s'.now = s.now)
    (htimings : s'.memory.timings = s.memory.timings) : TimingMemo lapsed (history ++ []) s' := by
  refine ⟨?_⟩
  rw [List.append_nil, htimings, henv.1, henv.2]
  exact h.remembers

theorem deriveTiming (h : TimingMemo lapsed history s) (ids : List String) (validators : Nat)
    (worst : Duration) :
    TimingMemo lapsed
      (history ++
        [.timed ids (.derive worst validators (fingerprint ids) s.now s.settings.consensus)])
      (s.keepTiming (.derive worst validators (fingerprint ids) s.now s.settings.consensus)) := by
  refine ⟨?_⟩
  refine h.remembers.insert ?_
  intro ids' time timing
  refine ⟨?_, ?_⟩
  -- A list of the same name is given the new timing; other lists keep theirs.
  · intro hnew
    obtain ⟨source, hlatest, htime⟩ := hnew
    rcases latest_snoc.mp hlatest with ⟨hsame, hderives⟩ | ⟨hold, _, hnot⟩
    · cases hsame
      exact .inl ⟨hlatest.fingerprint_eq.symm, htime.symm, rfl⟩
    · refine .inr ⟨fun hname => ?_, source, hold, htime⟩
      exact hnot ⟨ids, _, rfl, hname.symm⟩
  · intro hcases
    rcases hcases with ⟨hname, rfl, rfl⟩ | ⟨hname, source, hold, htime⟩
    · exact ⟨ids, latest_snoc.mpr (.inl ⟨rfl, ids, _, rfl, hname.symm⟩), rfl⟩
    · refine ⟨source, latest_snoc.mpr (.inr ⟨hold, Happening.noConfusion, ?_⟩), htime⟩
      intro hderives
      obtain ⟨ids'', timing'', hsame, hsource⟩ := hderives
      cases hsame
      exact hname hsource.symm

theorem clearCaches (h : TimingMemo lapsed history s) :
    TimingMemo lapsed (history ++ [.cleared]) s.clearCaches.2 := by
  refine ⟨?_⟩
  refine h.remembers.clear ?_
  intro ids time timing hlatest
  obtain ⟨source, hlatest, _⟩ := hlatest
  rcases latest_snoc.mp hlatest with ⟨hsame, _⟩ | ⟨_, hclear, _⟩
  · cases hsame
  · exact hclear rfl

/-- Every move keeps the store, if what has expired may be forgotten. -/
theorem move (h : TimingMemo lapsed history s)
    (hlapsed : ∀ {now e : Instant}, e ≤ now → lapsed now e) {later : List Happening}
    (hmove : s.Move later s') : TimingMemo lapsed (history ++ later) s' := by
  cases hmove with
  | evaluate a b =>
    have htimings := (s.memory.evaluate_frame s.env a b).1
    exact h.frame ⟨rfl, rfl⟩ htimings Happening.noConfusion fun _ _ => Happening.noConfusion
  | keepOffset record =>
    exact h.frame ⟨rfl, rfl⟩ rfl Happening.noConfusion fun _ _ => Happening.noConfusion
  | deriveTiming ids validators worst => exact h.deriveTiming ids validators worst
  | count e => exact h.still ⟨rfl, rfl⟩ rfl
  | sweepDelays => exact h.still ⟨rfl, rfl⟩ rfl
  | sweepTimings =>
    refine ⟨?_⟩
    rw [List.append_nil]
    exact h.remembers.sweep fun _ hexpired => hlapsed hexpired
  | sweepOffsets => exact h.still ⟨rfl, rfl⟩ rfl
  | clearCaches => exact h.clearCaches
  | statuses statuses => exact h.still ⟨rfl, rfl⟩ rfl
  | directory directory => exact h.still ⟨rfl, rfl⟩ rfl

theorem setNow (h : TimingMemo lapsed history s) {now : Instant}
    (hlapsed : ∀ e, lapsed s.now e → lapsed now e) : TimingMemo lapsed history (s.setNow now) :=
  ⟨h.remembers.mono hlapsed⟩

theorem start {settings : Settings} {directory : Directory} {access : Access} {now : Instant}
    {metrics : Option Metrics} (hstart : Service.start settings directory access now metrics = .ok s) :
    TimingMemo lapsed [] s := by
  rw [Service.eq_of_start hstart]
  refine ⟨?_⟩
  refine .empty ?_
  intro ids time timing hlatest
  obtain ⟨source, hlatest, _⟩ := hlatest
  exact not_latest_nil hlatest

end TimingMemo

/-! ## Answers from the store -/

/-- In a service with a history, a call for the list `B` is answered with a timing that a call
    for the list `A` has stored. -/
structure AnsweredFrom (history : List Happening) (s : Service) (A B : List String)
    (timing : ConsensusTiming) : Prop where
  answered : s.consensusTiming B = (.ok timing, s.count (.cacheHit .timing))
  hit : s.memory.timings.get? (fingerprint B) s.now = some timing
  origin : LatestTiming history (fingerprint B) A timing

/-- Lists of one name are answered alike. -/
theorem AnsweredFrom.congr {history : List Happening} {s : Service} {A B C : List String}
    {timing : ConsensusTiming} (h : AnsweredFrom history s A B timing)
    (hname : fingerprint B = fingerprint C) : AnsweredFrom history s A C timing := by
  have hhit := h.hit
  have horigin := h.origin
  rw [hname] at hhit horigin
  exact ⟨Service.consensusTiming_of_hit hhit, hhit, horigin⟩

/-! ## Every run -/

/-- In every run, with any clock and the jobs of a batch in any order, whatever the store
    answers a call for a set was stored by a call for some list. Unless the digest collides on
    the two lists, a call for `B` is answered with what a call for `A` has stored if and only if
    their pieces are the same (and a call for `A` would be answered with it). For lists without
    zero characters that means the same set. -/
theorem answeredFrom_iff_pieces {settings : Settings} {directory : Directory} {access : Access}
    {start : Instant} {metrics : Option Metrics} {s₀ s : Service}
    (hstart : Service.start settings directory access start metrics = .ok s₀)
    {requests : List Request} {history : List Happening} {answers : List Answer}
    (hrun : Service.Run Service.anyTime s₀ requests history answers s) :
    (∀ B timing, s.memory.timings.get? (fingerprint B) s.now = some timing →
      ∃ A, AnsweredFrom history s A B timing) ∧
    ∀ A B, Collisionless A B →
      (fingerprint A = fingerprint B ↔ pieces A = pieces B) ∧
      (∀ timing, AnsweredFrom history s A B timing ↔
        AnsweredFrom history s A A timing ∧ pieces A = pieces B) ∧
      (ZeroFree A → ZeroFree B → (pieces A = pieces B ↔ ∀ id, id ∈ A ↔ id ∈ B)) := by
  have hmemo : TimingMemo (fun _ _ => True) history s :=
    hrun.invariant (fun h => h.move fun _ => trivial) (fun h _ => h.setNow fun _ _ => trivial)
      (TimingMemo.start hstart)
  refine ⟨?_, ?_⟩
  · intro B timing hget
    obtain ⟨time, ⟨A, horigin, _⟩, _⟩ := hmemo.remembers.latest_of_get? hget
    exact ⟨A, Service.consensusTiming_of_hit hget, hget, horigin⟩
  · intro A B hdigest
    have hname := fingerprint_eq_iff hdigest
    refine ⟨hname, fun timing => ⟨?_, ?_⟩, fun hA hB => pieces_eq_iff hA hB⟩
    · intro h
      have hsame := h.origin.fingerprint_eq
      exact ⟨h.congr hsame.symm, hname.mp hsame⟩
    · intro h
      exact h.1.congr (hname.mpr h.2)

/-! ## The two nodes -/

/-- A timing that was just derived is found in the store until it expires. -/
theorem get?_of_derived {s : Service} {ids : List String} {timing : ConsensusTiming} {t : Instant}
    (hget : s.memory.timings.get? (fingerprint ids) s.now = none)
    (hok : (s.consensusTiming ids).1 = .ok timing)
    (hfresh : t < s.now.addCapped s.memory.timings.lifetime) :
    (s.consensusTiming ids).2.memory.timings.get? (fingerprint ids) t = some timing := by
  rcases s.consensusTiming_cases ids with ⟨_, hhit, _⟩ | ⟨_, _, hfault, _⟩ |
    ⟨_, derived, hderived, _, htimings⟩
  · rw [hget] at hhit
    cases hhit
  · rw [hfault] at hok
    cases hok
  · rw [hderived] at hok
    cases hok
    rw [htimings]
    exact ExpiringCache.get?_insert_self hfresh

/-- It is the latest one of its name. -/
theorem latestTiming_of_derived {s : Service} {ids : List String} {timing : ConsensusTiming}
    (hget : s.memory.timings.get? (fingerprint ids) s.now = none)
    (hok : (s.consensusTiming ids).1 = .ok timing) (history : List Happening) :
    LatestTiming (history ++ s.timingHistory ids) (fingerprint ids) ids timing := by
  simp only [Service.timingHistory, hget, hok]
  rw [← List.append_assoc]
  exact latest_snoc.mpr (.inl ⟨rfl, ids, timing, rfl, rfl⟩)

open TwoNodes

/-- Once the two nodes have been given a timing, every list of their name is answered with it. -/
theorem answeredFrom_after_timing {B : List String} (hname : fingerprint ["a", "b"] = fingerprint B) :
    ∃ s history answers timing,
      Service.Run Service.anyTime (service 0 ground_ok) [.consensusTiming ["a", "b"]] history answers s ∧
      AnsweredFrom history s ["a", "b"] B timing := by
  obtain ⟨timing, htiming⟩ : ∃ timing, ((service 0 ground_ok).consensusTiming ["a", "b"]).1 =
      .ok timing := ⟨_, consensusTiming_ok finite_ground⟩
  have hnone : Service.Run Service.anyTime (service 0 ground_ok) [] [] [] _ := .nil
  have hrun := hnone.snoc (.alone (r := .consensusTiming ["a", "b"]) rfl) trivial
  have hnow : ((service 0 ground_ok).consensusTiming ["a", "b"]).2.now = .epoch :=
    congrArg Environment.now (Service.env_consensusTiming ..)
  have hhit := get?_of_derived (t := .epoch) rfl htiming (by decide)
  rw [← hnow] at hhit
  have hanswered : AnsweredFrom _ _ ["a", "b"] ["a", "b"] timing :=
    ⟨Service.consensusTiming_of_hit hhit, hhit, latestTiming_of_derived rfl htiming []⟩
  exact ⟨_, _, _, timing, hrun, hanswered.congr hname⟩

/-- The same two nodes in another order are answered with the stored timing. -/
theorem answeredFrom_swapped : ∃ s history answers timing,
    Service.Run Service.anyTime (service 0 ground_ok) [.consensusTiming ["a", "b"]] history answers s ∧
    AnsweredFrom history s ["a", "b"] ["b", "a"] timing := by
  obtain ⟨s, history, answers, timing, hrun, hfirst⟩ := answeredFrom_after_timing rfl
  have hpieces : pieces ["a", "b"] = pieces ["b", "a"] := by decide +kernel
  have hall := (answeredFrom_iff_pieces start_eq hrun).2 ["a", "b"] ["b", "a"]
    fun _ => fingerprintBytes_eq_iff.mpr hpieces
  exact ⟨s, history, answers, timing, hrun, (hall.2.1 timing).mpr ⟨hfirst, hpieces⟩⟩

/-- A zero character inside an id reads like the end of one: two nodes and a node named after
    both share a name, and the one is answered with the timing of the two. -/
theorem two_sets_share_a_timing :
    (¬ ∀ id, id ∈ ["a", "b"] ↔ id ∈ ["a\x00b"]) ∧
    fingerprint ["a", "b"] = fingerprint ["a\x00b"] ∧
    Service.start {} (directory 0 ground_ok) {} .epoch none = .ok (service 0 ground_ok) ∧
    ∃ s history answers timing,
      Service.Run Service.anyTime (service 0 ground_ok) [.consensusTiming ["a", "b"]] history answers s ∧
      AnsweredFrom history s ["a", "b"] ["a\x00b"] timing := by
  have hpieces : pieces ["a", "b"] = pieces ["a\x00b"] := by decide +kernel
  have hname := (fingerprint_eq_iff fun _ => fingerprintBytes_eq_iff.mpr hpieces).mpr hpieces
  refine ⟨?_, hname, start_eq, answeredFrom_after_timing hname⟩
  intro hsame
  have hmem := (hsame "a").mp (by simp)
  exact absurd hmem (by decide +kernel)

end LightCone
