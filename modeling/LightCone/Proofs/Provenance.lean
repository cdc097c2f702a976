import LightCone.Proofs.Run.Effects
import LightCone.Proofs.Run.TwoNodes
import LightCone.Proofs.SetNames

/-!
Where stored delays and timings come from.

Delays are stored by the ids of their two nodes. Most requests find these nodes in the
directory, but a batch of delays is handed its records, and what it stores for two ids is then
served to everyone who asks for them. While the directory stays as it is, this is the only way
in which an answer can differ from the one that the directory itself would give. This file

1. traces every stored delay to two nodes, of the directory or of a batch since the last
   clearing (`Sourced`), and every stored timing to a list that was asked for
   (`TimingSourced`), along whole runs (`Sources.serve`);
2. shows that undisturbed ids get the delay, and undisturbed sets the timing, that follow from
   the positions in the directory (`directory_decides`);
3. gives a batch whose records disturb the delay between two nodes (`batch_disturbs_delay`).
-/
namespace LightCone

/-! ## Requests that bring nodes of their own -/

namespace Request

/-- Whether a request changes the directory. -/
def editsDirectory : Request → Bool
  | upsert _ | remove _ | setActive .. => true
  | _ => false

/-- Whether a request forgets everything that is stored. -/
def clears : Request → Bool
  | clearCaches => true
  | _ => false

/-- A request hands over two records to have the delay between them evaluated. -/
def Supplies (a b : Node) : Request → Prop
  | batchDelays nodes _ => (a, b) ∈ pairsOf (distinctNodes nodes)
  | _ => False

/-- A request hands over records of the ids of two nodes that are at another distance than the
    nodes. -/
structure DisturbsWith (a b x y : Node) (r : Request) : Prop where
  supplies : r.Supplies x y
  samePair : SamePair x.id y.id a.id b.id
  apart : x.position.distance y.position ≠ a.position.distance b.position

def Disturbs (a b : Node) (r : Request) : Prop := ∃ x y, r.DisturbsWith a b x y

end Request

/-- The requests since everything stored was last forgotten. -/
def sinceCleared (requests : List Request) : List Request :=
  requests.foldl (fun kept r => if r.clears then [] else kept ++ [r]) []

theorem sinceCleared_snoc (requests : List Request) (r : Request) :
    sinceCleared (requests ++ [r]) = if r.clears then [] else sinceCleared requests ++ [r] := by
  simp only [sinceCleared, List.foldl_append, List.foldl_cons, List.foldl_nil]

/-! ## Stored delays -/

/-- The nodes whose delay may have been stored: both in the directory, or both handed over. -/
def Offered (d : Directory) (requests : List Request) (a b : Node) : Prop :=
  (d.Holds a ∧ d.Holds b) ∨ ∃ r ∈ requests, r.Supplies a b

/-- Every stored delay is that between two nodes of a kind. -/
def Sourced (factor : Binary64) (offered : Node → Node → Prop)
    (delays : ExpiringCache NodePair StoredDelay) : Prop :=
  ∀ ⦃pair e⦄, delays.entries.find? pair = some e → ∃ a b, offered a b ∧ pair = .of a.id b.id ∧
    (a.position.distance b.position).isFinite = true ∧
    e.value.distance = a.position.distance b.position ∧
    e.value.delay = networkDelay (a.position.distance b.position) factor

namespace Sourced

variable {factor : Binary64} {offered : Node → Node → Prop}

theorem mono {offered' : Node → Node → Prop} {delays : ExpiringCache NodePair StoredDelay}
    (h : Sourced factor offered delays) (hmore : ∀ a b, offered a b → offered' a b) :
    Sourced factor offered' delays := by
  intro pair e hfind
  obtain ⟨a, b, hoffered, hrest⟩ := h hfind
  exact ⟨a, b, hmore a b hoffered, hrest⟩

theorem empty (offered : Node → Node → Prop) (lifetime : Duration) :
    Sourced factor offered (.empty lifetime) := by
  intro pair e hfind
  cases hfind

/-- What an evaluation of such nodes stores is of the kind. -/
theorem evaluate {env : Environment} {m : Memory} {a b : Node}
    (h : Sourced env.settings.propagation.networkFactor offered m.delays) (hab : offered a b) :
    Sourced env.settings.propagation.networkFactor offered (m.evaluate env a b).2.delays := by
  rcases m.evaluate_cases env a b with ⟨_, _, _, hdelays⟩ | ⟨_, _, _, _, hdelays⟩ |
    ⟨_, computed, hcompute, _, hdelays⟩
  · rwa [hdelays]
  · rwa [hdelays]
  · rw [hdelays]
    intro pair e hfind
    simp only [ExpiringCache.insert, ExpiringCache.insertFor, Table.find?_insert] at hfind
    split at hfind
    · next hpair =>
      cases hfind
      obtain ⟨hdelay, hdistance, _⟩ := Memory.compute_ok hcompute
      rw [hdistance] at hdelay
      exact ⟨a, b, hab, hpair.symm, Memory.finite_of_compute hcompute, hdistance, hdelay⟩
    · exact h hfind

theorem sweep {delays : ExpiringCache NodePair StoredDelay} (h : Sourced factor offered delays)
    (now : Instant) : Sourced factor offered (delays.sweep now).2 := by
  intro pair e hfind
  simp only [ExpiringCache.sweep, Table.find?_filter, Option.filter_eq_some_iff] at hfind
  exact h hfind.1

/-- Moves that evaluate nodes of the kind only keep the store so. -/
theorem move {s s' : Service} {later : List Happening} (hmove : s.Move later s')
    (h : Sourced s.settings.propagation.networkFactor offered s.memory.delays)
    (hmay : ∀ a b time answer, .evaluated a b time answer ∈ later → offered a b) :
    Sourced s'.settings.propagation.networkFactor offered s'.memory.delays := by
  cases hmove with
  | evaluate a b =>
    have hab : offered a b := hmay a b s.env.now _ (List.mem_singleton.mpr rfl)
    have hstored : Sourced s.env.settings.propagation.networkFactor offered s.memory.delays := h
    exact hstored.evaluate hab
  | keepOffset record => exact h
  | deriveTiming ids validators worst => exact h
  | count e => exact h
  | sweepDelays => exact h.sweep s.now
  | sweepTimings => exact h
  | sweepOffsets => exact h
  | clearCaches => exact .empty offered s.memory.delays.lifetime
  | statuses statuses => exact h
  | directory directory => exact h

theorem moves {s s' : Service} {history : List Happening} (hmoves : s.Moves history s')
    (h : Sourced s.settings.propagation.networkFactor offered s.memory.delays)
    (hmay : ∀ a b time answer, .evaluated a b time answer ∈ history → offered a b) :
    Sourced s'.settings.propagation.networkFactor offered s'.memory.delays := by
  induction hmoves with
  | refl => exact h
  | head hmove _ ih =>
    refine ih (h.move hmove fun a b time answer hmem => ?_) fun a b time answer hmem => ?_
    · exact hmay a b time answer (List.mem_append_left _ hmem)
    · exact hmay a b time answer (List.mem_append_right _ hmem)

end Sourced

/-- What is stored for two nodes of the directory is their own, or that of records that a request
    disturbs them with. -/
theorem Sourced.own_or_disturbed {factor : Binary64} {d : Directory} {requests : List Request}
    {delays : ExpiringCache NodePair StoredDelay} (h : Sourced factor (Offered d requests) delays)
    {a b : Node} (ha : d.Holds a) (hb : d.Holds b) {e : Stamped StoredDelay}
    (hfind : delays.entries.find? (.of a.id b.id) = some e) :
    ∃ x y, ((x = a ∧ y = b) ∨ ∃ r ∈ requests, r.DisturbsWith a b x y) ∧
      (x.position.distance y.position).isFinite = true ∧
      e.value.distance = x.position.distance y.position ∧
      e.value.delay = networkDelay (x.position.distance y.position) factor := by
  obtain ⟨x, y, hoffered, hpair, hstored⟩ := h hfind
  have hsame : SamePair x.id y.id a.id b.id := NodePair.of_eq_of_iff.mp hpair.symm
  by_cases hdistance : x.position.distance y.position = a.position.distance b.position
  · rw [hdistance] at hstored
    exact ⟨a, b, .inl ⟨rfl, rfl⟩, hstored⟩
  · refine ⟨x, y, .inr ?_, hstored⟩
    rcases hoffered with ⟨hx, hy⟩ | ⟨r, hr, hsupplies⟩
    -- Records of the directory are the nodes themselves.
    · refine absurd ?_ hdistance
      rcases hsame with ⟨hxa, hyb⟩ | ⟨hxb, hya⟩
      · rw [hx.unique ha hxa, hy.unique hb hyb]
      · rw [hx.unique hb hxb, hy.unique ha hya, Position.distance_comm]
    · exact ⟨r, hr, hsupplies, hsame, hdistance⟩

/-- Two nodes of the directory that no request disturbs have what is stored for them. -/
theorem Sourced.undisturbed {factor : Binary64} {d : Directory} {requests : List Request}
    {delays : ExpiringCache NodePair StoredDelay} (h : Sourced factor (Offered d requests) delays)
    {a b : Node} (ha : d.Holds a) (hb : d.Holds b) (hcalm : ∀ r ∈ requests, ¬ r.Disturbs a b)
    {e : Stamped StoredDelay} (hfind : delays.entries.find? (.of a.id b.id) = some e) :
    (a.position.distance b.position).isFinite = true ∧
      e.value.distance = a.position.distance b.position ∧
      e.value.delay = networkDelay (a.position.distance b.position) factor := by
  obtain ⟨x, y, ⟨rfl, rfl⟩ | ⟨r, hr, hdisturbs⟩, hstored⟩ := h.own_or_disturbed ha hb hfind
  · exact hstored
  · exact absurd ⟨x, y, hdisturbs⟩ (hcalm r hr)

/-! ## Stored timings -/

/-- No request disturbs two of the nodes that a list of ids finds. -/
def Calm (env : Environment) (requests : List Request) (ids : List String) : Prop :=
  ∀ a ∈ env.resolved (distinctIds ids), ∀ b ∈ env.resolved (distinctIds ids),
    ∀ r ∈ requests, ¬ r.Disturbs a b

/-- The timing that follows from the positions of the nodes that a list of ids finds, at a time. -/
def Environment.timingOf (env : Environment) (ids : List String) (time : Instant) :
    ConsensusTiming :=
  .derive (env.longestBetween .zero (pairsOf (env.resolved (distinctIds ids))))
    (env.resolved (distinctIds ids)).length (fingerprint ids) time env.settings.consensus

/-- A stored timing was derived for a list that was asked for, and if no request disturbed its
    nodes it follows from their positions. -/
def TimingSourced (env : Environment) (requests : List Request) (name : String)
    (timing : ConsensusTiming) : Prop :=
  ∃ ids, (∃ r ∈ requests, r.timingOf = some ids) ∧ fingerprint ids = name ∧
    (Calm env requests ids → timing = env.timingOf ids timing.computedAt)

theorem Calm.of_subset {env : Environment} {requests requests' : List Request} {ids : List String}
    (h : Calm env requests' ids) (hsubset : requests ⊆ requests') : Calm env requests ids :=
  fun a ha b hb r hr => h a ha b hb r (hsubset hr)

theorem TimingSourced.mono {env : Environment} {requests requests' : List Request} {name : String}
    {timing : ConsensusTiming} (h : TimingSourced env requests name timing)
    (hsubset : requests ⊆ requests') : TimingSourced env requests' name timing := by
  obtain ⟨ids, ⟨r, hr, hasks⟩, hname, htiming⟩ := h
  exact ⟨ids, ⟨r, hsubset hr, hasks⟩, hname, fun hcalm => htiming (hcalm.of_subset hsubset)⟩

/-- A list of the same set finds the same nodes and has the same timing. -/
theorem TimingSourced.of_set {env : Environment} {requests : List Request} {ids : List String}
    {timing : ConsensusTiming} (h : TimingSourced env requests (fingerprint ids) timing)
    (hcalm : Calm env requests ids)
    (hname : ∀ r ∈ requests, ∀ others, r.timingOf = some others →
      fingerprint others = fingerprint ids → ∀ id, id ∈ others ↔ id ∈ ids) :
    timing = env.timingOf ids timing.computedAt := by
  obtain ⟨others, ⟨r, hr, hasks⟩, hsame, htiming⟩ := h
  have hids : distinctIds others = distinctIds ids :=
    distinctIds_eq_iff.mpr (hname r hr others hasks hsame)
  simp only [Calm, Environment.timingOf, hsame, hids] at htiming
  exact htiming hcalm

/-- A move that derives no timing stores none. -/
theorem timings_of_move {s s' : Service} {later : List Happening} (h : s.Move later s')
    (hnone : ∀ ids timing, .timed ids timing ∉ later) {name : String}
    {e : Stamped ConsensusTiming} (hfind : s'.memory.timings.entries.find? name = some e) :
    s.memory.timings.entries.find? name = some e := by
  cases h with
  | evaluate a b =>
    have htimings := (s.memory.evaluate_frame s.env a b).1
    simp only [Service.remember, htimings] at hfind
    exact hfind
  | deriveTiming ids validators worst =>
    exact absurd (List.mem_singleton.mpr rfl) (hnone ids _)
  | sweepTimings =>
    simp only [Service.sweepTimings, ExpiringCache.sweep, Table.find?_filter,
      Option.filter_eq_some_iff] at hfind
    exact hfind.1
  | clearCaches => cases hfind
  | keepOffset record => exact hfind
  | count e => exact hfind
  | sweepDelays => exact hfind
  | sweepOffsets => exact hfind
  | statuses statuses => exact hfind
  | directory directory => exact hfind

theorem timings_of_moves {s s' : Service} {later : List Happening} (h : s.Moves later s')
    (hnone : ∀ ids timing, .timed ids timing ∉ later) {name : String}
    {e : Stamped ConsensusTiming} (hfind : s'.memory.timings.entries.find? name = some e) :
    s.memory.timings.entries.find? name = some e := by
  induction h with
  | refl => exact hfind
  | head hmove _ ih =>
    refine timings_of_move hmove (fun ids timing hmem => ?_) (ih (fun ids timing hmem => ?_) hfind)
    · exact hnone ids timing (List.mem_append_left _ hmem)
    · exact hnone ids timing (List.mem_append_right _ hmem)

/-! ## Serving a request -/

namespace Service

/-- A request that does not change the directory changes at most the clock of what the service
    sees. -/
theorem Serves.env_eq {s s' : Service} {r : Request} {history : List Happening} {answer : Answer}
    (h : s.Serves r history answer s') (hedits : r.editsDirectory = false) :
    s'.env = { s.env with now := s'.now } := by
  have hsame (henv : s'.env = s.env) : s'.env = { s.env with now := s'.now } := by
    rw [now, henv]
  cases h with
  | batchDelays batch => rfl
  | delayMatrix batch => rfl
  | maxDelay batch => rfl
  | batchOffsets batch => rfl
  | sync hcycle => exact hsame hcycle.env_eq
  | runLoop hcycles => exact hsame hcycles.env_eq
  | alone hbatch =>
    cases r with
    | upsert node => exact absurd hedits Bool.noConfusion
    | remove id => exact absurd hedits Bool.noConfusion
    | setActive id active seen => exact absurd hedits Bool.noConfusion
    | consensusTiming ids => exact hsame (env_consensusTiming s ids)
    | timeouts ids => exact hsame (env_consensusTiming s ids)
    | votingWindow ids => exact hsame (env_consensusTiming s ids)
    | blockInterval ids load => exact hsame (env_consensusTiming s ids)
    | storedOffset id => exact hsame (env_storedOffset s id)
    | adjust timestamp id => exact hsame (env_storedOffset s id)
    | currentOffset id =>
      have hstored := env_storedOffset s id
      refine hsame ?_
      simp only [serve, answered, currentOffset]
      rcases hanswer : s.storedOffset id with ⟨record | fault, s'⟩
      all_goals
        rw [hanswer] at hstored
        exact hstored
    | delayWithin deadline source target =>
      simp only [serve, answered, delayWithin]
      rcases hjob : s.performWithin deadline (delayJob source target) with ⟨_ | answer, s'⟩
      all_goals
        have hs' : _ = s' := congrArg Prod.snd hjob
        rw [← hs']
        rfl
    | validateWithin deadline claimed position reference =>
      simp only [serve, answered, validateWithin]
      rcases hjob : s.performWithin deadline (s.verdictJob none claimed position reference)
        with ⟨_ | verdict, s'⟩
      all_goals
        have hs' : _ = s' := congrArg Prod.snd hjob
        rw [← hs']
        rfl
    | _ => first | rfl | exact absurd hbatch Bool.noConfusion

/-- Whatever a request does to the directory, records stay under their own ids. -/
theorem Serves.keyed {s s' : Service} {r : Request} {history : List Happening} {answer : Answer}
    (h : s.Serves r history answer s') (hkeyed : s.env.directory.Keyed) :
    s'.env.directory.Keyed := by
  cases hedits : r.editsDirectory with
  | false =>
    rw [h.env_eq hedits]
    exact hkeyed
  | true =>
    cases h with
    | alone =>
      cases r with
      | upsert node =>
        simp only [serve, upsert]
        cases hup : s.env.directory.upsert node with
        | ok result => exact hkeyed.upsert hup
        | error fault => exact hkeyed
      | remove id => exact hkeyed.remove id
      | setActive id active seen => exact hkeyed.setActive id active seen
      | _ => exact absurd hedits Bool.noConfusion
    | _ => exact absurd hedits Bool.noConfusion

/-- So they are in every run from a directory of which this is true. -/
theorem Run.keyed {clock : Instant → Instant → Prop} {start s : Service} {requests : List Request}
    {history : List Happening} {answers : List Answer}
    (hrun : Run clock start requests history answers s) (hkeyed : start.env.directory.Keyed) :
    s.env.directory.Keyed := by
  induction hrun with
  | nil => exact hkeyed
  | snoc _ serves _ ih => exact serves.keyed ih

theorem mem_of_mem_distinctNodes {nodes : List Node} {a : Node} (h : a ∈ distinctNodes nodes) :
    a ∈ nodes := by
  induction nodes with
  | nil => exact h
  | cons n rest ih =>
    rcases List.mem_cons.mp h with rfl | hrest
    · exact List.mem_cons_self
    · exact List.mem_cons_of_mem _ (ih (List.mem_filter.mp hrest).1)

/-- Two nodes that are evaluated for a request are in the directory, or were handed over. -/
theorem Serves.offered {s s' : Service} {r : Request} {history : List Happening} {answer : Answer}
    (h : s.Serves r history answer s') (hkeyed : s.env.directory.Keyed) {a b : Node} {time : Instant}
    {result : Except Fault DelayResult} (hmem : .evaluated a b time result ∈ history) :
    (s.env.directory.Holds a ∧ s.env.directory.Holds b) ∨ r.Supplies a b := by
  have hfound {x : Node} (hx : s.env.Finds x) : s.env.directory.Holds x := by
    obtain ⟨id, hanswer⟩ := hx
    exact Directory.holds_of_get hkeyed (Environment.get_of_answer hanswer)
  rcases h.happens _ hmem with ⟨_, ⟨ha, hb⟩ | hpair⟩ | ⟨_, _, hsame, _⟩ | ⟨hsame, _⟩
  · exact .inl ⟨hfound ha, hfound hb⟩
  · have hactive (hpair : (a, b) ∈ pairsOf (distinctNodes s.env.directory.active)) :
        s.env.directory.Holds a ∧ s.env.directory.Holds b := by
      obtain ⟨ha, hb⟩ := mem_of_mem_pairsOf hpair
      exact ⟨Directory.holds_of_mem_active hkeyed (mem_of_mem_distinctNodes ha),
        Directory.holds_of_mem_active hkeyed (mem_of_mem_distinctNodes hb)⟩
    cases r with
    | batchDelays nodes cancel => exact .inr hpair
    | delayMatrix => exact .inl (hactive hpair)
    | maxDelay => exact .inl (hactive hpair)
    | _ => exact absurd hpair List.not_mem_nil
  · cases hsame
  · cases hsame

/-- What is stored for a name after a request was stored before, or was derived for a list that
    the request asks for. -/
theorem Serves.timing_stored {s s' : Service} {r : Request} {history : List Happening}
    {answer : Answer} (h : s.Serves r history answer s') {name : String}
    {e : Stamped ConsensusTiming} (hfind : s'.memory.timings.entries.find? name = some e) :
    s.memory.timings.entries.find? name = some e ∨
    ∃ ids, r.timingOf = some ids ∧ fingerprint ids = name ∧
      s.memory.timings.get? name s.now = none ∧ (s.consensusTiming ids).1 = .ok e.value ∧
      e.value.computedAt = s.now := by
  cases htiming : r.timingOf with
  | none =>
    rcases h.moves with ⟨_, now, rfl⟩ | hmoves
    · exact .inl hfind
    · refine .inl (timings_of_moves hmoves (fun ids timing hmem => ?_) hfind)
      rcases h.happens _ hmem with hjob | ⟨_, _, _, hids, _⟩ | ⟨hsame, _⟩
      · exact hjob
      · rw [htiming] at hids
        cases hids
      · cases hsame
  | some ids =>
    have hs' : s' = (s.consensusTiming ids).2 := by
      cases h with
      | alone hbatch => cases r <;> cases htiming <;> rfl
      | batchDelays | delayMatrix | maxDelay | batchOffsets | sync | runLoop => cases htiming
    rw [hs'] at hfind
    rcases s.consensusTiming_cases ids with ⟨timing, _, hhit⟩ | ⟨_, _, _, hsame⟩ |
      ⟨hget, timing, hok, hat, hinsert⟩
    · rw [hhit] at hfind
      exact .inl hfind
    · rw [hsame] at hfind
      exact .inl hfind
    · rw [hinsert] at hfind
      simp only [ExpiringCache.insert, ExpiringCache.insertFor, Table.find?_insert] at hfind
      split at hfind
      · next hname =>
        cases hfind
        exact .inr ⟨ids, rfl, hname, hname ▸ hget, hok, hat⟩
      · exact .inl hfind

end Service

/-- What a service over a directory has stored, and what it sees, after requests that leave the
    directory as it is. -/
structure Sources (env : Environment) (requests : List Request) (s : Service) : Prop where
  env_eq : s.env = { env with now := s.now }
  delays : Sourced env.settings.propagation.networkFactor
    (Offered env.directory (sinceCleared requests)) s.memory.delays
  timings : ∀ {name e}, s.memory.timings.entries.find? name = some e →
    TimingSourced env (sinceCleared requests) name e.value

namespace Sources

variable {env : Environment} {requests : List Request} {s s' : Service}

/-- What is stored for two nodes that no request disturbs is their own. -/
theorem undisturbed (h : Sources env requests s) {a b : Node} (ha : env.directory.Holds a)
    (hb : env.directory.Holds b) (hcalm : ∀ r ∈ sinceCleared requests, ¬ r.Disturbs a b)
    {stored : StoredDelay}
    (hget : s.memory.delays.get? (.of a.id b.id) s.now = some stored) :
    (a.position.distance b.position).isFinite = true ∧
      stored.distance = a.position.distance b.position ∧ stored.delay = env.delayBetween a b := by
  obtain ⟨e, hfind, _, rfl⟩ := ExpiringCache.get?_eq_some_iff.mp hget
  exact h.delays.undisturbed ha hb hcalm hfind

/-- A timing that is derived for a calm set is that of its positions. -/
theorem derived (h : Sources env requests s) (hkeyed : env.directory.Keyed) {ids : List String}
    (hcalm : Calm env (sinceCleared requests) ids)
    (hget : s.memory.timings.get? (fingerprint ids) s.now = none) {timing : ConsensusTiming}
    (hok : (s.consensusTiming ids).1 = .ok timing) : timing = env.timingOf ids s.now := by
  have henv := h.env_eq
  have hresolved : s.env.resolved (distinctIds ids) = env.resolved (distinctIds ids) := by
    rw [henv]
    rfl
  have hholds {a : Node} (ha : a ∈ env.resolved (distinctIds ids)) : env.directory.Holds a := by
    obtain ⟨id, _, hanswer⟩ := Environment.mem_resolved.mp ha
    exact Directory.holds_of_get hkeyed (Environment.get_of_answer hanswer)
  have hfaithful : s.memory.FaithfulTo s.env (· ∈ s.env.resolved (distinctIds ids)) := by
    intro a b stored ha hb hstored
    rw [hresolved] at ha hb
    have hown := h.undisturbed (hholds ha) (hholds hb) (hcalm a ha b hb) hstored
    rw [henv]
    exact hown
  have hkeyed' : s.env.Keyed := by
    rw [henv]
    exact Environment.keyed_of_directory hkeyed
  obtain ⟨_, _, rfl⟩ := (consensusTiming_eq_ok_iff hget hfaithful hkeyed').mp hok
  rw [Service.settings, hresolved, henv]
  rfl

theorem start {settings : Settings} {directory : Directory} {access : Access} {now : Instant}
    {metrics : Option Metrics} (hstart : Service.start settings directory access now metrics = .ok s) :
    Sources s.env [] s := by
  rw [Service.eq_of_start hstart]
  refine ⟨rfl, .empty _ _, ?_⟩
  intro name e hfind
  cases hfind

/-- A request that does not forget everything only adds to what is stored. -/
theorem serve_kept (h : Sources env requests s) (hkeyed : env.directory.Keyed) {r : Request}
    {history : List Happening} {answer : Answer} (hserves : s.Serves r history answer s')
    (hedits : r.editsDirectory = false) (hclears : r.clears = false) :
    Sources env (requests ++ [r]) s' := by
  have hsince : sinceCleared (requests ++ [r]) = sinceCleared requests ++ [r] := by
    rw [sinceCleared_snoc, hclears]
    rfl
  have hmore : sinceCleared requests ⊆ sinceCleared requests ++ [r] :=
    fun _ hr => List.mem_append_left _ hr
  have hdirectory : s.env.directory = env.directory := by rw [h.env_eq]
  have hsettings : s.settings = env.settings := by rw [Service.settings, h.env_eq]
  have henv' := hserves.env_eq hedits
  have hsettings' : s'.settings = env.settings := by
    rw [Service.settings, henv', ← hsettings]
    rfl
  have hdelays : Sourced s.settings.propagation.networkFactor
      (Offered env.directory (sinceCleared requests ++ [r])) s.memory.delays := by
    rw [hsettings]
    refine h.delays.mono fun a b hoffered => hoffered.imp id ?_
    rintro ⟨r, hr, hsupplies⟩
    exact ⟨r, hmore hr, hsupplies⟩
  refine ⟨?_, ?_, ?_⟩
  · rw [henv', h.env_eq]
  · rw [hsince, ← hsettings']
    rcases hserves.moves with ⟨_, now, rfl⟩ | hmoves
    · exact hdelays
    · refine hdelays.moves hmoves fun a b time result hmem => ?_
      have hone := hserves.offered (hdirectory ▸ hkeyed) hmem
      rw [hdirectory] at hone
      exact hone.imp id fun hsupplies => ⟨r, by simp, hsupplies⟩
  · intro name e hfind
    rw [hsince]
    rcases hserves.timing_stored hfind with hold | ⟨ids, hids, rfl, hget, hok, hat⟩
    · exact (h.timings hold).mono hmore
    · refine ⟨ids, ⟨r, by simp, hids⟩, rfl, fun hcalm => ?_⟩
      rw [hat]
      exact h.derived hkeyed (hcalm.of_subset hmore) hget hok

theorem clearCaches (h : Sources env requests s) :
    Sources env (requests ++ [.clearCaches]) s.clearCaches.2 := by
  have hsince : sinceCleared (requests ++ [.clearCaches]) = [] := sinceCleared_snoc ..
  refine ⟨h.env_eq, .empty _ _, ?_⟩
  intro name e hfind
  cases hfind

theorem serve (h : Sources env requests s) (hkeyed : env.directory.Keyed) {r : Request}
    {history : List Happening} {answer : Answer} (hserves : s.Serves r history answer s')
    (hedits : r.editsDirectory = false) : Sources env (requests ++ [r]) s' := by
  cases hclears : r.clears with
  | false => exact h.serve_kept hkeyed hserves hedits hclears
  | true =>
    cases hserves with
    | alone hbatch =>
      cases r <;> cases hclears
      exact h.clearCaches
    | batchDelays | delayMatrix | maxDelay | batchOffsets | sync | runLoop => cases hclears

theorem of_run {clock : Instant → Instant → Prop} {start : Service} {history : List Happening}
    {answers : List Answer} (hstart : Sources start.env [] start)
    (hkeyed : start.env.directory.Keyed)
    (hrun : Service.Run clock start requests history answers s)
    (hedits : ∀ r ∈ requests, r.editsDirectory = false) : Sources start.env requests s := by
  induction hrun with
  | nil => exact hstart
  | snoc _ serves _ ih =>
    have hearlier := ih fun r hr => hedits r (List.mem_append_left _ hr)
    exact hearlier.serve hkeyed serves (hedits _ (by simp))

/-- The timing of a calm set is that of its positions, stored or not, unless a list of another
    set was asked for under the same name. -/
theorem timing_of_set (h : Sources env requests s) (hkeyed : env.directory.Keyed)
    {ids : List String} (hcalm : Calm env (sinceCleared requests) ids)
    (hname : ∀ r ∈ sinceCleared requests, ∀ others, r.timingOf = some others →
      fingerprint others = fingerprint ids → ∀ id, id ∈ others ↔ id ∈ ids)
    {timing : ConsensusTiming} (hok : (s.consensusTiming ids).1 = .ok timing) :
    timing = env.timingOf ids timing.computedAt := by
  cases hget : s.memory.timings.get? (fingerprint ids) s.now with
  | none =>
    have hderived := h.derived hkeyed hcalm hget hok
    rw [hderived]
    rfl
  | some stored =>
    rw [Service.consensusTiming_of_hit hget] at hok
    cases hok
    obtain ⟨e, hfind, _, rfl⟩ := ExpiringCache.get?_eq_some_iff.mp hget
    exact (h.timings hfind).of_set hcalm hname

end Sources

/-! ## What the directory decides -/

/-- The distance and the delay that an answer gives. -/
def measured (answer : Except Fault DelayResult) : Except Fault (Binary64 × Duration) :=
  answer.map fun r => (r.distance, r.delay)

namespace Service

variable {s : Service} {x y : String} {a b : Node}

theorem delay_of_answers (ha : s.env.answer x = .ok a) (hb : s.env.answer y = .ok b) :
    (s.delay x y).1 = (s.memory.evaluate s.env a b).1 := by
  simp only [delay, perform, delayJob, Job.run, ha, hb]

/-- A delay is given only for two ids that resolve. -/
theorem answers_of_delay {result : DelayResult} (h : (s.delay x y).1 = .ok result) :
    ∃ a b, s.env.answer x = .ok a ∧ s.env.answer y = .ok b := by
  simp only [delay, perform, delayJob, Job.run] at h
  cases hx : s.env.answer x with
  | error fault =>
    rw [hx] at h
    cases h
  | ok a =>
    simp only [hx, Job.run] at h
    cases hy : s.env.answer y with
    | error fault =>
      rw [hy] at h
      cases h
    | ok b => exact ⟨a, b, rfl, rfl⟩

/-- Services that see the same answer a delay alike if they evaluate its nodes alike. -/
theorem measured_delay_congr {s' : Service} (henv : s'.env = s.env)
    (h : ∀ a b, s.env.answer x = .ok a → s.env.answer y = .ok b →
      measured (s.memory.evaluate s.env a b).1 = measured (s'.memory.evaluate s.env a b).1) :
    measured (s.delay x y).1 = measured (s'.delay x y).1 := by
  simp only [delay, perform, delayJob, Job.run, henv]
  cases hx : s.env.answer x with
  | error fault => rfl
  | ok a =>
    simp only [Job.run]
    cases hy : s.env.answer y with
    | error fault => rfl
    | ok b => exact h a b hx hy

end Service

namespace Sources

variable {env : Environment} {requests : List Request} {s : Service} {a b : Node}

/-- Every answer for two nodes is that of their positions, or of records that a request disturbs
    them with. -/
theorem evaluate_ok (h : Sources env requests s) (ha : env.directory.Holds a)
    (hb : env.directory.Holds b) {result : DelayResult}
    (hok : (s.memory.evaluate s.env a b).1 = .ok result) :
    ∃ x y, ((x = a ∧ y = b) ∨ ∃ r ∈ sinceCleared requests, r.DisturbsWith a b x y) ∧
      result.distance = x.position.distance y.position ∧ result.delay = env.delayBetween x y := by
  rcases s.memory.evaluate_cases s.env a b with ⟨stored, hget, hanswer, _⟩ |
    ⟨_, _, _, hanswer, _⟩ | ⟨_, computed, hcompute, hanswer, _⟩
  all_goals
    rw [hanswer] at hok
    cases hok
  · obtain ⟨e, hfind, _, rfl⟩ := ExpiringCache.get?_eq_some_iff.mp hget
    obtain ⟨x, y, horigin, _, hstored⟩ := h.delays.own_or_disturbed ha hb hfind
    exact ⟨x, y, horigin, hstored⟩
  · obtain ⟨hdelay, hdistance, _⟩ := Memory.compute_ok hcompute
    rw [h.env_eq, hdistance] at hdelay
    exact ⟨a, b, .inl ⟨rfl, rfl⟩, hdistance, hdelay⟩

/-- Two nodes that no request disturbs are answered as if nothing were stored. -/
theorem measured_evaluate (h : Sources env requests s) (ha : env.directory.Holds a)
    (hb : env.directory.Holds b) (hcalm : ∀ r ∈ sinceCleared requests, ¬ r.Disturbs a b) :
    measured (s.memory.evaluate s.env a b).1 =
      measured (s.clearDelays.2.memory.evaluate s.env a b).1 := by
  have hnone : s.clearDelays.2.memory.delays.get? (.of a.id b.id) s.env.now = none := rfl
  rcases s.memory.evaluate_cases s.env a b with ⟨stored, hget, hanswer, _⟩ |
    ⟨_, fault, hcompute, hanswer, _⟩ | ⟨_, computed, hcompute, hanswer, _⟩
  · obtain ⟨hfinite, hdistance, hdelay⟩ := h.undisturbed ha hb hcalm hget
    rw [hanswer, Memory.evaluate_of_missing hnone hfinite, measured, measured, Except.map,
      Except.map, Memory.answerStored, Memory.answerStored, hdistance, hdelay, h.env_eq]
    rfl
  · rw [hanswer]
    simp only [Memory.evaluate, hnone, hcompute]
  · rw [hanswer]
    simp only [Memory.evaluate, hnone, hcompute]

end Sources

/-- No request since everything was last forgotten disturbs the nodes of two ids. -/
def Undisturbed (d : Directory) (requests : List Request) (x y : String) : Prop :=
  ∀ a b, d.get x = .ok a → d.get y = .ok b → ∀ r ∈ sinceCleared requests, ¬ r.Disturbs a b

/-- In every run that leaves the directory as it is, with any clock and the jobs of a batch in
    any order: two ids that no batch has disturbed since everything was last forgotten are
    answered as by a service without stored delays. Every delay that is given is over the
    positions of the two nodes in the directory, or over those of records that a batch has
    disturbed them with since. A set none of whose nodes were disturbed has the timing of its
    positions, stored or not (unless its name was given to another set). -/
theorem directory_decides {settings : Settings} {nodes : List Node} {directory : Directory}
    {access : Access} {start : Instant} {metrics : Option Metrics} {s₀ s : Service}
    (hlist : Directory.ofList nodes = .ok directory)
    (hstart : Service.start settings directory access start metrics = .ok s₀)
    {requests : List Request} {history : List Happening} {answers : List Answer}
    (hrun : Service.Run Service.anyTime s₀ requests history answers s)
    (hedits : ∀ r ∈ requests, r.editsDirectory = false) :
    (∀ x y, Undisturbed directory requests x y →
      measured (s.delay x y).1 = measured (s.clearDelays.2.delay x y).1) ∧
    (∀ x y result, (s.delay x y).1 = .ok result →
      ∃ a b, directory.get x = .ok a ∧ directory.get y = .ok b ∧
        ∃ p q, ((p = a ∧ q = b) ∨ ∃ r ∈ sinceCleared requests, r.DisturbsWith a b p q) ∧
          result.distance = p.position.distance q.position ∧
          result.delay = networkDelay (p.position.distance q.position)
            settings.propagation.networkFactor) ∧
    (∀ ids timing, (s.consensusTiming ids).1 = .ok timing →
      Calm s₀.env (sinceCleared requests) ids →
      (∀ r ∈ sinceCleared requests, ∀ others, r.timingOf = some others →
        fingerprint others = fingerprint ids → ∀ id, id ∈ others ↔ id ∈ ids) →
      timing = s₀.env.timingOf ids timing.computedAt) := by
  have hkeyed := Directory.Keyed.ofList hlist
  have hs₀ := Service.eq_of_start hstart
  have hdirectory : s₀.env.directory = directory := by rw [hs₀]
  have hsources := Sources.of_run (.start hstart) (hdirectory ▸ hkeyed) hrun hedits
  have hgets {id : String} {a : Node} (ha : s.env.answer id = .ok a) :
      directory.get id = .ok a := by
    have hget := Environment.get_of_answer ha
    rw [hsources.env_eq, hs₀] at hget
    exact hget
  have hholds {id : String} {a : Node} (ha : s.env.answer id = .ok a) :
      s₀.env.directory.Holds a := by
    rw [hdirectory]
    exact Directory.holds_of_get hkeyed (hgets ha)
  refine ⟨?_, ?_, ?_⟩
  · intro x y hcalm
    refine Service.measured_delay_congr rfl fun a b ha hb => ?_
    exact hsources.measured_evaluate (hholds ha) (hholds hb) (hcalm a b (hgets ha) (hgets hb))
  · intro x y result hok
    obtain ⟨a, b, ha, hb⟩ := Service.answers_of_delay hok
    rw [Service.delay_of_answers ha hb] at hok
    obtain ⟨p, q, horigin, hdistance, hdelay⟩ := hsources.evaluate_ok (hholds ha) (hholds hb) hok
    rw [Environment.delayBetween, hs₀] at hdelay
    exact ⟨a, b, hgets ha, hgets hb, p, q, horigin, hdistance, hdelay⟩
  · intro ids timing hok hcalm hname
    exact hsources.timing_of_set (hdirectory ▸ hkeyed) hcalm hname hok

/-! ## The two nodes -/

open TwoNodes

/-- A batch over the records of the directory disturbs nothing. -/
theorem directory_decides_own_records : ∃ s history answers,
    Service.Run Service.anyTime (service 0 ground_ok)
      [.batchDelays [lower, upper 0 ground_ok] .never] history answers s ∧
    measured (s.delay "a" "b").1 = measured (s.clearDelays.2.delay "a" "b").1 := by
  have hnone : Service.Run Service.anyTime (service 0 ground_ok) [] [] [] _ := .nil
  obtain ⟨later, hserves⟩ := Service.serves_serve (service 0 ground_ok)
    (.batchDelays [lower, upper 0 ground_ok] .never)
  have hrun := hnone.snoc hserves trivial
  have hall := directory_decides ofList_eq start_eq hrun (by simp [Request.editsDirectory])
  refine ⟨_, _, _, hrun, hall.1 "a" "b" ?_⟩
  rintro a b ha hb r hr ⟨p, q, hsupplies, _, hapart⟩
  -- The one pair of the batch is the two nodes themselves.
  obtain rfl := List.mem_singleton.mp hr
  cases ha
  cases hb
  obtain ⟨rfl, rfl⟩ := Prod.mk.inj (List.mem_singleton.mp hsupplies)
  exact hapart rfl

/-- A batch hands over a record of the upper node that is high up. The delay between the two ids is
    then answered from there, though both nodes stand on the ground in the directory. -/
theorem batch_disturbs_delay :
    Directory.ofList [lower, upper 0 ground_ok] = .ok (directory 0 ground_ok) ∧
    Service.start {} (directory 0 ground_ok) {} .epoch none = .ok (service 0 ground_ok) ∧
    ∃ s history answers result,
      Service.Run Service.anyTime (service 0 ground_ok)
        [.batchDelays [lower, upper 20000000 high_ok] .never] history answers s ∧
      (directory 0 ground_ok).get "a" = .ok lower ∧
      (directory 0 ground_ok).get "b" = .ok (upper 0 ground_ok) ∧
      (s.delay "a" "b").1 = .ok result ∧
      result.distance ≠ lower.position.distance (upper 0 ground_ok).position := by
  refine ⟨ofList_eq, start_eq, ?_⟩
  have hnone : Service.Run Service.anyTime (service 0 ground_ok) [] [] [] _ := .nil
  obtain ⟨later, hserves⟩ := Service.serves_serve (service 0 ground_ok)
    (.batchDelays [lower, upper 20000000 high_ok] .never)
  have hrun := hnone.snoc hserves trivial
  have hother : (match (((service 0 ground_ok).serve
      (.batchDelays [lower, upper 20000000 high_ok] .never)).2.delay "a" "b").1 with
      | .ok result =>
        decide (result.distance ≠ lower.position.distance (upper 0 ground_ok).position)
      | .error _ => false) = true := by decide +kernel
  split at hother
  · next result hok => exact ⟨_, _, _, result, hrun, rfl, rfl, hok, of_decide_eq_true hother⟩
  · exact absurd hother Bool.noConfusion

end LightCone
