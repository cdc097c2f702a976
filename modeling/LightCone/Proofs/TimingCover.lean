import LightCone.Proofs.Run.TwoNodes

/-!
Which delays the timing of a validator set covers.

Every derived value starts out at least as long as the worst delay and is then held below a
ceiling of its own. This file

1. shows that sums, multiples and lower bounds of durations do not get shorter, and that a
   clamp undercuts a duration just if its ceiling does (`coversBelow_clamp`);
2. concludes for the block time, the voting window and the phase timeouts of every set that has
   a timing (`timing_covers_iff`), and gives a delay that they do not cover.
-/
namespace LightCone

/-! ## Durations that do not get shorter -/

namespace Duration

variable {a b : Duration}

theorem le_add (h : a ≤ b) (c : Duration) : a ≤ b + c := by
  have hb := b.le_longest
  show a.nanos ≤ (b + c).nanos
  rw [nanos_add]
  have hle : a.nanos ≤ b.nanos := h
  have hlongest : b.nanos ≤ longest.nanos := hb
  omega

theorem le_times (h : a ≤ b) (k : Nat) : a ≤ b.times (k + 1) := by
  have hle : a.nanos ≤ b.nanos := h
  have hlongest : b.nanos ≤ longest.nanos := b.le_longest
  have hmul : b.nanos ≤ b.nanos * (k + 1) := Nat.le_mul_of_pos_right _ (Nat.succ_pos k)
  show a.nanos ≤ (ofNanos (b.nanos * (k + 1))).nanos
  rw [nanos_ofNanos]
  omega

theorem le_longer (h : a ≤ b) (c : Duration) : a ≤ b.longer c := by
  have hle : a.nanos ≤ b.nanos := h
  show a.nanos ≤ (b.longer c).nanos
  rw [nanos_longer]
  omega

end Duration

/-- A value below a ceiling covers a delay just if the ceiling does. -/
def CoversBelow (ceiling delay value : Duration) : Prop := delay ≤ value ↔ delay ≤ ceiling

/-- Held to a range, a duration still covers what it covered, up to the ceiling. -/
theorem coversBelow_clamp {delay d : Duration} (h : delay ≤ d) (low ceiling : Duration) :
    CoversBelow ceiling delay (d.clamp low ceiling) := by
  have hle : delay.nanos ≤ d.nanos := h
  show delay.nanos ≤ ((d.longer low).shorter ceiling).nanos ↔ delay.nanos ≤ ceiling.nanos
  rw [Duration.nanos_shorter, Duration.nanos_longer]
  omega

/-! ## Timings -/

namespace ConsensusTiming

variable {delay : Duration} {c : ConsensusSettings}

theorem coversBelow_blockTime {worst : Duration} (h : delay ≤ worst) (validators : Nat)
    (name : String) (now : Instant) :
    CoversBelow c.maxBlockTime delay (derive worst validators name now c).blockTime :=
  coversBelow_clamp (Duration.le_add (Duration.le_longer h c.minPropagationDelay) _) _ _

variable {t : ConsensusTiming}

theorem coversBelow_votingWindow (h : delay ≤ t.maxDelay) :
    CoversBelow c.maxVotingWindow delay (t.votingWindow c) :=
  coversBelow_clamp (Duration.le_add h _) _ _

theorem coversBelow_timeouts (h : delay ≤ t.maxDelay) :
    ∀ timeout ∈ [(t.timeouts c).proposal, (t.timeouts c).vote, (t.timeouts c).commit,
      (t.timeouts c).viewChange], CoversBelow c.maxPhaseTimeout delay timeout := by
  intro timeout hmem
  simp only [List.mem_cons, List.not_mem_nil, or_false] at hmem
  rcases hmem with rfl | rfl | rfl | rfl
  · exact coversBelow_clamp (Duration.le_times h 1) _ _
  · exact coversBelow_clamp (Duration.le_add h _) _ _
  · exact coversBelow_clamp (Duration.le_times h 2) _ _
  · exact coversBelow_clamp (Duration.le_times h 4) _ _

end ConsensusTiming

/-! ## Timings of sets -/

section Sets

variable {settings : Settings} {nodes : List Node} {directory : Directory} {access : Access}
  {now : Instant} {metrics : Option Metrics} {s : Service} {ids : List String}
  {timing : ConsensusTiming}

/-- A set that has a timing has the other derived values, each from that timing. -/
theorem fromTiming_of_ok {α : Type} (f : ConsensusTiming → ConsensusSettings → α)
    (htiming : (s.consensusTiming ids).1 = .ok timing) :
    (s.fromTiming ids f).1 = .ok (f timing (s.consensusTiming ids).2.settings.consensus) := by
  unfold Service.fromTiming
  rcases hanswer : s.consensusTiming ids with ⟨answer, s'⟩
  rw [hanswer] at htiming
  cases htiming
  rfl

theorem keyed_of_start (hdirectory : Directory.ofList nodes = .ok directory)
    (hstart : Service.start settings directory access now metrics = .ok s) : s.env.Keyed := by
  rw [Service.eq_of_start hstart]
  exact Environment.keyed_of_directory (Directory.Keyed.ofList hdirectory)

/-- The first timing of a set is derived from the longest delay between two of its nodes. -/
theorem timing_of_start (hdirectory : Directory.ofList nodes = .ok directory)
    (hstart : Service.start settings directory access now metrics = .ok s)
    (htiming : (s.consensusTiming ids).1 = .ok timing) :
    timing = .derive (s.env.longestBetween .zero (pairsOf (s.env.resolved (distinctIds ids))))
      (s.env.resolved (distinctIds ids)).length (fingerprint ids) now settings.consensus := by
  have hkeyed := keyed_of_start hdirectory hstart
  have hopened := Service.eq_of_start hstart
  subst hopened
  obtain ⟨_, _, hderived⟩ :=
    (consensusTiming_eq_ok_iff rfl (Memory.faithful_initial _ _ _ _) hkeyed).mp htiming
  exact hderived

/-- In a service just opened, the worst delay of a set covers the delay between any two of its
    nodes. -/
theorem delayBetween_le_worst (hdirectory : Directory.ofList nodes = .ok directory)
    (hstart : Service.start settings directory access now metrics = .ok s)
    {x y : String} {a b : Node} (hx : x ∈ ids) (hy : y ∈ ids) (hxy : x ≠ y)
    (ha : s.env.answer x = .ok a) (hb : s.env.answer y = .ok b) :
    s.env.delayBetween a b ≤
      s.env.longestBetween .zero (pairsOf (s.env.resolved (distinctIds ids))) := by
  have hkeyed := keyed_of_start hdirectory hstart
  have hamem := Environment.mem_resolved.mpr ⟨x, mem_distinctIds.mpr hx, ha⟩
  have hbmem := Environment.mem_resolved.mpr ⟨y, mem_distinctIds.mpr hy, hb⟩
  have hab : a ≠ b := by
    intro hsame
    apply hxy
    rw [← hkeyed ha, ← hkeyed hb, hsame]
  rcases mem_pairsOf hamem hbmem hab with hpair | hpair
  · exact Environment.delayBetween_le_longestBetween hpair
  · rw [Environment.delayBetween_comm]
    exact Environment.delayBetween_le_longestBetween hpair

/-- In a service just opened over a directory of records, take any set that has a timing and any
    two of its ids that resolve. The worst delay covers the delay between their nodes. The block
    time, the voting window and each phase timeout cover it if and only if it is not above the
    ceiling of that value. -/
theorem timing_covers_iff (hdirectory : Directory.ofList nodes = .ok directory)
    (hstart : Service.start settings directory access now metrics = .ok s)
    (htiming : (s.consensusTiming ids).1 = .ok timing)
    {x y : String} {a b : Node} (hx : x ∈ ids) (hy : y ∈ ids) (hxy : x ≠ y)
    (ha : s.env.answer x = .ok a) (hb : s.env.answer y = .ok b) :
    s.env.delayBetween a b ≤ timing.maxDelay ∧
      CoversBelow settings.consensus.maxBlockTime (s.env.delayBetween a b) timing.blockTime ∧
      (∃ window, (s.votingWindow ids).1 = .ok window ∧
        CoversBelow settings.consensus.maxVotingWindow (s.env.delayBetween a b) window) ∧
      ∃ phases, (s.timeouts ids).1 = .ok phases ∧
        ∀ timeout ∈ [phases.proposal, phases.vote, phases.commit, phases.viewChange],
          CoversBelow settings.consensus.maxPhaseTimeout (s.env.delayBetween a b) timeout := by
  have hworst := delayBetween_le_worst hdirectory hstart hx hy hxy ha hb
  have hopened : (s.consensusTiming ids).2.settings = settings := by
    rw [Service.settings, Service.env_consensusTiming, Service.eq_of_start hstart]
  have hwindow := fromTiming_of_ok ConsensusTiming.votingWindow htiming
  have hphases := fromTiming_of_ok ConsensusTiming.timeouts htiming
  rw [hopened] at hwindow hphases
  obtain rfl := timing_of_start hdirectory hstart htiming
  generalize s.env.delayBetween a b = delay at hworst ⊢
  have hmax : delay ≤ _ := Duration.le_longer hworst settings.consensus.minPropagationDelay
  refine ⟨hmax, ConsensusTiming.coversBelow_blockTime hworst _ _ _, ?_, ?_⟩
  · exact ⟨_, hwindow, ConsensusTiming.coversBelow_votingWindow hmax⟩
  · exact ⟨_, hphases, ConsensusTiming.coversBelow_timeouts hmax⟩

end Sets

/-! ## The two nodes -/

open TwoNodes

/-- The block time of two nodes 20000 km apart covers the delay between them. -/
theorem timing_covers_high : ∃ timing,
    ((service 20000000 high_ok).consensusTiming ["a", "b"]).1 = .ok timing ∧
      0 < ((service 20000000 high_ok).env.delayBetween lower (upper 20000000 high_ok)).nanos ∧
      (service 20000000 high_ok).env.delayBetween lower (upper 20000000 high_ok) ≤
        timing.blockTime := by
  have htiming := consensusTiming_ok finite_high
  have hcover := timing_covers_iff ofList_eq start_eq htiming (by simp) (by simp) (by decide)
    answer_lower answer_upper
  exact ⟨_, htiming, by decide +kernel, hcover.2.1.mpr (by decide +kernel)⟩

theorem remote_ok : (1000000000000 : Binary64).isMagnitude = true := by decide +kernel

theorem finite_remote :
    (lower.position.distance (upper 1000000000000 remote_ok).position).isFinite = true := by
  decide +kernel

/-- A node may stand so high that every ceiling is below the delay to it. -/
theorem ceilings_undercut_remote :
    Service.start {} (directory 1000000000000 remote_ok) {} .epoch none =
      .ok (service 1000000000000 remote_ok) ∧
    ∃ timing window phases,
    ((service 1000000000000 remote_ok).consensusTiming ["a", "b"]).1 = .ok timing ∧
    ((service 1000000000000 remote_ok).votingWindow ["a", "b"]).1 = .ok window ∧
    ((service 1000000000000 remote_ok).timeouts ["a", "b"]).1 = .ok phases ∧
    ∀ value ∈ [timing.blockTime, window, phases.proposal, phases.vote, phases.commit,
      phases.viewChange],
      ¬ (service 1000000000000 remote_ok).env.delayBetween lower (upper 1000000000000 remote_ok) ≤
        value := by
  have htiming := consensusTiming_ok finite_remote
  have hwindow := fromTiming_of_ok ConsensusTiming.votingWindow htiming
  have hphases := fromTiming_of_ok ConsensusTiming.timeouts htiming
  rw [Service.settings, Service.env_consensusTiming] at hwindow hphases
  refine ⟨start_eq, _, _, _, htiming, hwindow, hphases, ?_⟩
  have hworst : (service 1000000000000 remote_ok).env.delayBetween lower
      (upper 1000000000000 remote_ok) ≤ (service 1000000000000 remote_ok).env.longestBetween .zero
        [(lower, upper 1000000000000 remote_ok)] :=
    Environment.delayBetween_le_longestBetween (by simp)
  -- The longest ceiling is that of the block time.
  have hblock : ¬ (service 1000000000000 remote_ok).env.delayBetween lower
      (upper 1000000000000 remote_ok) ≤ Duration.ofSecs 600 := by decide +kernel
  generalize (service 1000000000000 remote_ok).env.delayBetween lower
    (upper 1000000000000 remote_ok) = delay at hworst hblock ⊢
  have hvoting : ¬ delay ≤ Duration.ofSecs 30 := fun h => hblock (Nat.le_trans h (by decide))
  have hphase : ¬ delay ≤ Duration.ofSecs 60 := fun h => hblock (Nat.le_trans h (by decide))
  have hmax : delay ≤ _ := Duration.le_longer hworst (.ofMillis 100)
  intro value hvalue
  rcases List.mem_cons.mp hvalue with rfl | hvalue
  · exact mt (ConsensusTiming.coversBelow_blockTime hworst 2 _ .epoch).mp hblock
  rcases List.mem_cons.mp hvalue with rfl | hvalue
  · exact mt (ConsensusTiming.coversBelow_votingWindow hmax).mp hvoting
  · exact mt (ConsensusTiming.coversBelow_timeouts hmax value hvalue).mp hphase

end LightCone
