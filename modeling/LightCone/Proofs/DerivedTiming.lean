import LightCone.Proofs.Run.TwoNodes

/-!
The values derived from a worst delay, held to their ranges.

Sums and multiples of durations stop at the longest one, and each value is then held to a range of its
own. This file

1. says what it is for a count of nanoseconds to be held to a range (`Duration.HeldTo`), and shows that a
   clamp does so wherever the range is in order: the longest duration is above every range, so that
   nothing is lost by stopping there (`Duration.heldTo_clamp`);
2. concludes for the block time, the voting window and the phase timeouts of every timing that is
   derived with settings that pass their check, with the order of the timeouts and the clock offset
   (`ConsensusTiming.derive_withinBounds`).
-/
namespace LightCone

/-! ## Counts held to a range -/

namespace Duration

/-- A value in a range for an exact count of nanoseconds: that count if it lies in the range, and never
    less than the count held to the range. -/
structure HeldTo (low high : Duration) (exact : Nat) (value : Duration) : Prop where
  low_le : low ≤ value
  le_high : value ≤ high
  eq_of_mem : low.nanos ≤ exact → exact ≤ high.nanos → value.nanos = exact
  not_less : min (max exact low.nanos) high.nanos ≤ value.nanos

variable {low high d d' : Duration}

theorem nanos_clamp (d low high : Duration) :
    (d.clamp low high).nanos = min (max d.nanos low.nanos) high.nanos := by
  unfold clamp
  rw [nanos_shorter, nanos_longer]

/-- Stopping at the longest duration makes no difference to a clamp. -/
theorem nanos_clamp_ofNanos (exact : Nat) (low high : Duration) :
    ((ofNanos exact).clamp low high).nanos = min (max exact low.nanos) high.nanos := by
  have hhigh : high.nanos ≤ longest.nanos := high.le_longest
  rw [nanos_clamp, nanos_ofNanos]
  omega

theorem heldTo_clamp (h : low ≤ high) (exact : Nat) :
    HeldTo low high exact ((ofNanos exact).clamp low high) := by
  have hrange : low.nanos ≤ high.nanos := h
  have hvalue := nanos_clamp_ofNanos exact low high
  refine ⟨?_, ?_, ?_, Nat.le_of_eq hvalue.symm⟩
  · show low.nanos ≤ _
    omega
  · show _ ≤ high.nanos
    omega
  · intro hlow hhigh
    omega

theorem clamp_mono (h : d ≤ d') (low high : Duration) : d.clamp low high ≤ d'.clamp low high := by
  have hle : d.nanos ≤ d'.nanos := h
  show (d.clamp low high).nanos ≤ (d'.clamp low high).nanos
  rw [nanos_clamp, nanos_clamp]
  omega

theorem times_mono (d : Duration) {k k' : Nat} (h : k ≤ k') : d.times k ≤ d.times k' := by
  have hmul : d.nanos * k ≤ d.nanos * k' := Nat.mul_le_mul_left _ h
  show (ofNanos _).nanos ≤ (ofNanos _).nanos
  rw [nanos_ofNanos, nanos_ofNanos]
  omega

end Duration

/-! ## Timings -/

namespace ConsensusTiming

open Duration (HeldTo heldTo_clamp)

/-- Every value of a timing is the exact one held to its range, the timeouts are in order, and the
    clock offset is half of the worst delay. -/
structure WithinBounds (c : ConsensusSettings) (t : ConsensusTiming) : Prop where
  blockTime : HeldTo c.minBlockTime c.maxBlockTime (t.maxDelay.nanos + t.margin.nanos) t.blockTime
  votingWindow : HeldTo c.minVotingWindow c.maxVotingWindow
    (t.maxDelay.nanos + t.margin.nanos / 2) (t.votingWindow c)
  proposal : HeldTo c.minPhaseTimeout c.maxPhaseTimeout (t.maxDelay.nanos * 2) (t.timeouts c).proposal
  vote : HeldTo c.minPhaseTimeout c.maxPhaseTimeout (t.maxDelay.nanos + t.margin.nanos)
    (t.timeouts c).vote
  commit : HeldTo c.minPhaseTimeout c.maxPhaseTimeout (t.maxDelay.nanos * 3) (t.timeouts c).commit
  viewChange : HeldTo c.minPhaseTimeout c.maxPhaseTimeout (t.maxDelay.nanos * 5)
    (t.timeouts c).viewChange
  proposal_le_commit : (t.timeouts c).proposal ≤ (t.timeouts c).commit
  commit_le_viewChange : (t.timeouts c).commit ≤ (t.timeouts c).viewChange
  clockOffset_le : t.clockOffset ≤ t.maxDelay
  half_down : 2 * t.clockOffset.nanos ≤ t.maxDelay.nanos
  half_up : t.maxDelay.nanos ≤ 2 * t.clockOffset.nanos + 1

/-- With settings that pass their check, every delay gives a timing within bounds. -/
theorem derive_withinBounds {s : Settings} (hcheck : s.check = .ok ()) (raw : Duration)
    (validators : Nat) (name : String) (now : Instant) :
    WithinBounds s.consensus (derive raw validators name now s.consensus) := by
  have haccepted := Settings.check_eq_ok_iff.mp hcheck
  generalize htiming : derive raw validators name now s.consensus = t
  have hblock : t.blockTime =
      (t.maxDelay + t.margin).clamp s.consensus.minBlockTime s.consensus.maxBlockTime := by
    rw [← htiming]
    rfl
  have hoffset : t.clockOffset.nanos = t.maxDelay.nanos / 2 := by
    rw [← htiming]
    rfl
  exact {
    blockTime := hblock ▸ heldTo_clamp haccepted.blockTime _
    votingWindow := heldTo_clamp haccepted.votingWindow _
    proposal := heldTo_clamp haccepted.phaseTimeout _
    vote := heldTo_clamp haccepted.phaseTimeout _
    commit := heldTo_clamp haccepted.phaseTimeout _
    viewChange := heldTo_clamp haccepted.phaseTimeout _
    proposal_le_commit := Duration.clamp_mono (t.maxDelay.times_mono (by decide)) _ _
    commit_le_viewChange := Duration.clamp_mono (t.maxDelay.times_mono (by decide)) _ _
    clockOffset_le := Nat.le_trans (Nat.le_of_eq hoffset) (Nat.div_le_self _ _)
    half_down := by omega
    half_up := by omega }

/-- The longest delay that there is gives a block time of the longest that the settings allow. -/
theorem derive_withinBounds_longest :
    WithinBounds (Settings.consensus {}) (derive .longest 2 "" .epoch (Settings.consensus {})) ∧
    (derive .longest 2 "" .epoch (Settings.consensus {})).blockTime = .ofSecs 600 :=
  ⟨derive_withinBounds TwoNodes.check_defaults .longest 2 "" .epoch, by decide +kernel⟩

end ConsensusTiming
end LightCone
