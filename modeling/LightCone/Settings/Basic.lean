import LightCone.Fault
import LightCone.Binary64.Text

/-!
Settings of the timing service.

The settings fall into four groups: propagation, consensus, clock offsets and synchronization,
each with defaults. `Settings.check` names the first setting that the service cannot run
with; it finds none just if every condition holds (`Settings.check_eq_ok_iff`).
-/
namespace LightCone

/-- Delays and the validation of timestamps. -/
structure PropagationSettings where
  /-- How many times longer than light a network takes. -/
  networkFactor : Binary64 := 1.5
  /-- Slack on top of the expected delay where no subject is named. -/
  validationTolerance : Duration := .ofMillis 50
  /-- Verdicts below this confidence are rejections. -/
  minConfidence : Binary64 := 0.5
  delayLifetime : Duration := .ofSecs 300
  blockTolerance : Duration := .ofMillis 500
  transactionTolerance : Duration := .ofSecs 1
  heartbeatTolerance : Duration := .ofMillis 50
  deriving DecidableEq

/-- Bounds of the timing that consensus derives from delays. -/
structure ConsensusSettings where
  /-- The safety margin as a multiple of the worst delay. -/
  safetyFactor : Binary64 := 2
  /-- The least delay to count with. -/
  minPropagationDelay : Duration := .ofMillis 100
  timingLifetime : Duration := .ofSecs 120
  minBlockTime : Duration := .ofSecs 2
  maxBlockTime : Duration := .ofSecs 600
  /-- The least block interval under load. -/
  minBlockInterval : Duration := .ofSecs 1
  minVotingWindow : Duration := .ofSecs 2
  maxVotingWindow : Duration := .ofSecs 30
  minPhaseTimeout : Duration := .ofSecs 2
  maxPhaseTimeout : Duration := .ofSecs 60
  deriving DecidableEq

/-- Estimates of clock offsets. -/
structure OffsetSettings where
  /-- The age at which an offset counts as absent. -/
  staleness : Duration := .ofSecs 1800
  /-- Offsets count towards the global one above this confidence. -/
  globalMinConfidence : Binary64 := 0.5
  deriving DecidableEq

/-- The background synchronizer. -/
structure SyncSettings where
  interval : Duration := .ofSecs 60
  /-- The age past which a status record is removed. -/
  statusRetention : Duration := .ofSecs 86400
  /-- The number of offsets that a status record keeps. -/
  historyLength : Nat := 32
  deriving DecidableEq

structure Settings where
  propagation : PropagationSettings := {}
  consensus : ConsensusSettings := {}
  offsets : OffsetSettings := {}
  sync : SyncSettings := {}
  deriving DecidableEq

/-- A setting that the service cannot run with. -/
inductive SettingsFault where
  | networkFactor (given : Binary64)
  | minConfidence (given : Binary64)
  | delayLifetime
  | safetyFactor (given : Binary64)
  | timingLifetime
  /-- A range whose lower end is above its upper end. -/
  | range (name : String) (low high : Duration)
  | staleness
  | globalMinConfidence (given : Binary64)
  | interval
  | historyLength
  deriving DecidableEq

def SettingsFault.message : SettingsFault → String
  | networkFactor x => "network_factor must be >= 1.0, got " ++ x.shortest
  | minConfidence x => "min_confidence must be in [0, 1], got " ++ x.shortest
  | delayLifetime => "delay_cache_ttl must be non-zero"
  | safetyFactor x => "safety_factor must be positive, got " ++ x.shortest
  | timingLifetime => "timing_cache_ttl must be non-zero"
  | range name low high =>
    name ++ " bounds misordered: min " ++ low.text ++ " > max " ++ high.text
  | staleness => "offset staleness must be non-zero"
  | globalMinConfidence x => "global_min_confidence must be in [0, 1], got " ++ x.shortest
  | interval => "sync interval must be non-zero"
  | historyLength => "sync history_len must be at least 1"

namespace Settings

def require (good : Bool) (fault : SettingsFault) : Except SettingsFault Unit :=
  if good then .ok () else .error fault

/-- Succeeds for settings that the service can run with; else names the first fault. -/
def check (s : Settings) : Except SettingsFault Unit := do
  let p := s.propagation
  require (p.networkFactor.isFinite && decide (1 ≤ p.networkFactor)) (.networkFactor p.networkFactor)
  require (decide (0 ≤ p.minConfidence) && decide (p.minConfidence ≤ 1)) (.minConfidence p.minConfidence)
  require (p.delayLifetime ≠ .zero) .delayLifetime
  let c := s.consensus
  require (c.safetyFactor.isFinite && decide (0 < c.safetyFactor)) (.safetyFactor c.safetyFactor)
  require (c.timingLifetime ≠ .zero) .timingLifetime
  require (c.minBlockTime ≤ c.maxBlockTime) (.range "block_time" c.minBlockTime c.maxBlockTime)
  require (c.minVotingWindow ≤ c.maxVotingWindow)
    (.range "voting_window" c.minVotingWindow c.maxVotingWindow)
  require (c.minPhaseTimeout ≤ c.maxPhaseTimeout)
    (.range "phase_timeout" c.minPhaseTimeout c.maxPhaseTimeout)
  let o := s.offsets
  require (o.staleness ≠ .zero) .staleness
  require (decide (0 ≤ o.globalMinConfidence) && decide (o.globalMinConfidence ≤ 1))
    (.globalMinConfidence o.globalMinConfidence)
  let y := s.sync
  require (y.interval ≠ .zero) .interval
  require (y.historyLength ≠ 0) .historyLength

/-- What the check asks for. -/
structure Accepted (s : Settings) : Prop where
  networkFactor : s.propagation.networkFactor.isFinite = true ∧ 1 ≤ s.propagation.networkFactor
  minConfidence : 0 ≤ s.propagation.minConfidence ∧ s.propagation.minConfidence ≤ 1
  delayLifetime : s.propagation.delayLifetime ≠ .zero
  safetyFactor : s.consensus.safetyFactor.isFinite = true ∧ 0 < s.consensus.safetyFactor
  timingLifetime : s.consensus.timingLifetime ≠ .zero
  blockTime : s.consensus.minBlockTime ≤ s.consensus.maxBlockTime
  votingWindow : s.consensus.minVotingWindow ≤ s.consensus.maxVotingWindow
  phaseTimeout : s.consensus.minPhaseTimeout ≤ s.consensus.maxPhaseTimeout
  staleness : s.offsets.staleness ≠ .zero
  globalMinConfidence : 0 ≤ s.offsets.globalMinConfidence ∧ s.offsets.globalMinConfidence ≤ 1
  interval : s.sync.interval ≠ .zero
  historyLength : s.sync.historyLength ≠ 0

theorem require_eq_ok_iff {good : Bool} {fault : SettingsFault} :
    require good fault = .ok () ↔ good = true := by
  cases good <;> simp [require]

theorem require_bind_eq_ok_iff {good : Bool} {fault : SettingsFault}
    {rest : Unit → Except SettingsFault Unit} :
    (require good fault >>= rest) = .ok () ↔ good = true ∧ rest () = .ok () := by
  cases good <;> simp [require, bind, Except.bind]

theorem check_eq_ok_iff {s : Settings} : s.check = .ok () ↔ s.Accepted := by
  simp only [check, require_bind_eq_ok_iff, require_eq_ok_iff, Bool.and_eq_true, decide_eq_true_eq]
  refine ⟨?_, ?_⟩
  · intro h
    obtain ⟨h₁, h₂, h₃, h₄, h₅, h₆, h₇, h₈, h₉, h₁₀, h₁₁, h₁₂⟩ := h
    exact ⟨h₁, h₂, h₃, h₄, h₅, h₆, h₇, h₈, h₉, h₁₀, h₁₁, h₁₂⟩
  · intro h
    exact ⟨h.networkFactor, h.minConfidence, h.delayLifetime, h.safetyFactor, h.timingLifetime,
      h.blockTime, h.votingWindow, h.phaseTimeout, h.staleness, h.globalMinConfidence, h.interval,
      h.historyLength⟩

end Settings
end LightCone
