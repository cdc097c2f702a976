import LightCone.Binary64.Reading
import LightCone.Settings.Basic
import LightCone.Text.Blank

/-!
Settings from named text variables.

Fifteen settings have a variable each. A variable counts if its text, without the blank
characters around it, reads as a number of its kind; otherwise, and where it is absent, the
setting keeps its default. A setting depends on its own variable only, and the ranges of
block time, voting window and phase timeout have no variable.
-/
namespace LightCone.Settings

/-- The text of a variable, if it is set. -/
abbrev Lookup := String → Option String

/-- The value of a variable as read by `read`, or a default. -/
def readOr {α : Type} (lookup : Lookup) (name : String) (read : List Char → Option α)
    (default : α) : α :=
  (((lookup name).map fun text => trimBlanks text.toList).bind read).getD default

def millisOr (lookup : Lookup) (name : String) (default : Duration) : Duration :=
  readOr lookup name (fun cs => (readWord cs).map Duration.ofMillis) default

def secsOr (lookup : Lookup) (name : String) (default : Duration) : Duration :=
  readOr lookup name (fun cs => (readWord cs).map Duration.ofSecs) default

/-- The settings that a set of variables stands for. -/
def ofVariables (lookup : Lookup) : Settings :=
  let d : Settings := {}
  { propagation :=
      { networkFactor := readOr lookup "QC_LT_NETWORK_FACTOR" Binary64.read d.propagation.networkFactor
        validationTolerance :=
          millisOr lookup "QC_LT_VALIDATION_TOLERANCE_MS" d.propagation.validationTolerance
        minConfidence := readOr lookup "QC_LT_MIN_CONFIDENCE" Binary64.read d.propagation.minConfidence
        delayLifetime := secsOr lookup "QC_LT_DELAY_CACHE_TTL_SECS" d.propagation.delayLifetime
        blockTolerance := millisOr lookup "QC_LT_BLOCK_TOLERANCE_MS" d.propagation.blockTolerance
        transactionTolerance :=
          millisOr lookup "QC_LT_TX_TOLERANCE_MS" d.propagation.transactionTolerance
        heartbeatTolerance :=
          millisOr lookup "QC_LT_HEARTBEAT_TOLERANCE_MS" d.propagation.heartbeatTolerance }
    consensus :=
      { d.consensus with
        safetyFactor := readOr lookup "QC_LT_SAFETY_FACTOR" Binary64.read d.consensus.safetyFactor
        minPropagationDelay :=
          millisOr lookup "QC_LT_MIN_PROPAGATION_DELAY_MS" d.consensus.minPropagationDelay
        timingLifetime := secsOr lookup "QC_LT_TIMING_CACHE_TTL_SECS" d.consensus.timingLifetime }
    offsets :=
      { staleness := secsOr lookup "QC_LT_OFFSET_STALENESS_SECS" d.offsets.staleness
        globalMinConfidence :=
          readOr lookup "QC_LT_GLOBAL_MIN_CONFIDENCE" Binary64.read d.offsets.globalMinConfidence }
    sync :=
      { interval := secsOr lookup "QC_LT_SYNC_INTERVAL_SECS" d.sync.interval
        statusRetention := secsOr lookup "QC_LT_STATUS_RETENTION_SECS" d.sync.statusRetention
        historyLength := readOr lookup "QC_LT_SYNC_HISTORY_LEN" readWord d.sync.historyLength } }

end LightCone.Settings
