import LightCone.ClockOffset
import LightCone.Consensus.Timing
import LightCone.Directory
import LightCone.Job
import LightCone.Json.Decode
import LightCone.Json.Printer
import LightCone.Json.Reader
import LightCone.Quorum
import LightCone.SyncStatus
import LightCone.Time.Rfc3339
import LightCone.Validation

/-!
The records of the timing service as JSON.

Each type has a value (`encode`) and a way to take a value apart (`decode`): records are objects
with their fields in a fixed order, durations hold whole seconds and nanoseconds, instants are
texts in UTC, subjects carry their kind in a field. A whole document is taken apart before
the end of its text is looked at (`parse`).
-/
namespace LightCone.Json

def parse {α : Type} (decode : Decoder α) (text : String) : Except DocumentFault α := do
  let (v, ended) := readDocument text.toList
  let a ← decode v
  if ended then .ok a else .error .other

def object (fields : List (String × Value)) : Value :=
  .object (fields.map fun (name, v) => (some name, v)) true

def natural (n : Nat) : Value := .number (.natural n)

def real (x : Binary64) : Value := .number (.real x)

def encodeOption {α : Type} (encode : α → Value) : Option α → Value
  | some a => encode a
  | none => .null

def decodeWordCount : Decoder Nat := decodeNat wordLimit

/-! ## Durations and instants -/

def encodeDuration (d : Duration) : Value :=
  object [("secs", natural d.secs), ("nanos", natural d.subsecNanos)]

/-- Seconds in 64 bits and nanoseconds in 32, which may be a second or more. -/
def durationShape : Shape (Nat × Nat) :=
  Prod.mk <$> .field "secs" decodeWordCount <*> .field "nanos" (decodeNat 4294967296)

/-- A duration, unless its seconds leave 64 bits; it has no other fields. -/
def decodeDuration : Decoder Duration := fun v => do
  let (secs, nanos) ← durationShape.decodeWith true v
  if secs + nanos / nanosPerSecond < wordLimit then .ok (.ofNanos (secs * nanosPerSecond + nanos))
  else .error .other

def encodeInstant (t : Instant) : Value := .text t.text

def decodeInstant : Decoder Instant := fun v => do
  let s ← decodeText v
  match Instant.read? s.toList with
  | some t => .ok t
  | none => .error .other

/-! ## Positions and nodes -/

def encodePosition (p : Position) : Value :=
  object [("latitude", real p.latitude), ("longitude", real p.longitude), ("altitude", real p.altitude)]

def coordinatesShape : Shape (Binary64 × Binary64 × Binary64) :=
  (fun lat lon alt => (lat, lon, alt)) <$> .field "latitude" decodeReal
    <*> .field "longitude" decodeReal <*> .fieldOr "altitude" decodeReal (some 0)

/-- A position; its coordinates are checked once all of them are there. -/
def decodePosition : Decoder Position := fun v => do
  let (lat, lon, alt) ← coordinatesShape.decode v
  match Position.make lat lon alt with
  | .ok p => .ok p
  | .error fault => .error (.position fault)

def encodeRegion (r : Region) : Value := .text r.name

def decodeRegion : Decoder Region := decodeChoice Region.all Region.name

def encodeNode (n : Node) : Value :=
  object [("id", .text n.id), ("position", encodePosition n.position), ("active", .bool n.active),
    ("last_seen", encodeInstant n.lastSeen)]

/-- A node is active and seen now unless it says otherwise. -/
def nodeShape (now : Instant) : Shape Node :=
  Node.mk <$> .field "id" decodeText <*> .field "position" decodePosition
    <*> .fieldOr "active" decodeBool (some true) <*> .fieldOr "last_seen" decodeInstant (some now)

def decodeNode (now : Instant) : Decoder Node := (nodeShape now).decode

def encodePair (p : NodePair) : Value := object [("first", .text p.first), ("second", .text p.second)]

def pairShape : Shape NodePair :=
  NodePair.mk <$> .field "first" decodeText <*> .field "second" decodeText

def encodeDelay (d : DelayResult) : Value :=
  object [("source_id", .text d.source), ("target_id", .text d.target),
    ("delay", encodeDuration d.delay), ("distance_m", real d.distance),
    ("computed_at", encodeInstant d.computedAt), ("cached", .bool d.cached)]

def delayShape : Shape DelayResult :=
  DelayResult.mk <$> .field "source_id" decodeText <*> .field "target_id" decodeText
    <*> .field "delay" decodeDuration <*> .field "distance_m" decodeReal
    <*> .field "computed_at" decodeInstant <*> .field "cached" decodeBool

/-! ## Subjects and verdicts -/

def encodeSubject : Subject → Value
  | .block height => object [("kind", .text "block"), ("height", natural height)]
  | .transaction hash => object [("kind", .text "transaction"), ("hash", .text hash)]
  | .heartbeat id => object [("kind", .text "heartbeat"), ("node_id", .text id)]

inductive SubjectKind where
  | block
  | transaction
  | heartbeat
  deriving DecidableEq

def SubjectKind.all : List SubjectKind := [block, transaction, heartbeat]

def SubjectKind.name : SubjectKind → String
  | block => "block"
  | transaction => "transaction"
  | heartbeat => "heartbeat"

/-- The fields of a subject apart from its kind. -/
def SubjectKind.shape : SubjectKind → Shape Subject
  | block => Subject.block <$> .field "height" decodeWordCount
  | transaction => Subject.transaction <$> .field "hash" decodeText
  | heartbeat => Subject.heartbeat <$> .field "node_id" decodeText

/-- The kind that a field or a first item names. -/
def decodeKind : Decoder SubjectKind := fun v => do
  decodeWord SubjectKind.all SubjectKind.name (← decodeText v)

/-- The most arrays and objects that may stand in one another around and in a value that is
    kept while the kind is not known yet. -/
def deepestKept : Nat := 127

/-- Whether a value can be kept aside: it is whole and, with the arrays and objects around it,
    not nested too deep. -/
def canKeep (around : Nat) (v : Value) : Bool := v.isWhole && around + v.depth ≤ deepestKept

/-- Finds the kind among fields in order, and keeps the others aside. -/
def splitKind (around : Nat) : Option SubjectKind → List (Option String × Value) →
    Except DocumentFault (Option SubjectKind × List (Option String × Value))
  | kind, [] => .ok (kind, [])
  | _, (none, _) :: _ => .error .other
  | kind, (some name, v) :: rest =>
    if name = "kind" then
      match kind with
      | some _ => .error (.duplicateField "kind")
      | none => do
        let k ← decodeKind v
        splitKind around (some k) rest
    else if canKeep around v then do
      let (kind, kept) ← splitKind around kind rest
      .ok (kind, (some name, v) :: kept)
    else .error .other

/-- A subject that stands in `around` arrays and objects: an object with its kind anywhere, or an
    array with its kind first. -/
def decodeSubject (around : Nat) : Decoder Subject
  | .object fields closed => do
    let (kind, kept) ← splitKind (around + 1) none fields
    if closed then
      match kind with
      | some k => k.shape.decode (.object kept true)
      | none => .error (.missingField "kind")
    else .error .other
  | .array [] closed => .error (if closed then .missingField "kind" else .other)
  | .array (first :: rest) closed => do
    let kind ← decodeKind first
    if closed && rest.all (canKeep (around + 1)) then kind.shape.decode (.array rest true)
    else .error .other
  | _ => .error .other

def encodeVerdict (v : Verdict) : Value :=
  object [("valid", .bool v.valid), ("confidence", real v.confidence), ("reason", .text v.reason),
    ("expected_delay", encodeDuration v.expected), ("actual_diff", encodeDuration v.actual),
    ("threshold", encodeDuration v.threshold), ("validated_at", encodeInstant v.validatedAt),
    ("subject", encodeOption encodeSubject v.subject)]

def verdictShape : Shape Verdict :=
  Verdict.mk <$> .field "valid" decodeBool <*> .field "confidence" decodeReal
    <*> .field "reason" decodeText <*> .field "expected_delay" decodeDuration
    <*> .field "actual_diff" decodeDuration <*> .field "threshold" decodeDuration
    <*> .field "validated_at" decodeInstant <*> .optional "subject" (decodeSubject 1)

/-! ## Offsets and synchronization -/

def encodeOffset (o : NodeOffset) : Value :=
  object [("node_id", .text o.id), ("offset", encodeDuration o.offset),
    ("confidence", real o.confidence), ("measurement_count", natural o.measurements),
    ("region", encodeRegion o.region), ("calculated_at", encodeInstant o.calculatedAt)]

def offsetShape : Shape NodeOffset :=
  NodeOffset.mk <$> .field "node_id" decodeText <*> .field "offset" decodeDuration
    <*> .field "confidence" decodeReal <*> .field "measurement_count" decodeWordCount
    <*> .field "region" decodeRegion <*> .field "calculated_at" decodeInstant

def encodeState (s : SyncState) : Value := .text s.name

def decodeState : Decoder SyncState := decodeChoice SyncState.all SyncState.name

def encodeStatus (s : SyncStatus) : Value :=
  object [("node_id", .text s.id), ("last_sync", encodeOption encodeInstant s.lastSync),
    ("sync_count", natural s.successes), ("failure_count", natural s.failures),
    ("last_offset", encodeOption encodeDuration s.lastOffset),
    ("average_offset", encodeDuration s.average), ("state", encodeState s.state),
    ("last_error", encodeOption .text s.lastError),
    ("history", .array (s.history.map encodeDuration) true),
    ("updated_at", encodeInstant s.updatedAt)]

def statusShape : Shape SyncStatus :=
  SyncStatus.mk <$> .field "node_id" decodeText <*> .optional "last_sync" decodeInstant
    <*> .field "sync_count" decodeWordCount <*> .field "failure_count" decodeWordCount
    <*> .optional "last_offset" decodeDuration <*> .field "average_offset" decodeDuration
    <*> .field "state" decodeState <*> .optional "last_error" decodeText
    <*> .field "history" (decodeList decodeDuration) <*> .field "updated_at" decodeInstant

/-! ## Consensus -/

def encodeTolerance (t : FaultTolerance) : Value :=
  object [("total_nodes", natural t.total), ("byzantine_tolerance", natural t.byzantine),
    ("crash_tolerance", natural t.crash), ("quorum_size", natural t.quorum)]

def toleranceShape : Shape FaultTolerance :=
  FaultTolerance.mk <$> .field "total_nodes" decodeWordCount
    <*> .field "byzantine_tolerance" decodeWordCount <*> .field "crash_tolerance" decodeWordCount
    <*> .field "quorum_size" decodeWordCount

def encodeTiming (t : ConsensusTiming) : Value :=
  object [("max_propagation_delay", encodeDuration t.maxDelay),
    ("safety_margin", encodeDuration t.margin), ("block_time", encodeDuration t.blockTime),
    ("optimal_clock_offset", encodeDuration t.clockOffset),
    ("validator_count", natural t.validators), ("computed_at", encodeInstant t.computedAt),
    ("fingerprint", .text t.fingerprint)]

def timingShape : Shape ConsensusTiming :=
  ConsensusTiming.mk <$> .field "max_propagation_delay" decodeDuration
    <*> .field "safety_margin" decodeDuration <*> .field "block_time" decodeDuration
    <*> .field "optimal_clock_offset" decodeDuration <*> .field "validator_count" decodeWordCount
    <*> .field "computed_at" decodeInstant <*> .field "fingerprint" decodeText

def encodeTimeouts (t : PhaseTimeouts) : Value :=
  object [("proposal", encodeDuration t.proposal), ("vote", encodeDuration t.vote),
    ("commit", encodeDuration t.commit), ("view_change", encodeDuration t.viewChange)]

def timeoutsShape : Shape PhaseTimeouts :=
  PhaseTimeouts.mk <$> .field "proposal" decodeDuration <*> .field "vote" decodeDuration
    <*> .field "commit" decodeDuration <*> .field "view_change" decodeDuration

/-! ## Settings -/

def encodePropagation (p : PropagationSettings) : Value :=
  object [("network_factor", real p.networkFactor),
    ("validation_tolerance", encodeDuration p.validationTolerance),
    ("min_confidence", real p.minConfidence), ("delay_cache_ttl", encodeDuration p.delayLifetime),
    ("block_tolerance", encodeDuration p.blockTolerance),
    ("transaction_tolerance", encodeDuration p.transactionTolerance),
    ("heartbeat_tolerance", encodeDuration p.heartbeatTolerance)]

def propagationShape : Shape PropagationSettings :=
  PropagationSettings.mk <$> .field "network_factor" decodeReal
    <*> .field "validation_tolerance" decodeDuration <*> .field "min_confidence" decodeReal
    <*> .field "delay_cache_ttl" decodeDuration <*> .field "block_tolerance" decodeDuration
    <*> .field "transaction_tolerance" decodeDuration
    <*> .field "heartbeat_tolerance" decodeDuration

def encodeConsensus (c : ConsensusSettings) : Value :=
  object [("safety_factor", real c.safetyFactor),
    ("min_propagation_delay", encodeDuration c.minPropagationDelay),
    ("timing_cache_ttl", encodeDuration c.timingLifetime),
    ("min_block_time", encodeDuration c.minBlockTime),
    ("max_block_time", encodeDuration c.maxBlockTime),
    ("min_block_interval", encodeDuration c.minBlockInterval),
    ("min_voting_window", encodeDuration c.minVotingWindow),
    ("max_voting_window", encodeDuration c.maxVotingWindow),
    ("min_phase_timeout", encodeDuration c.minPhaseTimeout),
    ("max_phase_timeout", encodeDuration c.maxPhaseTimeout)]

def consensusShape : Shape ConsensusSettings :=
  ConsensusSettings.mk <$> .field "safety_factor" decodeReal
    <*> .field "min_propagation_delay" decodeDuration <*> .field "timing_cache_ttl" decodeDuration
    <*> .field "min_block_time" decodeDuration <*> .field "max_block_time" decodeDuration
    <*> .field "min_block_interval" decodeDuration <*> .field "min_voting_window" decodeDuration
    <*> .field "max_voting_window" decodeDuration <*> .field "min_phase_timeout" decodeDuration
    <*> .field "max_phase_timeout" decodeDuration

def encodeOffsetSettings (o : OffsetSettings) : Value :=
  object [("staleness", encodeDuration o.staleness),
    ("global_min_confidence", real o.globalMinConfidence)]

def offsetSettingsShape : Shape OffsetSettings :=
  OffsetSettings.mk <$> .field "staleness" decodeDuration
    <*> .field "global_min_confidence" decodeReal

def encodeSyncSettings (s : SyncSettings) : Value :=
  object [("interval", encodeDuration s.interval),
    ("status_retention", encodeDuration s.statusRetention),
    ("history_len", natural s.historyLength)]

def syncSettingsShape : Shape SyncSettings :=
  SyncSettings.mk <$> .field "interval" decodeDuration <*> .field "status_retention" decodeDuration
    <*> .field "history_len" decodeWordCount

def encodeSettings (s : Settings) : Value :=
  object [("propagation", encodePropagation s.propagation),
    ("consensus", encodeConsensus s.consensus), ("offsets", encodeOffsetSettings s.offsets),
    ("sync", encodeSyncSettings s.sync)]

def settingsShape : Shape Settings :=
  Settings.mk <$> .field "propagation" propagationShape.decode
    <*> .field "consensus" consensusShape.decode <*> .field "offsets" offsetSettingsShape.decode
    <*> .field "sync" syncSettingsShape.decode

/-! ## Directories -/

/-- Why a document gives no directory. -/
inductive DirectoryFault where
  | document (fault : DocumentFault)
  | record (fault : Fault)
  deriving DecidableEq

/-- The directory of a document that lists nodes; all of them, or none. -/
def parseDirectory (now : Instant) (text : String) : Except DirectoryFault Directory :=
  match parse (decodeList (decodeNode now)) text with
  | .error fault => .error (.document fault)
  | .ok nodes =>
    match Directory.ofList nodes with
    | .error fault => .error (.record fault)
    | .ok d => .ok d

end LightCone.Json
