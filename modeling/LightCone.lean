import LightCone.BatchOutcome
import LightCone.Binary64.Angle
import LightCone.Binary64.Basic
import LightCone.Binary64.InverseSine
import LightCone.Binary64.Reading
import LightCone.Binary64.Series
import LightCone.Binary64.Text
import LightCone.ClockOffset
import LightCone.Consensus.Timing
import LightCone.Digest.Sha256
import LightCone.Directory
import LightCone.ExpiringCache
import LightCone.Fault
import LightCone.Job
import LightCone.Json.Decode
import LightCone.Json.Printer
import LightCone.Json.Reader
import LightCone.Json.Records
import LightCone.Json.Value
import LightCone.Node
import LightCone.Position
import LightCone.Proofs.DelayMemo
import LightCone.Proofs.Directories
import LightCone.Proofs.Distance
import LightCone.Proofs.Expiry
import LightCone.Proofs.Provenance
import LightCone.Proofs.Quorums
import LightCone.Proofs.Run.Commuting
import LightCone.Proofs.Run.Effects
import LightCone.Proofs.Run.Interleaving
import LightCone.Proofs.Run.Latest
import LightCone.Proofs.Run.Lockstep
import LightCone.Proofs.Run.Moves
import LightCone.Proofs.Run.Requests
import LightCone.Proofs.Run.Tandem
import LightCone.Proofs.Run.Trace
import LightCone.Proofs.Run.TwoNodes
import LightCone.Proofs.Schedule
import LightCone.Proofs.SetNames
import LightCone.Proofs.Staleness
import LightCone.Proofs.StatusChanges
import LightCone.Proofs.Sweeping
import LightCone.Proofs.Swept
import LightCone.Proofs.Tables
import LightCone.Proofs.TimingCover
import LightCone.Proofs.TimingSeparation
import LightCone.Proofs.WorstDelay
import LightCone.Propagation
import LightCone.Quorum
import LightCone.Rounding
import LightCone.Service.Basic
import LightCone.Service.Batch
import LightCone.Service.Delays
import LightCone.Service.Memory
import LightCone.Service.Offsets
import LightCone.Service.Request
import LightCone.Service.Sync
import LightCone.Service.Timings
import LightCone.Settings.Basic
import LightCone.Settings.Variables
import LightCone.Statistics.Event
import LightCone.Statistics.Metrics
import LightCone.SyncStatus
import LightCone.Table
import LightCone.Text.Blank
import LightCone.Text.Digits
import LightCone.Time.Calendar
import LightCone.Time.Duration
import LightCone.Time.Instant
import LightCone.Time.Rfc3339
import LightCone.Validation
import LightCone.ValidatorSet
import LightCone.Proofs.Run.Counting
import LightCone.Proofs.Cancellation
import LightCone.Proofs.IdSets
import LightCone.Proofs.Conservation
import LightCone.Proofs.StatusHistory
import LightCone.Proofs.CacheHistory
import LightCone.Proofs.Run.Twins
import LightCone.Proofs.Cleared
import LightCone.Proofs.TimingAgreement
import LightCone.Proofs.Run.Loop
import LightCone.Proofs.Retention
import LightCone.Proofs.BackgroundLoop
import LightCone.Proofs.EveryPair
import LightCone.Proofs.Nearest
import LightCone.Proofs.Seconds
import LightCone.Proofs.RunningAverage
import LightCone.Proofs.Verdicts
import LightCone.Proofs.InstantText
import LightCone.Proofs.Json.Texts
import LightCone.Proofs.Json.ReadBack
import LightCone.Proofs.Json.Fields
import LightCone.Proofs.Json.RoundTrip
import LightCone.Proofs.Overflow
import LightCone.Proofs.Roots
import LightCone.Proofs.Saturation
import LightCone.Proofs.DerivedTiming
import LightCone.Proofs.BlockIntervals
import LightCone.Proofs.FiniteDistance
import LightCone.Proofs.Weights
import LightCone.Proofs.OffsetOutcomes
import LightCone.Proofs.Quotients
import LightCone.Proofs.Run.Waiting
import LightCone.Proofs.Deadlines
import LightCone.Proofs.CountedVerdicts
import LightCone.Proofs.WorstPairs
import LightCone.Proofs.Sums
import LightCone.Proofs.Run.Confidences
import LightCone.Proofs.GlobalOffsets
import LightCone.Proofs.Scores
import LightCone.Proofs.MeasuredDistances
import LightCone.Proofs.BothDirections
import LightCone.Proofs.LatestRecords
import LightCone.Proofs.Thresholds
import LightCone.Proofs.MetricRows
import LightCone.Proofs.Numerals
import LightCone.Proofs.VariableTable
import LightCone.Proofs.StatusCleanup
import LightCone.Proofs.Registration
import LightCone.Proofs.Instants
