import Athena.Library.Framing
import Athena.Library.HashChain
import Athena.Library.Calendar
import Athena.Library.Tiling
import Athena.Library.WriteOnce
import Athena.Library.Replica
import Athena.Library.Columns
import Athena.Library.PrefixCode
import Athena.Library.Binary64
import Athena.Library.ReadReplace
import Athena.Library.TempReplace
import Athena.Library.AlertRule
import Athena.Library.WorldSimulation
import Athena.Library.PathResolution
import Athena.Library.Positional
import Athena.Library.TimeZone
import Athena.Library.RecursiveDescent
import Athena.Core.Datetime
import Athena.Core.Time
import Athena.Core.Isoformat
import Athena.Core.Text
import Athena.Core.Numerals
import Athena.Core.IsoPrint
import Athena.Core.Version
import Athena.Core.Describe
import Athena.Core.VersionFile
import Athena.Core.Dto
import Athena.Ledger.CanonicalJson
import Athena.Ledger.CanonicalForm
import Athena.Ledger.JsonTokens
import Athena.Ledger.JsonLoads
import Athena.Ledger.JsonLayout
import Athena.Ledger.EntryHash
import Athena.Ledger.Table
import Athena.Ledger.Client
import Athena.Ledger.ChainInvariant
import Athena.Ledger.Progress
import Athena.Ledger.VerifyChain
import Athena.Ledger.Integrity
import Athena.Ledger.Pointwise
import Athena.Ledger.AppendOnly
import Athena.Ledger.FailedAppend
import Athena.Ledger.Reseeding
import Athena.Ledger.LedgerEntry
import Athena.Ledger.SegmentHash
import Athena.Ledger.Months
import Athena.Ledger.EmptyMonths
import Athena.Ledger.SegmentChain
import Athena.Ledger.MonthlyChain
import Athena.Ledger.ArchiveWrite
import Athena.Ledger.Publishing
import Athena.Ledger.Acceptance
import Athena.Ledger.VerifyMain
import Athena.Ledger.Continuity
import Athena.Ledger.Agreement
import Athena.Ledger.SegmentFile
import Athena.Ledger.Tampering
import Athena.Ledger.ArchiveKeys
import Athena.Mount.ReadonlyMount
import Athena.Mount.Transition
import Athena.Mount.Recovery
import Athena.Mount.Service
import Athena.Mount.ChattrProtocol
import Athena.Mount.TradingDay
import Athena.Mount.OverrideEvent
import Athena.Shards.Storage
import Athena.Shards.DataEquals
import Athena.Shards.Paths
import Athena.Shards.Export
import Athena.Shards.Immutability
import Athena.Shards.Names
import Athena.Shards.Runs
import Athena.Shards.Filing
import Athena.Shards.Reader
import Athena.Shards.ReadBack
import Athena.Shards.Replication
import Athena.Shards.ExportMain
import Athena.Shards.ParseHour
import Athena.Shards.HourText
import Athena.Shards.FailedExport
import Athena.Shards.CheckPlan
import Athena.Shards.CheckRun
import Athena.Shards.CheckMode
import Athena.Shards.CheckReport
import Athena.Shards.Splitting
import Athena.Shards.Admission
import Athena.Shards.ViewColumns
import Athena.Metrics.Textfile
import Athena.Metrics.LoggerSync
import Athena.Metrics.MountMetric
import Athena.Metrics.Emitters
import Athena.Metrics.Collector
import Athena.Metrics.LagAlert
import Athena.Metrics.Damaged
import Athena.Mount.UnitRun
import Athena.Metrics.LastTransition
import Athena.Gate.Cooling
import Athena.Gate.PolicyPrefix
import Athena.Mount.Subprocess
import Athena.Mount.SubprocessFaults
