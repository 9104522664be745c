import Wikistream.Admin.BackfillReverts
import Wikistream.Common.Dlq
import Wikistream.Common.Models
import Wikistream.Common.Offsets
import Wikistream.Common.Records
import Wikistream.Common.Watchdog
import Wikistream.Correctness.AbortedBatch
import Wikistream.Correctness.AlertsEndToEnd
import Wikistream.Correctness.BackfillComplete
import Wikistream.Correctness.CacheBound
import Wikistream.Correctness.CacheInterval
import Wikistream.Correctness.CaughtUp
import Wikistream.Correctness.CheckpointCrash
import Wikistream.Correctness.CleanerLossless
import Wikistream.Correctness.CleanerRestart
import Wikistream.Correctness.CompactionInvisible
import Wikistream.Correctness.DashboardPages
import Wikistream.Correctness.DashboardSums
import Wikistream.Correctness.DeadLetters
import Wikistream.Correctness.DedupCap
import Wikistream.Correctness.DedupWindow
import Wikistream.Correctness.DeletedPages
import Wikistream.Correctness.DeliveryPrefix
import Wikistream.Correctness.EditWarArrival
import Wikistream.Correctness.EditWarExpiry
import Wikistream.Correctness.EditWarRestart
import Wikistream.Correctness.EndToEnd
import Wikistream.Correctness.ExactlyOnce
import Wikistream.Correctness.FeedPages
import Wikistream.Correctness.FreshAnswers
import Wikistream.Correctness.HandOver
import Wikistream.Correctness.MinuteBars
import Wikistream.Correctness.NewestPages
import Wikistream.Correctness.NoDuplicate
import Wikistream.Correctness.NoGap
import Wikistream.Correctness.NoSkip
import Wikistream.Correctness.OneOutcome
import Wikistream.Correctness.PageTable
import Wikistream.Correctness.Pipeline
import Wikistream.Correctness.PipelineRuns
import Wikistream.Correctness.ReassignedPartition
import Wikistream.Correctness.RebuildWhole
import Wikistream.Correctness.Rejoins
import Wikistream.Correctness.RetentionGaps
import Wikistream.Correctness.Storage
import Wikistream.Correctness.StorageAccepts
import Wikistream.Correctness.StreamPayloads
import Wikistream.Correctness.TrendingFloor
import Wikistream.Correctness.TrendingGroup
import Wikistream.Correctness.TrendingRebalance
import Wikistream.Correctness.TrendingRestart
import Wikistream.Correctness.WarmUpIds
import Wikistream.Correctness.WindowCap
import Wikistream.Correctness.WindowClosing
import Wikistream.Correctness.WriteGivesUp
import Wikistream.Ingestor.CheckpointFile
import Wikistream.Ingestor.Main
import Wikistream.Lib.Disk
import Wikistream.Lib.Follower
import Wikistream.Lib.Groups
import Wikistream.Lib.Log
import Wikistream.Lib.Loop
import Wikistream.Lib.Prefix
import Wikistream.Lib.Run
import Wikistream.Lib.Strikes
import Wikistream.Lib.Table
import Wikistream.Lib.TxnAppend
import Wikistream.Lib.Watermark
import Wikistream.Processors.Cleaner
import Wikistream.Processors.Dedup
import Wikistream.Processors.Transactional
import Wikistream.Processors.Transform
import Wikistream.Processors.Trending
import Wikistream.Processors.TrendingGroup
import Wikistream.Processors.Warmup
import Wikistream.Python.DateTime
import Wikistream.Python.Exc
import Wikistream.Python.Json
import Wikistream.Python.JsonAscii
import Wikistream.Python.JsonRoundTrip
import Wikistream.Python.Sha256
import Wikistream.Sinks.AlertsSink
import Wikistream.Sinks.PostgresSink
import Wikistream.Web.PageFollower
import Wikistream.Web.Totals
import Wikistream.Web.UsePolling
