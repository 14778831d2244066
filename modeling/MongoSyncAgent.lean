import MongoSyncAgent.Systems
import MongoSyncAgent.Lines
import MongoSyncAgent.AppendCursor
import MongoSyncAgent.MutableCursor
import MongoSyncAgent.ProvisionalOffsets
import MongoSyncAgent.RotatedLogs
import MongoSyncAgent.DedupKey
import MongoSyncAgent.SharedBucket
import MongoSyncAgent.Locking
import MongoSyncAgent.FirstBounds
import MongoSyncAgent.TrackedField
import MongoSyncAgent.WatermarkHistory
import MongoSyncAgent.Merge
import MongoSyncAgent.SharedPrefixes
import MongoSyncAgent.UnitKeys
import MongoSyncAgent.DryRun
import MongoSyncAgent.RacingPolls
import MongoSyncAgent.WindowSizes
import MongoSyncAgent.Endings
import MongoSyncAgent.LongLines
import MongoSyncAgent.CodeUnits
import MongoSyncAgent.WatermarkColumn
import MongoSyncAgent.EarlyDates
import MongoSyncAgent.DottedFields
import MongoSyncAgent.Batches
import MongoSyncAgent.FailedUploads
import MongoSyncAgent.UploadKeys
import MongoSyncAgent.ArrivalOrder
import MongoSyncAgent.HostMetrics
import MongoSyncAgent.StateWrites
import MongoSyncAgent.ConfigErrors
import MongoSyncAgent.ExitCodes
import MongoSyncAgent.Failover
import MongoSyncAgent.RawLogs
import MongoSyncAgent.CrashSafety
import MongoSyncAgent.RunHistory
import MongoSyncAgent.Cli
import MongoSyncAgent.WholeCycle
import MongoSyncAgent.Delivery
import MongoSyncAgent.Idle
import MongoSyncAgent.Processes
import MongoSyncAgent.GracePeriod
