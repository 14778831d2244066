import MongoSyncAgent.Timestamps

/-!
The configuration that the units read, and the context and outcome of a run.
-/

namespace MongoSyncAgent.Config

open MongoSyncAgent.Timestamps

inductive Mode
  | appendOnly | mutable | fullRefresh
  deriving DecidableEq

structure CollectionConfig where
  name : String
  mode : Mode
  watermarkField : Option String := none
  overlapSeconds : ℤ := 30
  batchSize : ℤ := 1000
  initialWatermark : Option String := none
  allowGridfsChunks : Bool := false
  /-- `load_config` demands the field in mutable mode. -/
  field_of_mutable : mode = .mutable → watermarkField.isSome
  deriving DecidableEq

/-- An append-only collection needs no field. -/
lemma appendOnly_field : Mode.appendOnly = .mutable → (none : Option String).isSome := by
  decide

structure LogSourceConfig where
  name : String
  pathGlob : String
  encoding : String := "utf-8"
  maxBytesPerPoll : ℤ := 8388608
  deriving DecidableEq

structure MongoConfig where
  database : String
  /-- A full URI overrides the host, the port and the credentials. -/
  uri : Option String := none
  host : String := "localhost"
  port : ℤ := 27017
  username : Option String := none
  password : Option String := none
  authSource : String := "admin"
  tls : Bool := false
  tlsCaFile : Option String := none
  serverSelectionTimeoutMs : ℤ := 5000
  deriving DecidableEq

structure S3Config where
  bucket : String
  region : String := "us-east-1"
  pre : String := ""
  deriving DecidableEq

structure LogsConfig where
  enabled : Bool := true
  sources : List LogSourceConfig := []
  gcDays : ℤ := 14
  deriving DecidableEq

structure HostMetricsConfig where
  enabled : Bool := true
  disks : List String := []
  deriving DecidableEq

structure AgentConfig where
  stateDb : String
  spoolDir : String
  logDir : String
  logLevel : String
  mongoEnabled : Bool
  mongo : Option MongoConfig
  collections : List CollectionConfig
  s3 : S3Config
  logs : LogsConfig
  hostmetrics : HostMetricsConfig
  hostId : Option String := none
  deriving DecidableEq

structure RunContext where
  runId : String
  runDt : Datetime
  spoolDir : String
  dryRun : Bool := false
  host : String := ""
  deriving DecidableEq

inductive Status
  | ok | skipped | failed | empty
  deriving DecidableEq

structure UnitResult where
  unit : String
  status : Status
  docs : ℕ := 0
  bytesUploaded : ℕ := 0
  error : Option String := none
  deriving DecidableEq

/-- `spool_path`. -/
def spoolPath (spoolDir unit ext : String) : String := spoolDir ++ "/" ++ unit ++ "." ++ ext

end MongoSyncAgent.Config
