import MongoSyncAgent.Timestamps

/-!
The S3 keys of the uploads.
-/

namespace MongoSyncAgent.Keys

open MongoSyncAgent.Timestamps

/-- `if prefix and not prefix.endswith("/"): prefix += "/"`. -/
def normalisePrefix (pre : String) : String :=
  if pre ≠ "" ∧ ¬ ['/'] <:+ pre.toList then pre ++ "/" else pre

/-- `run_dt.strftime("%Y-%m-%d")`. -/
def dtPartition (runDt : Datetime) : String :=
  String.ofList (padded 4 runDt.date.year ++ '-' :: (padded 2 runDt.date.month ++
    '-' :: padded 2 runDt.date.day))

/-- `run_dt.strftime("%Y%m%dT%H%M%SZ")`. -/
def runTs (runDt : Datetime) : String :=
  String.ofList (padded 4 runDt.date.year ++ (padded 2 runDt.date.month ++
    (padded 2 runDt.date.day ++ 'T' :: (padded 2 runDt.hour ++ (padded 2 runDt.minute ++
      (padded 2 runDt.second ++ ['Z']))))))

def mongoKey (pre db coll : String) (runDt : Datetime) : String :=
  normalisePrefix pre ++ "mongo/" ++ db ++ "/" ++ coll ++ "/dt=" ++ dtPartition runDt ++
    "/part-" ++ runTs runDt ++ ".parquet"

def logsKey (pre source : String) (runDt : Datetime) : String :=
  normalisePrefix pre ++ "logs/" ++ source ++ "/dt=" ++ dtPartition runDt ++
    "/part-" ++ runTs runDt ++ ".jsonl.gz"

def hostmetricsKey (pre : String) (runDt : Datetime) : String :=
  normalisePrefix pre ++ "hostmetrics/dt=" ++ dtPartition runDt ++
    "/part-" ++ runTs runDt ++ ".jsonl.gz"

end MongoSyncAgent.Keys
