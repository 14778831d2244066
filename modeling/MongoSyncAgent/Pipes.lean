import MongoSyncAgent.IsoFormat
import MongoSyncAgent.JsonText
import MongoSyncAgent.Runtime
import MongoSyncAgent.UploadKeys

/-!
The pipes: which uploads each of them takes, and what `COPY INTO RAW_LOGS` makes of a shipped file.

A pipe takes all objects under its path of the stage. The file of a log source has one JSON object
a line, and the columns of the table are its fields.
-/

namespace MongoSyncAgent.Pipes

open MongoSyncAgent.Timestamps MongoSyncAgent.Keys MongoSyncAgent.UploadKeys
open MongoSyncAgent.Runtime MongoSyncAgent.JsonText MongoSyncAgent.IsoFormat

/-! ### Paths of the stage -/

/-- The path that the pipe of an upload copies from, below the stage. -/
def path : Upload → String
  | .mongo db coll => "mongo/" ++ (db.name ++ "/" ++ (coll ++ "/"))
  | .logs source => "logs/" ++ (source ++ "/")
  | .hostmetrics => "hostmetrics/"

/-- The object is under the path of the pipe. -/
def Under (pre : String) (x : Upload) (key : String) : Prop :=
  (normalisePrefix pre ++ path x).toList <+: key.toList

instance (pre : String) (x : Upload) (key : String) : Decidable (Under pre x key) :=
  inferInstanceAs (Decidable (_ <+: _))

/-- The name that goes into the key is one directory. -/
def NoSlash : Upload → Prop
  | .mongo _ coll => '/' ∉ coll.toList
  | .logs source => '/' ∉ source.toList
  | .hostmetrics => True

lemma under_key {pre : String} {x y : Upload} {runDt : Datetime} :
    Under pre y (x.key pre runDt) ↔ (path y).toList <+: (x.body runDt).toList := by
  rw [Under, key_eq, String.toList_append, String.toList_append, List.prefix_append_right_inj]

/-- A path is above another one if its first directory is the same, and so on. -/
lemma segment_prefix {a b u v : List Char} (ha : '/' ∉ a) (hb : '/' ∉ b) :
    a ++ '/' :: u <+: b ++ '/' :: v ↔ a = b ∧ u <+: v := by
  constructor
  · rintro ⟨t, ht⟩
    rw [List.append_assoc, List.cons_append] at ht
    obtain ⟨hab, huv⟩ := segment_injective ha hb ht
    exact ⟨hab, t, huv⟩
  · rintro ⟨rfl, t, rfl⟩
    exact ⟨t, by simp⟩

lemma toList_stamp (ext : String) (runDt : Datetime) : (stamp ext runDt).toList =
    '/' :: ("dt=" ++ dtPartition runDt ++ "/part-" ++ runTs runDt ++ ext).toList := by
  simp [stamp]

/-- **Each upload has one pipe**: it is under the path of its own and of no other. -/
theorem under_iff {pre : String} {x y : Upload} {runDt : Datetime} (hx : NoSlash x)
    (hy : NoSlash y) : Under pre y (x.key pre runDt) ↔ x = y := by
  have hslash : ("/" : String).toList = ['/'] := rfl
  rw [under_key]
  rcases x with ⟨db, coll⟩ | source | _ <;> rcases y with ⟨db', coll'⟩ | source' | _ <;>
    simp only [Upload.body, path, String.toList_append, toList_stamp, hslash, List.append_assoc,
      List.singleton_append]
  case mongo.mongo =>
    have hdb : db'.name = db.name ↔ db = db' := by
      cases db; cases db'
      simp [eq_comm]
    rw [List.prefix_append_right_inj, segment_prefix db'.noSlash db.noSlash,
      segment_prefix hy hx, String.toList_inj, String.toList_inj, hdb]
    simp [eq_comm]
  case logs.logs =>
    rw [List.prefix_append_right_inj, segment_prefix hy hx, String.toList_inj]
    simp [eq_comm]
  case hostmetrics.hostmetrics => exact iff_of_true ⟨_, rfl⟩ trivial
  -- the paths differ in their first letter
  all_goals
    refine iff_of_false ?_ (by simp)
    rintro ⟨t, ht⟩
    simp at ht

/-! ### The files of a log source -/

/-- A record as `ship_source` makes it. -/
def recordJson (r : LogRecord) : Json :=
  .obj [("line", .str r.line), ("host", .str r.host), ("source", .str r.source),
    ("file", .str r.file), ("file_offset", .num (.ofNat r.fileOffset)),
    ("shipped_at", .str (isoformat r.shippedAt))]

/-- What decompressing a spool file of records gives. -/
def gunzip (newline : Newline) : Content → Option (List Char)
  | .ndjson records => some (ndjson newline (records.map recordJson))
  | _ => none

/-! ### `COPY INTO RAW_LOGS` -/

/-- A row of `RAW_LOGS`; `none` is `NULL`. -/
structure RawLog where
  line : Option String
  host : Option String
  source : Option String
  file : Option String
  fileOffset : Option ℕ
  shippedAt : Option Datetime
  deriving DecidableEq

/-- `::STRING`. -/
def asString : Json → Option String
  | .null => none
  | .str s => some s
  | v => some (String.ofList (dumps v))

/-- `::INTEGER`, of what is not negative. -/
def asInteger : Json → Option ℕ
  | .num n => n.toNat?
  | _ => none

/-- `::TIMESTAMP_TZ`. -/
def asTimestamp : Json → Option Datetime
  | .str s => fromisoformat s
  | _ => none

/-- The `SELECT` of the pipe. -/
def columns (v : Json) : RawLog where
  line := (v.get "line").bind asString
  host := (v.get "host").bind asString
  source := (v.get "source").bind asString
  file := (v.get "file").bind asString
  fileOffset := (v.get "file_offset").bind asInteger
  shippedAt := (v.get "shipped_at").bind asTimestamp

/-- The rows of one file, if it is newline-delimited JSON. -/
def copyFile (newline : Newline) (c : Content) : Option (List RawLog) := do
  return (← readLines (← gunzip newline c)).map columns

/-- What the pipe of an upload copies from the stage, file by file. -/
def copyInto (newline : Newline) (pre : String) (x : Upload) (stage : List Put) :
    Option (List RawLog) := do
  let files ← (stage.filter fun p => Under pre x p.key).mapM fun p => copyFile newline p.content
  return files.flatten

/-- The row of a record. -/
def rowOf (r : LogRecord) : RawLog where
  line := some r.line
  host := some r.host
  source := some r.source
  file := some r.file
  fileOffset := some r.fileOffset
  shippedAt := some r.shippedAt

lemma columns_recordJson {r : LogRecord} (h : Zoned r.shippedAt) :
    columns (recordJson r) = rowOf r := by
  have hfield : ∀ key, (recordJson r).get key = [("line", Json.str r.line), ("host", .str r.host),
      ("source", .str r.source), ("file", .str r.file),
      ("file_offset", .num (.ofNat r.fileOffset)),
      ("shipped_at", .str (isoformat r.shippedAt))].lookup key := fun _ => rfl
  simp [columns, hfield, List.lookup_cons, asString, asInteger, asTimestamp,
    fromisoformat_isoformat r.shippedAt h, rowOf]

/-- **What is shipped is what is copied**: the rows of a file are its records, whatever the lines
hold and whatever ends the lines of the file. -/
theorem copyFile_ndjson (newline : Newline) {records : List LogRecord}
    (h : ∀ r ∈ records, Zoned r.shippedAt) :
    copyFile newline (.ndjson records) = some (records.map rowOf) := by
  have hrows : (records.map recordJson).map columns = records.map rowOf := by
    rw [List.map_map]
    exact List.map_congr_left fun r hr => columns_recordJson (h r hr)
  simp only [copyFile, gunzip, Option.bind_eq_bind, Option.bind_some, readLines_ndjson, hrows]
  rfl

end MongoSyncAgent.Pipes
