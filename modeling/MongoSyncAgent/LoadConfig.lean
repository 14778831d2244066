import Mathlib.Data.List.Infix
import MongoSyncAgent.Config
import MongoSyncAgent.Py

/-!
Loading the configuration: from the tree of a TOML document to the configuration of the agent.

The fields are checked in the order of the source, and the first one that is wrong ends the load.
The checks are of presence and of type; a section that is no table fails too, where Python first
trips over it.
-/

namespace MongoSyncAgent.LoadConfig

open MongoSyncAgent.Py MongoSyncAgent.Config

/-- The value of a TOML key, as `tomllib` gives it. -/
inductive Toml
  | str (s : String)
  | int (n : ℤ)
  | bool (b : Bool)
  /-- A float, a date or a time: by the name of its type. -/
  | other (typeName : String)
  | array (items : List Toml)
  | table (entries : List (String × Toml))

abbrev Table := List (String × Toml)

namespace Toml

def typeName : Toml → String
  | .str _ => "str"
  | .int _ => "int"
  | .bool _ => "bool"
  | .other name => name
  | .array _ => "list"
  | .table _ => "dict"

/-- `key in value`. -/
def contains (key : String) : Toml → Except Exc Bool
  | .table entries => .ok (entries.lookup key).isSome
  | .array items => .ok (items.any fun | .str s => s = key | _ => false)
  | .str s => .ok (key.toList <:+: s.toList)
  | v => raise .typeError ("argument of type '" ++ v.typeName ++ "' is not iterable")

/-- `value[key]`. -/
def item (key : String) : Toml → Except Exc Toml
  | .table entries =>
    match entries.lookup key with
    | some v => .ok v
    | none => raise .lookupError ("'" ++ key ++ "'")
  | .array _ => raise .typeError "list indices must be integers or slices, not str"
  | .str _ => raise .typeError "string indices must be integers, not 'str'"
  | v => raise .typeError ("'" ++ v.typeName ++ "' object is not subscriptable")

/-- `value.get(key)`. -/
def get (key : String) : Toml → Except Exc (Option Toml)
  | .table entries => .ok (entries.lookup key)
  | v => raise .attributeError ("'" ++ v.typeName ++ "' object has no attribute 'get'")

end Toml

def configError {α : Type} (text : String) : Except Exc α := raise .configError text

/-! ### Fields -/

/-- A type that a field must have: its name, and its values among those of TOML. -/
structure FieldType (α : Type) where
  name : String
  cast : Toml → Option α

def strType : FieldType String := ⟨"str", fun | .str s => some s | _ => none⟩

/-- A `bool` is an `int`. -/
def intType : FieldType ℤ :=
  ⟨"int", fun | .int n => some n | .bool b => some b.toInt | _ => none⟩

def boolType : FieldType Bool := ⟨"bool", fun | .bool b => some b | _ => none⟩

/-- `_require(table, key, field_name, str)`. -/
def require (table : Toml) (key fieldName : String) : Except Exc String := do
  if !(← table.contains key) then configError ("missing required field '" ++ fieldName ++ "'")
  else
    match strType.cast (← table.item key) with
    | some s =>
      if s = "" then configError ("field '" ++ fieldName ++ "' must be a non-empty str")
      else return s
    | none => configError ("field '" ++ fieldName ++ "' must be a non-empty str")

/-- `_optional`. -/
def optional {α : Type} (type : FieldType α) (table : Toml) (key fieldName : String)
    (default : α) : Except Exc α := do
  if !(← table.contains key) then return default
  else
    match type.cast (← table.item key) with
    | some v => return v
    | none => configError ("field '" ++ fieldName ++ "' must be a " ++ type.name)

/-- `_optional(table, key, field_name, str, None)`. -/
def optionalStr (table : Toml) (key fieldName : String) : Except Exc (Option String) :=
  optional ⟨"str", fun v => (strType.cast v).map some⟩ table key fieldName none

/-- `[parse(entry, idx) for idx, entry in enumerate(entries)]`, from an index on. -/
def parseEach {α : Type} (parse : Toml → ℕ → Except Exc α) : ℕ → List Toml → Except Exc (List α)
  | _, [] => .ok []
  | idx, entry :: rest => do return (← parse entry idx) :: (← parseEach parse (idx + 1) rest)

/-- An array of tables, which may be left out. -/
def parseArray {α : Type} (parse : Toml → ℕ → Except Exc α) (raw : Toml) (key fieldName : String) :
    Except Exc (List α) := do
  match (← raw.get key).getD (.array []) with
  | .array entries => parseEach parse 0 entries
  | _ => configError ("field '" ++ fieldName ++ "' must be an array of tables")

/-! ### Sections -/

/-- `_VALID_MODES`. -/
def validModes : List (String × Mode) :=
  [("append_only", .appendOnly), ("mutable", .mutable), ("full_refresh", .fullRefresh)]

def isTable : Toml → Bool
  | .table _ => true
  | _ => false

def isChunks (name : String) : Bool := ".chunks".toList <:+ name.toList

/-- `_parse_collection`. -/
def parseCollection (raw : Toml) (idx : ℕ) : Except Exc CollectionConfig := do
  let pre := "mongo.collections[" ++ toString idx ++ "]"
  if !isTable raw then configError ("field '" ++ pre ++ "' must be a table")
  else
  let name ← require raw "name" (pre ++ ".name")
  let modeName ← require raw "mode" (pre ++ ".mode")
  match validModes.lookup modeName with
  | none => configError ("field '" ++ pre ++
      ".mode' must be one of ('append_only', 'mutable', 'full_refresh'), got '" ++ modeName ++ "'")
  | some mode =>
    let watermarkField ← optionalStr raw "watermark_field" (pre ++ ".watermark_field")
    if h : mode = .mutable → watermarkField.getD "" ≠ "" then
      let overlapSeconds ← optional intType raw "overlap_seconds" (pre ++ ".overlap_seconds") 30
      let batchSize ← optional intType raw "batch_size" (pre ++ ".batch_size") 1000
      let initialWatermark ← optionalStr raw "initial_watermark" (pre ++ ".initial_watermark")
      let allowGridfsChunks ←
        optional boolType raw "allow_gridfs_chunks" (pre ++ ".allow_gridfs_chunks") false
      if isChunks name && !allowGridfsChunks then
        configError ("field '" ++ pre ++ ".name' ('" ++ name ++
          "') looks like a GridFS chunks collection; set '" ++ pre ++
          ".allow_gridfs_chunks = true' to sync it explicitly")
      else
        return { name, mode, watermarkField, overlapSeconds, batchSize, initialWatermark,
                 allowGridfsChunks,
                 field_of_mutable := fun hm => by
                   cases watermarkField with
                   | none => exact absurd rfl (h hm)
                   | some _ => rfl }
    else configError ("field '" ++ pre ++ ".watermark_field' is required when mode is 'mutable'")

/-- `_parse_mongo`: whether the module is on, its connection, and its collections. -/
def parseMongo (raw : Option Toml) :
    Except Exc (Bool × Option MongoConfig × List CollectionConfig) :=
  match raw with
  | none => .ok (false, none, [])
  | some raw => do
    if !(← optional boolType raw "enabled" "mongo.enabled" true) then return (false, none, [])
    else
    let database ← require raw "database" "mongo.database"
    let uri ← optionalStr raw "uri" "mongo.uri"
    let host ← optional strType raw "host" "mongo.host" "localhost"
    let port ← optional intType raw "port" "mongo.port" 27017
    let username ← optionalStr raw "username" "mongo.username"
    let password ← optionalStr raw "password" "mongo.password"
    let authSource ← optional strType raw "auth_source" "mongo.auth_source" "admin"
    let tls ← optional boolType raw "tls" "mongo.tls" false
    let tlsCaFile ← optionalStr raw "tls_ca_file" "mongo.tls_ca_file"
    let serverSelectionTimeoutMs ← optional intType raw "server_selection_timeout_ms"
      "mongo.server_selection_timeout_ms" 5000
    let mongo : MongoConfig := { database, uri, host, port, username, password, authSource, tls,
                                 tlsCaFile, serverSelectionTimeoutMs }
    let collections ← parseArray parseCollection raw "collections" "mongo.collections"
    return (true, some mongo, collections)

/-- `_parse_s3`. -/
def parseS3 (raw : Option Toml) : Except Exc S3Config :=
  match raw with
  | none => configError "missing required section '[s3]'"
  | some raw => do
    let bucket ← require raw "bucket" "s3.bucket"
    let region ← optional strType raw "region" "s3.region" "us-east-1"
    let pre ← optional strType raw "prefix" "s3.prefix" ""
    return { bucket, region, pre }

/-- `_parse_log_source`. -/
def parseLogSource (raw : Toml) (idx : ℕ) : Except Exc LogSourceConfig := do
  let pre := "logs.sources[" ++ toString idx ++ "]"
  if !isTable raw then configError ("field '" ++ pre ++ "' must be a table")
  else
  let name ← require raw "name" (pre ++ ".name")
  let pathGlob ← require raw "path_glob" (pre ++ ".path_glob")
  let encoding ← optional strType raw "encoding" (pre ++ ".encoding") "utf-8"
  let maxBytesPerPoll ←
    optional intType raw "max_bytes_per_poll" (pre ++ ".max_bytes_per_poll") 8388608
  return { name, pathGlob, encoding, maxBytesPerPoll }

/-- `_parse_logs`. -/
def parseLogs (raw : Option Toml) : Except Exc LogsConfig :=
  match raw with
  | none => .ok {}
  | some raw => do
    let enabled ← optional boolType raw "enabled" "logs.enabled" true
    let gcDays ← optional intType raw "gc_days" "logs.gc_days" 14
    let sources ← parseArray parseLogSource raw "sources" "logs.sources"
    return { enabled, sources, gcDays }

/-- `_parse_hostmetrics`. -/
def parseHostmetrics (raw : Option Toml) : Except Exc HostMetricsConfig :=
  match raw with
  | none => .ok {}
  | some raw => do
    let enabled ← optional boolType raw "enabled" "hostmetrics.enabled" true
    match (← raw.get "disks").getD (.array []) with
    | .array items =>
      match items.mapM strType.cast with
      | some disks => return { enabled, disks }
      | none => configError "field 'hostmetrics.disks' must be an array of strings"
    | _ => configError "field 'hostmetrics.disks' must be an array of strings"

/-! ### The document -/

/-- Why there is no document. -/
inductive LoadFailure
  | notFound
  | undecodable (text : String)
  /-- What `load_config` does not catch. -/
  | raised (e : Exc)

/-- `load_config`, on what reading and decoding the file at `path` gives. -/
def loadConfig (defaultLogDir path : String) (file : Except LoadFailure Table) :
    Except Exc AgentConfig :=
  match file with
  | .error .notFound => configError ("config file not found: " ++ path)
  | .error (.undecodable text) =>
    configError ("failed to parse TOML config at " ++ path ++ ": " ++ text)
  | .error (.raised e) => .error e
  | .ok raw =>
    match raw.lookup "agent" with
    | none => configError "missing required section '[agent]'"
    | some agent => do
      let stateDb ← require agent "state_db" "agent.state_db"
      let spoolDir ← require agent "spool_dir" "agent.spool_dir"
      let logDir ← optional strType agent "log_dir" "agent.log_dir" defaultLogDir
      let logLevel ← optional strType agent "log_level" "agent.log_level" "WARNING"
      let hostId ← optionalStr agent "host_id" "agent.host_id"
      let (mongoEnabled, mongo, collections) ← parseMongo (raw.lookup "mongo")
      let s3 ← parseS3 (raw.lookup "s3")
      let logs ← parseLogs (raw.lookup "logs")
      let hostmetrics ← parseHostmetrics (raw.lookup "hostmetrics")
      return { stateDb, spoolDir, logDir, logLevel, mongoEnabled, mongo, collections, s3, logs,
               hostmetrics, hostId }

variable {α : Type} {raw : Toml} {key fieldName : String}

/-! ### What a field gives -/

lemma require_ok {s : String} (h : require raw key fieldName = .ok s) : s ≠ "" := by
  obtain ⟨present, -, h⟩ := bind_ok h
  split_ifs at h
  · cases h
  obtain ⟨v, -, h⟩ := bind_ok h
  split at h
  · split_ifs at h with hs
    · cases h
    · obtain rfl := Except.ok.inj h
      exact hs
  · cases h

/-- A field of a table that is there. -/
lemma require_table {t : Table} {s : String} (h : t.lookup key = some (.str s)) (hs : s ≠ "") :
    require (.table t) key fieldName = .ok s := by
  simp [require, Toml.contains, Toml.item, h, strType, hs]
  rfl

lemma optional_table {type : FieldType α} {t : Table} {v : Toml} {a default : α}
    (h : t.lookup key = some v) (hv : type.cast v = some a) :
    optional type (.table t) key fieldName default = .ok a := by
  simp [optional, Toml.contains, Toml.item, h, hv]
  rfl

/-- A field of a table that is left out. -/
lemma optional_none {type : FieldType α} {t : Table} {default : α} (h : t.lookup key = none) :
    optional type (.table t) key fieldName default = .ok default := by
  simp [optional, Toml.contains, h]
  rfl

lemma parseEach_mem {parse : Toml → ℕ → Except Exc α} {idx : ℕ} {entries : List Toml}
    {items : List α} (h : parseEach parse idx entries = .ok items) :
    ∀ a ∈ items, ∃ entry idx, parse entry idx = .ok a := by
  induction entries generalizing idx items with
  | nil =>
    obtain rfl := Except.ok.inj h
    simp
  | cons entry entries ih =>
    obtain ⟨a, ha, h⟩ := bind_ok h
    obtain ⟨rest, hrest, h⟩ := bind_ok h
    obtain rfl := Except.ok.inj h
    intro b hb
    rcases List.mem_cons.mp hb with rfl | hb
    · exact ⟨_, _, ha⟩
    · exact ih hrest b hb

lemma parseArray_mem {parse : Toml → ℕ → Except Exc α} {items : List α}
    (h : parseArray parse raw key fieldName = .ok items) :
    ∀ a ∈ items, ∃ entry idx, parse entry idx = .ok a := by
  obtain ⟨v, -, h⟩ := bind_ok h
  split at h
  · exact parseEach_mem h
  · cases h

/-- Tables that say what the items are give the items. -/
lemma parseEach_map {parse : Toml → ℕ → Except Exc α} {toToml : α → Toml} {items : List α}
    (h : ∀ a ∈ items, ∀ idx, parse (toToml a) idx = .ok a) (idx : ℕ) :
    parseEach parse idx (items.map toToml) = .ok items := by
  induction items generalizing idx with
  | nil => rfl
  | cons a items ih =>
    rw [List.map_cons, parseEach, h a List.mem_cons_self, ok_bind,
      ih fun b hb => h b (List.mem_cons_of_mem _ hb)]
    rfl

lemma parseArray_map {parse : Toml → ℕ → Except Exc α} {toToml : α → Toml} {items : List α}
    {t : Table} (h : ∀ a ∈ items, ∀ idx, parse (toToml a) idx = .ok a)
    (ht : t.lookup key = some (.array (items.map toToml))) :
    parseArray parse (.table t) key fieldName = .ok items := by
  rw [parseArray, Toml.get, ok_bind, ht]
  exact parseEach_map h 0

/-! ### What is accepted -/

/-- What the checks establish of a collection. -/
structure ValidCollection (c : CollectionConfig) : Prop where
  name : c.name ≠ ""
  field : c.mode = .mutable → c.watermarkField ≠ some ""
  chunks : isChunks c.name → c.allowGridfsChunks

lemma parseCollection_valid {idx : ℕ} {c : CollectionConfig} (h : parseCollection raw idx = .ok c) :
    ValidCollection c := by
  unfold parseCollection at h
  split_ifs at h
  · cases h
  obtain ⟨name, hname, h⟩ := bind_ok h
  obtain ⟨modeName, -, h⟩ := bind_ok h
  split at h
  · cases h
  obtain ⟨field, -, h⟩ := bind_ok h
  split_ifs at h with hfield
  swap
  · cases h
  obtain ⟨overlap, -, h⟩ := bind_ok h
  obtain ⟨batch, -, h⟩ := bind_ok h
  obtain ⟨initial, -, h⟩ := bind_ok h
  obtain ⟨allow, -, h⟩ := bind_ok h
  split_ifs at h with hchunks
  · cases h
  obtain rfl := Except.ok.inj h
  refine ⟨require_ok hname, fun hm heq => hfield hm (by simp only at heq; rw [heq]; rfl),
    fun hc => ?_⟩
  simpa [hc] using hchunks

structure ValidSource (s : LogSourceConfig) : Prop where
  name : s.name ≠ ""
  pathGlob : s.pathGlob ≠ ""

lemma parseLogSource_valid {idx : ℕ} {s : LogSourceConfig} (h : parseLogSource raw idx = .ok s) :
    ValidSource s := by
  unfold parseLogSource at h
  split_ifs at h
  · cases h
  obtain ⟨name, hname, h⟩ := bind_ok h
  obtain ⟨pathGlob, hglob, h⟩ := bind_ok h
  obtain ⟨encoding, -, h⟩ := bind_ok h
  obtain ⟨maxBytes, -, h⟩ := bind_ok h
  obtain rfl := Except.ok.inj h
  exact ⟨require_ok hname, require_ok hglob⟩

/-- What the checks establish of a configuration. -/
structure ValidAgent (a : AgentConfig) : Prop where
  stateDb : a.stateDb ≠ ""
  spoolDir : a.spoolDir ≠ ""
  enabled : a.mongoEnabled = a.mongo.isSome
  database : ∀ m, a.mongo = some m → m.database ≠ ""
  disabled : a.mongo = none → a.collections = []
  collections : ∀ c ∈ a.collections, ValidCollection c
  bucket : a.s3.bucket ≠ ""
  sources : ∀ s ∈ a.logs.sources, ValidSource s

lemma parseMongo_valid {raw : Option Toml} {on : Bool} {mongo : Option MongoConfig}
    {collections : List CollectionConfig} (h : parseMongo raw = .ok (on, mongo, collections)) :
    on = mongo.isSome ∧ (∀ m, mongo = some m → m.database ≠ "") ∧
      (mongo = none → collections = []) ∧ ∀ c ∈ collections, ValidCollection c := by
  rcases raw with _ | raw
  · obtain ⟨rfl, rfl, rfl⟩ := by simpa [parseMongo] using h
    simp
  unfold parseMongo at h
  obtain ⟨enabled, -, h⟩ := bind_ok h
  split_ifs at h
  · obtain ⟨rfl, rfl, rfl⟩ := by simpa [pure, Except.pure] using h
    simp
  obtain ⟨database, hdatabase, h⟩ := bind_ok h
  obtain ⟨uri, -, h⟩ := bind_ok h
  obtain ⟨host, -, h⟩ := bind_ok h
  obtain ⟨port, -, h⟩ := bind_ok h
  obtain ⟨username, -, h⟩ := bind_ok h
  obtain ⟨password, -, h⟩ := bind_ok h
  obtain ⟨authSource, -, h⟩ := bind_ok h
  obtain ⟨tls, -, h⟩ := bind_ok h
  obtain ⟨tlsCaFile, -, h⟩ := bind_ok h
  obtain ⟨timeout, -, h⟩ := bind_ok h
  obtain ⟨colls, hcolls, h⟩ := bind_ok h
  obtain ⟨rfl, rfl, rfl⟩ := by simpa [pure, Except.pure] using h
  refine ⟨rfl, fun m hm => ?_, fun hm => (by cases hm), fun c hc => ?_⟩
  · obtain rfl := Option.some.inj hm
    exact require_ok hdatabase
  · obtain ⟨entry, idx, hentry⟩ := parseArray_mem hcolls c hc
    exact parseCollection_valid hentry

lemma parseLogs_valid {raw : Option Toml} {logs : LogsConfig} (h : parseLogs raw = .ok logs) :
    ∀ s ∈ logs.sources, ValidSource s := by
  rcases raw with _ | raw
  · obtain rfl := Except.ok.inj h
    simp
  obtain ⟨enabled, -, h⟩ := bind_ok h
  obtain ⟨gcDays, -, h⟩ := bind_ok h
  obtain ⟨sources, hsources, h⟩ := bind_ok h
  obtain rfl := Except.ok.inj h
  intro s hs
  obtain ⟨entry, idx, hentry⟩ := parseArray_mem hsources s hs
  exact parseLogSource_valid hentry

lemma parseS3_valid {raw : Option Toml} {s3 : S3Config} (h : parseS3 raw = .ok s3) :
    s3.bucket ≠ "" := by
  rcases raw with _ | raw
  · cases h
  obtain ⟨bucket, hbucket, h⟩ := bind_ok h
  obtain ⟨region, -, h⟩ := bind_ok h
  obtain ⟨pre, -, h⟩ := bind_ok h
  obtain rfl := Except.ok.inj h
  exact require_ok hbucket

variable {defaultLogDir path : String}

/-- **What is accepted is valid.** -/
theorem loadConfig_valid {file : Except LoadFailure Table} {a : AgentConfig}
    (h : loadConfig defaultLogDir path file = .ok a) : ValidAgent a := by
  rcases file with (_ | _ | _) | t
  · cases h
  · cases h
  · cases h
  simp only [loadConfig] at h
  split at h
  · cases h
  obtain ⟨stateDb, hstate, h⟩ := bind_ok h
  obtain ⟨spoolDir, hspool, h⟩ := bind_ok h
  obtain ⟨logDir, -, h⟩ := bind_ok h
  obtain ⟨logLevel, -, h⟩ := bind_ok h
  obtain ⟨hostId, -, h⟩ := bind_ok h
  obtain ⟨⟨on, mongo, collections⟩, hmongo, h⟩ := bind_ok h
  obtain ⟨s3, hs3, h⟩ := bind_ok h
  obtain ⟨logs, hlogs, h⟩ := bind_ok h
  obtain ⟨hostmetrics, -, h⟩ := bind_ok h
  obtain rfl := Except.ok.inj h
  obtain ⟨hon, hdatabase, hnone, hcollections⟩ := parseMongo_valid hmongo
  exact ⟨require_ok hstate, require_ok hspool, hon, hdatabase, hnone, hcollections,
    parseS3_valid hs3, parseLogs_valid hlogs⟩

/-! ### Writing a configuration down -/

/-- The keys that have a value. -/
def present (entries : List (String × Option Toml)) : Table :=
  entries.filterMap fun entry => entry.2.map (entry.1, ·)

def modeName : Mode → String
  | .appendOnly => "append_only"
  | .mutable => "mutable"
  | .fullRefresh => "full_refresh"

def collectionEntries (c : CollectionConfig) : List (String × Option Toml) :=
  [("name", some (.str c.name)), ("mode", some (.str (modeName c.mode))),
    ("watermark_field", c.watermarkField.map .str),
    ("overlap_seconds", some (.int c.overlapSeconds)),
    ("batch_size", some (.int c.batchSize)),
    ("initial_watermark", c.initialWatermark.map .str),
    ("allow_gridfs_chunks", some (.bool c.allowGridfsChunks))]

def sourceEntries (s : LogSourceConfig) : List (String × Option Toml) :=
  [("name", some (.str s.name)), ("path_glob", some (.str s.pathGlob)),
    ("encoding", some (.str s.encoding)), ("max_bytes_per_poll", some (.int s.maxBytesPerPoll))]

def mongoEntries (m : MongoConfig) (collections : List CollectionConfig) :
    List (String × Option Toml) :=
  [("database", some (.str m.database)), ("uri", m.uri.map .str), ("host", some (.str m.host)),
    ("port", some (.int m.port)), ("username", m.username.map .str),
    ("password", m.password.map .str), ("auth_source", some (.str m.authSource)),
    ("tls", some (.bool m.tls)), ("tls_ca_file", m.tlsCaFile.map .str),
    ("server_selection_timeout_ms", some (.int m.serverSelectionTimeoutMs)),
    ("collections",
      some (.array (collections.map fun c => .table (present (collectionEntries c)))))]

def agentEntries (a : AgentConfig) : List (String × Option Toml) :=
  [("state_db", some (.str a.stateDb)), ("spool_dir", some (.str a.spoolDir)),
    ("log_dir", some (.str a.logDir)), ("log_level", some (.str a.logLevel)),
    ("host_id", a.hostId.map .str)]

def s3Entries (s3 : S3Config) : List (String × Option Toml) :=
  [("bucket", some (.str s3.bucket)), ("region", some (.str s3.region)),
    ("prefix", some (.str s3.pre))]

def logsEntries (logs : LogsConfig) : List (String × Option Toml) :=
  [("enabled", some (.bool logs.enabled)), ("gc_days", some (.int logs.gcDays)),
    ("sources", some (.array (logs.sources.map fun s => .table (present (sourceEntries s)))))]

def hostmetricsEntries (h : HostMetricsConfig) : List (String × Option Toml) :=
  [("enabled", some (.bool h.enabled)), ("disks", some (.array (h.disks.map .str)))]

def sections (a : AgentConfig) : List (String × Option Toml) :=
  [("agent", some (.table (present (agentEntries a)))),
    ("mongo", a.mongo.map fun m => .table (present (mongoEntries m a.collections))),
    ("s3", some (.table (present (s3Entries a.s3)))),
    ("logs", some (.table (present (logsEntries a.logs)))),
    ("hostmetrics", some (.table (present (hostmetricsEntries a.hostmetrics))))]

/-- The document of a configuration. -/
def toToml (a : AgentConfig) : Table := present (sections a)

lemma lookup_present {entries : List (String × Option Toml)}
    (h : (entries.map Prod.fst).Nodup) (key : String) :
    (present entries).lookup key = (entries.lookup key).join := by
  induction entries with
  | nil => rfl
  | cons entry entries ih =>
    obtain ⟨k, v⟩ := entry
    rw [List.map_cons, List.nodup_cons] at h
    have hcons : present ((k, v) :: entries) =
        (v.map (k, ·)).toList ++ present entries := by
      cases v <;> rfl
    rw [hcons, List.lookup_append, ih h.2, List.lookup_cons]
    by_cases hk : key = k
    · subst hk
      have hnone : entries.lookup key = none := by
        rw [List.lookup_eq_none_iff]
        intro entry hmem
        rw [bne_iff_ne]
        intro heq
        exact h.1 (List.mem_map.mpr ⟨entry, hmem, heq.symm⟩)
      cases v <;> simp [hnone]
    · have hne : (key == k) = false := beq_false_of_ne hk
      cases v <;> simp [List.lookup_cons, hne]

section Present

variable {entries : List (String × Option Toml)}

lemma require_present (key : String) (hn : (entries.map Prod.fst).Nodup) {s : String}
    (h : entries.lookup key = some (some (.str s))) (hs : s ≠ "") (fieldName : String) :
    require (.table (present entries)) key fieldName = .ok s :=
  require_table ((lookup_present hn key).trans (by rw [h]; rfl)) hs

lemma optional_present (type : FieldType α) (key : String) (hn : (entries.map Prod.fst).Nodup)
    {v : Toml} {a : α} (h : entries.lookup key = some (some v)) (hv : type.cast v = some a)
    (default : α) (fieldName : String) :
    optional type (.table (present entries)) key fieldName default = .ok a :=
  optional_table ((lookup_present hn key).trans (by rw [h]; rfl)) hv

lemma optionalStr_present (key : String) (hn : (entries.map Prod.fst).Nodup)
    {s : Option String} (h : entries.lookup key = some (s.map .str)) (fieldName : String) :
    optionalStr (.table (present entries)) key fieldName = .ok s := by
  have hlookup := lookup_present hn key
  rw [h] at hlookup
  cases s with
  | none => exact optional_none hlookup
  | some s => exact optional_table (v := .str s) hlookup rfl

lemma parseArray_present {parse : Toml → ℕ → Except Exc α} {toToml : α → Toml} {items : List α}
    (key : String) (hn : (entries.map Prod.fst).Nodup)
    (h : ∀ a ∈ items, ∀ idx, parse (toToml a) idx = .ok a)
    (hkey : entries.lookup key = some (some (.array (items.map toToml)))) (fieldName : String) :
    parseArray parse (.table (present entries)) key fieldName = .ok items :=
  parseArray_map h ((lookup_present hn key).trans (by rw [hkey]; rfl))

end Present

lemma parseCollection_present {c : CollectionConfig} (h : ValidCollection c) (idx : ℕ) :
    parseCollection (.table (present (collectionEntries c))) idx = .ok c := by
  have hn : ((collectionEntries c).map Prod.fst).Nodup := by simp [collectionEntries]
  have hmode : validModes.lookup (modeName c.mode) = some c.mode := by
    cases c.mode <;> rfl
  have hfield : c.mode = .mutable → c.watermarkField.getD "" ≠ "" := by
    intro hm heq
    obtain ⟨f, hf⟩ := Option.isSome_iff_exists.mp (c.field_of_mutable hm)
    rw [hf] at heq
    exact h.field hm (by rw [hf]; exact congrArg some heq)
  have hchunks : (isChunks c.name && !c.allowGridfsChunks) = false := by
    cases hc : isChunks c.name with
    | false => rfl
    | true => simp [h.chunks hc]
  unfold parseCollection
  simp only [isTable, Bool.not_true, Bool.false_eq_true, if_false,
    require_present "name" hn rfl h.name,
    require_present "mode" hn rfl (by cases c.mode <;> decide),
    optionalStr_present "watermark_field" hn rfl,
    optional_present intType "overlap_seconds" hn rfl rfl,
    optional_present intType "batch_size" hn rfl rfl,
    optionalStr_present "initial_watermark" hn rfl,
    optional_present boolType "allow_gridfs_chunks" hn rfl rfl, ok_bind, hmode]
  rw [dif_pos hfield, hchunks]
  rfl

lemma parseLogSource_present {s : LogSourceConfig} (h : ValidSource s) (idx : ℕ) :
    parseLogSource (.table (present (sourceEntries s))) idx = .ok s := by
  have hn : ((sourceEntries s).map Prod.fst).Nodup := by simp [sourceEntries]
  unfold parseLogSource
  simp only [isTable, Bool.not_true, Bool.false_eq_true, if_false,
    require_present "name" hn rfl h.name,
    require_present "path_glob" hn rfl h.pathGlob,
    optional_present strType "encoding" hn rfl rfl,
    optional_present intType "max_bytes_per_poll" hn rfl rfl, ok_bind]
  rfl

lemma parseMongo_present {m : MongoConfig} {collections : List CollectionConfig}
    (hm : m.database ≠ "") (h : ∀ c ∈ collections, ValidCollection c) :
    parseMongo (some (.table (present (mongoEntries m collections)))) =
      .ok (true, some m, collections) := by
  have hn : ((mongoEntries m collections).map Prod.fst).Nodup := by simp [mongoEntries]
  have henabled : optional boolType (.table (present (mongoEntries m collections))) "enabled"
      "mongo.enabled" true = .ok true :=
    optional_none (lookup_present hn _)
  unfold parseMongo
  simp only [henabled, Bool.not_true, Bool.false_eq_true, if_false,
    require_present "database" hn rfl hm,
    optionalStr_present "uri" hn rfl,
    optional_present strType "host" hn rfl rfl,
    optional_present intType "port" hn rfl rfl,
    optionalStr_present "username" hn rfl,
    optionalStr_present "password" hn rfl,
    optional_present strType "auth_source" hn rfl rfl,
    optional_present boolType "tls" hn rfl rfl,
    optionalStr_present "tls_ca_file" hn rfl,
    optional_present intType "server_selection_timeout_ms" hn rfl rfl,
    parseArray_present "collections" hn (fun c hc idx => parseCollection_present (h c hc) idx)
      rfl, ok_bind]
  rfl

lemma parseS3_present {s3 : S3Config} (h : s3.bucket ≠ "") :
    parseS3 (some (.table (present (s3Entries s3)))) = .ok s3 := by
  have hn : ((s3Entries s3).map Prod.fst).Nodup := by simp [s3Entries]
  unfold parseS3
  simp only [require_present "bucket" hn rfl h,
    optional_present strType "region" hn rfl rfl,
    optional_present strType "prefix" hn rfl rfl, ok_bind]
  rfl

lemma parseLogs_present {logs : LogsConfig} (h : ∀ s ∈ logs.sources, ValidSource s) :
    parseLogs (some (.table (present (logsEntries logs)))) = .ok logs := by
  have hn : ((logsEntries logs).map Prod.fst).Nodup := by simp [logsEntries]
  unfold parseLogs
  simp only [optional_present boolType "enabled" hn rfl rfl,
    optional_present intType "gc_days" hn rfl rfl,
    parseArray_present "sources" hn (fun s hs idx => parseLogSource_present (h s hs) idx)
      rfl, ok_bind]
  rfl

lemma parseHostmetrics_present (h : HostMetricsConfig) :
    parseHostmetrics (some (.table (present (hostmetricsEntries h)))) = .ok h := by
  have hn : ((hostmetricsEntries h).map Prod.fst).Nodup := by simp [hostmetricsEntries]
  have hdisks : Toml.get "disks" (.table (present (hostmetricsEntries h))) =
      .ok (some (.array (h.disks.map .str))) := by
    rw [Toml.get, lookup_present hn]
    rfl
  have hcast : (h.disks.map Toml.str).mapM strType.cast = some h.disks := by
    induction h.disks with
    | nil => rfl
    | cons d disks ih =>
      rw [List.map_cons, List.mapM_cons, ih]
      rfl
  unfold parseHostmetrics
  simp only [optional_present boolType "enabled" hn rfl rfl, hdisks, ok_bind,
    Option.getD_some, hcast]
  rfl

/-- **What is valid is accepted**, and loads as it was written down. -/
theorem loadConfig_toToml {a : AgentConfig} (h : ValidAgent a) :
    loadConfig defaultLogDir path (.ok (toToml a)) = .ok a := by
  have hn : ((sections a).map Prod.fst).Nodup := by simp [sections]
  have hagent : ((agentEntries a).map Prod.fst).Nodup := by simp [agentEntries]
  have hmongo : parseMongo ((toToml a).lookup "mongo") =
      .ok (a.mongoEnabled, a.mongo, a.collections) := by
    rw [toToml, lookup_present hn]
    show parseMongo (a.mongo.map _) = _
    rcases hm : a.mongo with _ | m
    · rw [h.enabled, hm, h.disabled hm]
      rfl
    · rw [h.enabled, hm]
      exact parseMongo_present (h.database m hm) h.collections
  have hs3 : parseS3 ((toToml a).lookup "s3") = .ok a.s3 := by
    rw [toToml, lookup_present hn]
    exact parseS3_present h.bucket
  have hlogs : parseLogs ((toToml a).lookup "logs") = .ok a.logs := by
    rw [toToml, lookup_present hn]
    exact parseLogs_present h.sources
  have hmetrics : parseHostmetrics ((toToml a).lookup "hostmetrics") = .ok a.hostmetrics := by
    rw [toToml, lookup_present hn]
    exact parseHostmetrics_present _
  have hsection : (toToml a).lookup "agent" = some (.table (present (agentEntries a))) := by
    rw [toToml, lookup_present hn]
    rfl
  simp only [loadConfig, hsection, require_present "state_db" hagent rfl h.stateDb,
    require_present "spool_dir" hagent rfl h.spoolDir,
    optional_present strType "log_dir" hagent rfl rfl,
    optional_present strType "log_level" hagent rfl rfl,
    optionalStr_present "host_id" hagent rfl, hmongo, hs3, hlogs, hmetrics, ok_bind]
  rfl

/-- A configuration that `load_config` returns for some document. -/
def Accepted (a : AgentConfig) : Prop := ∃ dir path file, loadConfig dir path file = .ok a

/-- **The accepted configurations** are the valid ones. -/
theorem accepted_iff {a : AgentConfig} : Accepted a ↔ ValidAgent a :=
  ⟨fun ⟨_, _, _, h⟩ => loadConfig_valid h, fun h => ⟨"", "", _, loadConfig_toToml h⟩⟩

end MongoSyncAgent.LoadConfig
