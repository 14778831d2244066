import MongoSyncAgent.Extract
import MongoSyncAgent.LoadConfig
import MongoSyncAgent.Ship

/-!
One cycle of the agent: all collections, all log sources, and the metrics of the host.

Each unit of a cycle comes with the outside world that its own calls meet.
-/

namespace MongoSyncAgent.Cycle

open MongoSyncAgent.Py MongoSyncAgent.Config MongoSyncAgent.Runtime MongoSyncAgent.Sinks
open MongoSyncAgent.Extract MongoSyncAgent.Ship MongoSyncAgent.Keys MongoSyncAgent.LoadConfig
open MongoSyncAgent.Outcomes

variable (lib : Libs) (u : S3Uploader) (ctx : RunContext)

/-- A step that does nothing here but fail. -/
def raising : Option Exc → M Unit
  | some e => throw e
  | none => pure ()

def failedUnit (unit text : String) : UnitResult := { unit, status := .failed, error := some text }

/-- `try: body` `except Exception as e:` a failed unit. -/
def isolating (unit : String) (body : M UnitResult) : M UnitResult :=
  tryCatch body fun e => if e.isException then return failedUnit unit e.text else throw e

/-! ### The collections -/

/-- What the connection to MongoDB comes to. -/
structure Connection where
  /-- `make_client`, `ping` and `client[database]`: what they raise, or the answer to the ping. -/
  connect : Except Exc Bool
  /-- `db[name]`. -/
  collection : String → Option Exc
  /-- `client.close()`. -/
  close : Option Exc

abbrev Collections := List (CollectionConfig × Env)

def chunksText : String :=
  "GridFS .chunks collection skipped (set allow_gridfs_chunks=true to enable)"

/-- Whether `extract_all` refuses a collection. -/
def refused (cfg : CollectionConfig) : Bool := isChunks cfg.name && !cfg.allowGridfsChunks

/-- The body of the loop of `extract_all`. -/
def extractUnit (conn : Connection) (dbName : String) (cfg : CollectionConfig) (env : Env) :
    M UnitResult :=
  if refused cfg then return failedUnit cfg.name chunksText
  else isolating cfg.name do
    raising (conn.collection cfg.name)
    extractCollection lib env cfg u ctx dbName

def extractUnits (conn : Connection) (dbName : String) : Collections → M (List UnitResult)
  | [] => return []
  | (cfg, env) :: rest => do
    let result ← extractUnit lib u ctx conn dbName cfg env
    return result :: (← extractUnits conn dbName rest)

/-- `try: body` `finally: client.close()`. -/
def closingClient (conn : Connection) (body : M (List UnitResult)) : M (List UnitResult) := do
  let results ← tryCatch body fun e => do raising conn.close; throw e
  raising conn.close
  return results

/-- `extract_all`. -/
def extractAll (conn : Connection) (dbName : String) (collections : Collections) :
    M (List UnitResult) :=
  match conn.connect with
  | .error e =>
    if e.isException then
      return collections.map fun c => failedUnit c.1.name ("MongoDB connect error: " ++ e.text)
    else throw e
  | .ok false => return collections.map fun c => failedUnit c.1.name "MongoDB ping failed"
  | .ok true => closingClient conn (extractUnits lib u ctx conn dbName collections)

/-! ### The log sources -/

abbrev LogSources := List (LogSourceConfig × Env)

def shipUnits (gcDays : ℤ) : LogSources → M (List UnitResult)
  | [] => return []
  | (source, env) :: rest => do
    let result ← isolating source.name (shipSource lib env source u ctx gcDays)
    return result :: (← shipUnits gcDays rest)

/-- `ship_all`. -/
def shipAll (enabled : Bool) (gcDays : ℤ) (sources : LogSources) : M (List UnitResult) :=
  if enabled then shipUnits lib u ctx gcDays sources else return []

/-! ### The metrics of the host -/

/-- The `try` around the upload of the metrics, with any exception as a value. -/
def tryAnyUpload (env : Env) (path : Path) (key : String) : M (Except Exc UploadResult) :=
  tryCatch (do return .ok (← upload lib env u path key)) fun e =>
    if e.isException then return .error e else throw e

/-- What follows `collect` in `run_cycle`. -/
def shipMetrics (env : Env) (records : List MetricRecord) : M UnitResult :=
  if records = [] then return { unit := "hostmetrics", status := .empty }
  else do
    let path := spoolPath ctx.spoolDir "hostmetrics" "jsonl.gz"
    let sink ← GzipNdjsonSink.open env path
    let sink ← cleaningUp (sink.writeMetrics env records) (abort env path)
    let _ ← sink.close lib env
    if ctx.dryRun then
      unlink env path
      return { unit := "hostmetrics", status := .ok, docs := records.length }
    else
      match ← tryAnyUpload lib u env path (hostmetricsKey u.pre ctx.runDt) with
      | .error e =>
        abort env path
        return failedUnit "hostmetrics" e.text
      | .ok uploadResult =>
        unlink env path
        return { unit := "hostmetrics", status := .ok, docs := records.length,
                 bytesUploaded := uploadResult.bytesUploaded }

/-! ### The cycle -/

/-- What a cycle meets. -/
structure Outside where
  /-- Opening the state store, and the work on the spool directory. -/
  setup : Option Exc
  conn : Connection
  /-- What the collection meets that is configured at a position. -/
  collection : ℕ → Env
  source : ℕ → Env
  host : Env
  /-- What `collect` gives. -/
  metrics : List MetricRecord
  /-- `record_run`, and closing the state store. -/
  record : Option Exc

/-- What a cycle returns, and the units that its summary lists, if it comes to one. -/
structure Report where
  exitCode : ℕ
  units : Option (List UnitResult)

/-- `RunSummary.exit_code`. -/
def exitCode (units : List UnitResult) : ℕ := if units.any (·.status = .failed) then 1 else 0

/-- `only is None or module in only`. -/
def selected (only : Option (List String)) (module : String) : Bool :=
  match only with
  | none => true
  | some modules => modules.contains module

/-- The collections of a cycle; an empty name does not filter. -/
def chosen (collection : Option String) (collections : Collections) : Collections :=
  match collection with
  | none => collections
  | some name => if name = "" then collections else collections.filter (·.1.name = name)

variable (a : AgentConfig) (out : Outside) (only : Option (List String))
  (collection : Option String)

def mongoUnits : M (List UnitResult) :=
  if selected only "mongo" ∧ a.mongoEnabled then
    match a.mongo with
    | some mongo => extractAll lib u ctx out.conn mongo.database
        (chosen collection (a.collections.zipIdx.map fun c => (c.1, out.collection c.2)))
    | none => return []
  else return []

def logUnits : M (List UnitResult) :=
  if selected only "logs" ∧ a.logs.enabled then
    shipAll lib u ctx a.logs.enabled a.logs.gcDays
      (a.logs.sources.zipIdx.map fun s => (s.1, out.source s.2))
  else return []

def hostUnits : M (List UnitResult) :=
  if selected only "hostmetrics" ∧ a.hostmetrics.enabled then do
    return [← shipMetrics lib u ctx out.host out.metrics]
  else return []

/-- `run_cycle`, with the lock held. -/
def runCycle : M Report :=
  let u := S3Uploader.make a.s3.bucket a.s3.pre
  tryCatch
    (do
      raising out.setup
      let mongo ← mongoUnits lib u ctx a out only collection
      let logs ← logUnits lib u ctx a out only
      let host ← hostUnits lib u ctx a out only
      let units := mongo ++ logs ++ host
      raising out.record
      return ⟨exitCode units, some units⟩)
    fun e => if e.isException then return ⟨2, none⟩ else throw e

/-- The database of a cycle, if it has one. -/
def databaseOf : String := (a.mongo.map (·.database)).getD ""

/-- The collections that a cycle extracts. -/
def collectionsOf : Collections :=
  if (selected only "mongo" ∧ a.mongoEnabled) ∧ a.mongo.isSome then
    chosen collection (a.collections.zipIdx.map fun c => (c.1, out.collection c.2))
  else []

/-- The log sources that a cycle ships. -/
def sourcesOf : LogSources :=
  if selected only "logs" ∧ a.logs.enabled then
    a.logs.sources.zipIdx.map fun s => (s.1, out.source s.2)
  else []

lemma ensures_raising {x : Option Exc} {w : World} {Q : Except Exc Unit → World → Prop}
    (herr : ∀ e, Q (.error e) w) (hok : Q (.ok ()) w) : Ensures (raising x) w Q := by
  rcases x with _ | e
  · exact hok
  · exact herr e

/-! ### What its units do, a cycle does -/

section Within

variable {lib u ctx a out only collection} {R : World → World → Prop} [Std.Refl R]

lemma within_raising (x : Option Exc) : Within R (raising x) := by
  rcases x with _ | e
  · exact within_pure ()
  · exact within_throw e

variable [IsTrans World R] {conn : Connection} {dbName : String}

lemma within_isolating {unit : String} {body : M UnitResult} (h : Within R body) :
    Within R (isolating unit body) :=
  .tryCatch h fun e => .ite (within_pure _) (within_throw e)

lemma within_extractUnit {cfg : CollectionConfig} {env : Env}
    (h : Within R (extractCollection lib env cfg u ctx dbName)) :
    Within R (extractUnit lib u ctx conn dbName cfg env) :=
  .ite (within_pure _) (within_isolating (.bind (within_raising _) fun _ => h))

lemma within_extractUnits {collections : Collections}
    (h : ∀ c ∈ collections, Within R (extractCollection lib c.2 c.1 u ctx dbName)) :
    Within R (extractUnits lib u ctx conn dbName collections) := by
  induction collections with
  | nil => exact within_pure []
  | cons c collections ih =>
    refine .bind (within_extractUnit (h c List.mem_cons_self)) fun _ => .bind ?_ fun _ =>
      within_pure _
    exact ih fun c hc => h c (List.mem_cons_of_mem _ hc)

lemma within_extractAll {collections : Collections}
    (h : ∀ c ∈ collections, Within R (extractCollection lib c.2 c.1 u ctx dbName)) :
    Within R (extractAll lib u ctx conn dbName collections) := by
  unfold extractAll
  split
  · exact .ite (within_pure _) (within_throw _)
  · exact within_pure _
  · exact .bind (.tryCatch (within_extractUnits h) fun e =>
      .bind (within_raising _) fun _ => within_throw e) fun _ =>
        .bind (within_raising _) fun _ => within_pure _

lemma within_shipUnits {gcDays : ℤ} {sources : LogSources}
    (h : ∀ s ∈ sources, Within R (shipSource lib s.2 s.1 u ctx gcDays)) :
    Within R (shipUnits lib u ctx gcDays sources) := by
  induction sources with
  | nil => exact within_pure []
  | cons s sources ih =>
    refine .bind (within_isolating (h s List.mem_cons_self)) fun _ => .bind ?_ fun _ =>
      within_pure _
    exact ih fun s hs => h s (List.mem_cons_of_mem _ hs)

lemma mem_chosen {collections : Collections} {c : CollectionConfig × Env}
    (h : c ∈ chosen collection collections) : c ∈ collections := by
  unfold chosen at h
  split at h
  · exact h
  · split_ifs at h
    · exact h
    · exact List.mem_of_mem_filter h

lemma within_mongoUnits
    (h : ∀ cfg i db, Within R (extractCollection lib (out.collection i) cfg u ctx db)) :
    Within R (mongoUnits lib u ctx a out only collection) := by
  refine .ite ?_ (within_pure _)
  split
  · refine within_extractAll fun c hc => ?_
    obtain ⟨d, -, rfl⟩ := List.mem_map.mp (mem_chosen hc)
    exact h _ _ _
  · exact within_pure _

/-- **What its units do, a cycle does.** -/
theorem within_runCycle
    (hcollection : ∀ u cfg i db, Within R (extractCollection lib (out.collection i) cfg u ctx db))
    (hsource : ∀ u source i gcDays, Within R (shipSource lib (out.source i) source u ctx gcDays))
    (hhost : ∀ u, Within R (shipMetrics lib u ctx out.host out.metrics)) :
    Within R (runCycle lib ctx a out only collection) := by
  refine .tryCatch (.bind (within_raising _) fun _ => .bind (within_mongoUnits (hcollection _))
    fun _ => .bind ?_ fun _ => .bind ?_ fun _ => .bind (within_raising _) fun _ => within_pure _)
    fun e => .ite (within_pure _) (within_throw e)
  · refine .ite (.ite (within_shipUnits fun s hs => ?_) (within_pure _)) (within_pure _)
    obtain ⟨d, -, rfl⟩ := List.mem_map.mp hs
    exact hsource _ _ _ _
  · exact .ite (.bind (hhost _) fun _ => within_pure _) (within_pure _)

end Within

/-! ### What a dry run writes -/

variable {lib u ctx a out only collection}

lemma quiet_extractCollection (hdry : ctx.dryRun = true) {env : Env} {cfg : CollectionConfig}
    {dbName : String} : Quiet (extractCollection lib env cfg u ctx dbName) := by
  refine fun w => extractCollection_ensures.mono fun r w' h => ?_
  rcases h with ⟨-, hw⟩ | ⟨filter, j, -, hw, hex⟩
  · exact hw
  cases hex with
  | nothing => exact hw
  | empty => exact hw
  | uploaded h => exact absurd (h.symm.trans hdry) Bool.false_ne_true
  | committed h => exact absurd (h.symm.trans hdry) Bool.false_ne_true

lemma quiet_shipSource (hdry : ctx.dryRun = true) {env : Env} {source : LogSourceConfig}
    {gcDays : ℤ} : Quiet (shipSource lib env source u ctx gcDays) := by
  refine fun w => shipSource_ensures.mono fun r w' h => ?_
  rcases h with hw | ⟨parts, j, -, hw, hship⟩
  · exact hw
  cases hship with
  | nothing => exact hw
  | uploaded _ h => exact absurd (h.symm.trans hdry) Bool.false_ne_true
  | committed _ h => exact absurd (h.symm.trans hdry) Bool.false_ne_true

lemma quiet_shipMetrics (hdry : ctx.dryRun = true) {env : Env} {records : List MetricRecord} :
    Quiet (shipMetrics lib u ctx env records) := by
  refine Within.ite (within_pure _) (.bind ?_ fun sink => .bind ?_ fun sink => .bind ?_ fun _ => ?_)
  · exact .bind (quiet_call _ _) fun _ => .bind (quiet_writeFile _ _) fun _ => within_pure _
  · refine within_cleaningUp (.bind (quiet_call _ _) fun _ => .bind within_get fun _ => ?_)
      (quiet_abort _)
    exact .bind (quiet_writeFile _ _) fun _ => within_pure _
  · exact .bind (quiet_call _ _) fun _ => .bind within_get fun _ => within_pure _
  · rw [if_pos hdry]
    exact .bind (quiet_unlink _) fun _ => within_pure _

/-- **A dry run writes nothing** to the bucket or to the state store. -/
theorem quiet_runCycle (hdry : ctx.dryRun = true) :
    Quiet (runCycle lib ctx a out only collection) :=
  within_runCycle (fun _ _ _ _ => quiet_extractCollection hdry)
    (fun _ _ _ _ => quiet_shipSource hdry) fun _ => quiet_shipMetrics hdry

end MongoSyncAgent.Cycle
