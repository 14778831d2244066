import MongoSyncAgent.Runtime

/-!
The write end of a unit: the sinks, and the upload of a spool file to S3.
-/

namespace MongoSyncAgent.Sinks

open MongoSyncAgent.Py MongoSyncAgent.Runtime MongoSyncAgent.Outcomes MongoSyncAgent.Keys

variable (lib : Libs) (env : Env)

/-! ### The uploader -/

structure S3Uploader where
  bucket : String
  pre : String

/-- `S3Uploader.__init__`. -/
def S3Uploader.make (bucket pre : String) : S3Uploader := ⟨bucket, normalisePrefix pre⟩

def sampleUploader : S3Uploader := ⟨"bucket", ""⟩

structure UploadResult where
  key : String
  bytesUploaded : ℕ
  etag : String

def uploadErrorText (u : S3Uploader) (path : Path) (key : String) (e : Exc) : String :=
  "Failed to upload " ++ path ++ " to s3://" ++ u.bucket ++ "/" ++ key ++ ": " ++ e.text

/-- What the `except` of `upload` takes. -/
def isClientFailure (e : Exc) : Bool := e.cls = .clientError || e.cls = .botoCoreError

/-- The PUT: S3 may have taken the object although the call raises. -/
def putObject (path : Path) (key : String) : M Content := do
  call env (.uploadFile key)
  match (← get).spool path with
  | none => throw ⟨.osError, path⟩
  | some content =>
    emit (.put ⟨key, content⟩)
    call env (.uploaded key)
    return content

def upload (u : S3Uploader) (path : Path) (key : String) : M UploadResult := do
  call env (.statSpool path)
  let content ← tryCatch
    (do
      let content ← putObject env path key
      call env (.headObject key)
      return content)
    fun e =>
      if isClientFailure e then throw ⟨.uploadError, uploadErrorText u path key e⟩ else throw e
  return ⟨key, lib.fileSize content, lib.etag content⟩

/-- The `try` around the upload, with the `UploadError` as a value. -/
def tryUpload (u : S3Uploader) (path : Path) (key : String) : M (Except Exc UploadResult) :=
  tryCatch (do return .ok (← upload lib env u path key)) fun e =>
    if e.cls = .uploadError then return .error e else throw e

/-! ### The sinks -/

structure SinkResult where
  rows : ℕ
  bytesWritten : ℕ

structure ParquetVariantSink where
  path : Path
  rows : ℕ
  /-- Whether the writer has been made. -/
  opened : Bool

/-- `ParquetVariantSink.__init__`. -/
def ParquetVariantSink.make (path : Path) : ParquetVariantSink := ⟨path, 0, false⟩

/-- The row groups that a spool file holds. -/
def rowGroups : Option Content → List (List Row)
  | some (.parquet groups) => groups
  | _ => []

/-- The writer is made for the first batch that has rows. -/
def ParquetVariantSink.ensureWriter (sink : ParquetVariantSink) : M ParquetVariantSink :=
  if sink.opened then return sink
  else do
    call env (.openSpool sink.path)
    writeFile sink.path (some (.parquet []))
    return { sink with opened := true }

def ParquetVariantSink.writeRows (sink : ParquetVariantSink) (rows : List Row) :
    M ParquetVariantSink :=
  if rows = [] then return sink
  else do
    let sink ← sink.ensureWriter env
    call env (.writeSpool sink.path sink.rows)
    writeFile sink.path (some (.parquet (rowGroups ((← get).spool sink.path) ++ [rows])))
    return { sink with rows := sink.rows + rows.length }

def ParquetVariantSink.close (sink : ParquetVariantSink) : M SinkResult := do
  call env (.closeSpool sink.path)
  let w ← get
  return ⟨sink.rows, ((w.spool sink.path).map lib.fileSize).getD 0⟩

structure GzipNdjsonSink where
  path : Path
  rows : ℕ

/-- `GzipNdjsonSink.__init__`: opening the file empties it. -/
def GzipNdjsonSink.open (path : Path) : M GzipNdjsonSink := do
  call env (.openSpool path)
  writeFile path (some (.ndjson []))
  return ⟨path, 0⟩

/-- The records that a spool file holds. -/
def spooled : Option Content → List LogRecord
  | some (.ndjson records) => records
  | _ => []

def GzipNdjsonSink.writeRows (sink : GzipNdjsonSink) (rows : List LogRecord) :
    M GzipNdjsonSink := do
  call env (.writeSpool sink.path sink.rows)
  writeFile sink.path (some (.ndjson (spooled ((← get).spool sink.path) ++ rows)))
  return { sink with rows := sink.rows + rows.length }

/-- The metric records that a spool file holds. -/
def spooledMetrics : Option Content → List MetricRecord
  | some (.metrics records) => records
  | _ => []

/-- The same, for metric records. -/
def GzipNdjsonSink.writeMetrics (sink : GzipNdjsonSink) (rows : List MetricRecord) :
    M GzipNdjsonSink := do
  call env (.writeSpool sink.path sink.rows)
  writeFile sink.path (some (.metrics (spooledMetrics ((← get).spool sink.path) ++ rows)))
  return { sink with rows := sink.rows + rows.length }

/-- What `write_rows` and `write_metrics` share: how many records they add, and what the file
becomes. -/
def GzipNdjsonSink.add (sink : GzipNdjsonSink) (n : ℕ) (onto : Option Content → Content) :
    M GzipNdjsonSink := do
  call env (.writeSpool sink.path sink.rows)
  writeFile sink.path (some (onto ((← get).spool sink.path)))
  return { sink with rows := sink.rows + n }

lemma writeRows_eq {sink : GzipNdjsonSink} {rows : List LogRecord} :
    sink.writeRows env rows =
      sink.add env rows.length fun old => .ndjson (spooled old ++ rows) := rfl

lemma writeMetrics_eq {sink : GzipNdjsonSink} {rows : List MetricRecord} :
    sink.writeMetrics env rows =
      sink.add env rows.length fun old => .metrics (spooledMetrics old ++ rows) := rfl

def GzipNdjsonSink.close (sink : GzipNdjsonSink) : M SinkResult := do
  call env (.closeSpool sink.path)
  let w ← get
  return ⟨sink.rows, ((w.spool sink.path).map lib.fileSize).getD 0⟩

/-- `abort`, of either sink: best effort, never raises. -/
def abort (path : Path) : M Unit := do
  ignoringErrors (call env (.closeAborted path))
  ignoringErrors (do call env (.unlinkAborted path); writeFile path none)

/-- `path.unlink(missing_ok=True)`. -/
def unlink (path : Path) : M Unit := do
  call env (.unlinkSpool path)
  writeFile path none

/-! ### What they ensure -/

variable {lib env} {w : World}

lemma quiet_abort (path : Path) : Quiet (abort env path) :=
  .bind (quiet_call _ _).ignoringErrors fun _ =>
    .ignoringErrors (.bind (quiet_call _ _) fun _ => quiet_writeFile _ _)

lemma quiet_unlink (path : Path) : Quiet (unlink env path) :=
  .bind (quiet_call _ _) fun _ => quiet_writeFile _ _

/-- S3 has the object of a PUT that went through, and may have that of one that raised. -/
lemma putObject_ensures {path : Path} {key : String} {content : Content}
    (hspool : w.spool path = some content) :
    Ensures (putObject env path key) w fun r w' =>
      (∃ e, r = .error e) ∧ Wrote w w' [] ∨
        (∀ c, r = .ok c → c = content) ∧ Wrote w w' [.put ⟨key, content⟩] := by
  unfold putObject
  rw [ensures_bind]
  refine ensures_call (fun e => .inl ⟨⟨e, rfl⟩, .nil⟩) fun _ => ?_
  rw [ensures_bind, ensures_get]
  simp only [hspool]
  rw [ensures_bind]
  refine ensures_emit ?_
  rw [ensures_bind]
  refine ensures_call (fun e => .inr ⟨fun c hc => ?_, rfl, rfl⟩) fun _ => ?_
  · cases hc
  · exact .inr ⟨fun c hc => (Except.ok.inj hc).symm, rfl, rfl⟩

/-- **An upload** writes nothing, or puts the spool file under the key; it puts it if it
returns. -/
theorem upload_ensures {u : S3Uploader} {path : Path} {key : String} {content : Content}
    (hspool : w.spool path = some content) :
    Ensures (upload lib env u path key) w fun r w' =>
      (∃ e, r = .error e) ∧ Wrote w w' [] ∨
        (∀ res, r = .ok res → res = ⟨key, lib.fileSize content, lib.etag content⟩) ∧
          Wrote w w' [.put ⟨key, content⟩] := by
  unfold upload
  rw [ensures_bind]
  refine ensures_call (fun e => .inl ⟨⟨e, rfl⟩, .nil⟩) fun _ => ?_
  rw [ensures_bind, ensures_tryCatch, ensures_bind]
  refine (putObject_ensures hspool).mono fun r w₁ h₁ => ?_
  rcases h₁ with ⟨⟨e, rfl⟩, hw⟩ | ⟨hc, hw⟩
  · simp only
    split_ifs
    · exact .inl ⟨⟨_, rfl⟩, hw⟩
    · exact .inl ⟨⟨_, rfl⟩, hw⟩
  · rcases r with e | c
    · simp only
      split_ifs
      · exact .inr ⟨fun c hc => (by cases hc), hw⟩
      · exact .inr ⟨fun c hc => (by cases hc), hw⟩
    · obtain rfl := hc c rfl
      simp only [ensures_bind]
      refine ensures_call (fun e => ?_) fun _ => ?_
      · simp only
        split_ifs
        · exact .inr ⟨fun c hc => (by cases hc), hw⟩
        · exact .inr ⟨fun c hc => (by cases hc), hw⟩
      · exact .inr ⟨fun res hres => (Except.ok.inj hres).symm, hw⟩

/-- An upload of which a unit catches some exceptions. -/
lemma caughtUpload_ensures {caught : Exc → Prop} [DecidablePred caught] {u : S3Uploader}
    {path : Path} {key : String} {content : Content} (hspool : w.spool path = some content) :
    Ensures (tryCatch (do return .ok (← upload lib env u path key)) fun e =>
        if caught e then return .error e else throw e : M (Except Exc UploadResult)) w fun r w' =>
      (∀ res, r ≠ .ok (.ok res)) ∧ Wrote w w' [] ∨ Wrote w w' [.put ⟨key, content⟩] := by
  rw [ensures_tryCatch, ensures_bind]
  refine (upload_ensures hspool).mono fun r w₁ h₁ => ?_
  rcases h₁ with ⟨⟨e, rfl⟩, hw⟩ | ⟨-, hw⟩
  · simp only
    split_ifs
    · exact .inl ⟨fun res h => (by cases h), hw⟩
    · exact .inl ⟨fun res h => (by cases h), hw⟩
  · rcases r with e | res
    · simp only
      split_ifs <;> exact .inr hw
    · exact .inr hw

lemma tryUpload_ensures {u : S3Uploader} {path : Path} {key : String} {content : Content}
    (hspool : w.spool path = some content) :
    Ensures (tryUpload lib env u path key) w fun r w' =>
      (∀ res, r ≠ .ok (.ok res)) ∧ Wrote w w' [] ∨ Wrote w w' [.put ⟨key, content⟩] :=
  caughtUpload_ensures hspool

/-- **A spool file is made, filled and closed**, which leaves nothing that lasts, and then used. -/
lemma ensures_filled {α : Type} {path : Path} {n : ℕ} {onto : Option Content → Content}
    {rest : SinkResult → M α} {Q : Except Exc α → World → Prop}
    (herr : ∀ e w', Wrote w w' [] → Q (.error e) w')
    (hrest : ∀ result w', Wrote w w' [] → w'.spool path = some (onto (some (.ndjson []))) →
      Ensures (rest result) w' Q) :
    Ensures (do
      let sink ← GzipNdjsonSink.open env path
      let sink ← cleaningUp (sink.add env n onto) (abort env path)
      let result ← sink.close lib env
      rest result) w Q := by
  unfold GzipNdjsonSink.open
  rw [ensures_bind, ensures_bind]
  refine ensures_call (fun e => herr e _ .nil) fun _ => ?_
  rw [ensures_bind]
  refine ensures_writeFile fun w₁ h₁ hs₁ => ?_
  simp only [ensures_pure]
  rw [ensures_bind]
  refine ensures_cleaningUp (quiet_abort path) ?_
  unfold GzipNdjsonSink.add
  rw [ensures_bind]
  refine ensures_call (fun e e' w₂ h₂ => herr e' w₂ (h₁.trans h₂)) fun _ => ?_
  rw [ensures_bind, ensures_get]
  simp only [ensures_bind, hs₁]
  refine ensures_writeFile fun w₂ h₂ hs₂ => ?_
  have hw₂ : Wrote w w₂ [] := h₁.trans h₂
  simp only [ensures_pure]
  unfold GzipNdjsonSink.close
  rw [ensures_bind]
  refine ensures_call (fun e => herr e _ hw₂) fun _ => ?_
  simp only [ensures_bind, ensures_get, ensures_pure]
  exact hrest _ w₂ hw₂ hs₂

/-- The rows that a Parquet sink has written, and where they are. -/
def ParquetVariantSink.Holds (sink : ParquetVariantSink) (w : World) (rows : List Row) : Prop :=
  sink.rows = rows.length ∧
    (sink.opened = false ∧ rows = [] ∨ sink.opened = true ∧
      ∃ groups, w.spool sink.path = some (.parquet groups) ∧ groups.flatten = rows)

lemma ParquetVariantSink.ensureWriter_ensures {sink : ParquetVariantSink} {rows : List Row}
    (h : sink.Holds w rows) : Ensures (sink.ensureWriter env) w fun r w' =>
      Wrote w w' [] ∧ ∀ sink', r = .ok sink' →
        sink'.path = sink.path ∧ sink'.opened = true ∧ sink'.Holds w' rows := by
  unfold ParquetVariantSink.ensureWriter
  by_cases ho : sink.opened
  · rw [if_pos ho]
    refine ⟨.nil, fun sink' hs => ?_⟩
    obtain rfl := Except.ok.inj hs
    exact ⟨rfl, ho, h⟩
  · rw [if_neg ho, ensures_bind]
    refine ensures_call (fun e => ⟨.nil, fun _ hs => by cases hs⟩) fun _ => ?_
    rw [ensures_bind]
    refine ensures_writeFile fun w₁ h₁ hspool => ?_
    refine ⟨h₁, fun sink' hs => ?_⟩
    obtain rfl := Except.ok.inj hs
    have hnil : rows = [] := by
      rcases h.2 with ⟨-, hnil⟩ | ⟨ho', -⟩
      · exact hnil
      · exact absurd ho' ho
    exact ⟨rfl, rfl, h.1, .inr ⟨rfl, [], hspool, by rw [hnil]; rfl⟩⟩

lemma ParquetVariantSink.writeRows_ensures {sink : ParquetVariantSink} {rows more : List Row}
    (h : sink.Holds w rows) : Ensures (sink.writeRows env more) w fun r w' =>
      Wrote w w' [] ∧ ∀ sink', r = .ok sink' →
        sink'.path = sink.path ∧ sink'.Holds w' (rows ++ more) := by
  unfold ParquetVariantSink.writeRows
  by_cases hm : more = []
  · rw [if_pos hm]
    refine ⟨.nil, fun sink' hs => ?_⟩
    obtain rfl := Except.ok.inj hs
    exact ⟨rfl, by rwa [hm, List.append_nil]⟩
  rw [if_neg hm]
  refine Ensures.bind (ParquetVariantSink.ensureWriter_ensures h)
    (fun e w₁ h₁ => ⟨h₁.1, fun _ hs => by cases hs⟩) fun sink₁ w₁ h₁ => ?_
  obtain ⟨hpath, hopen, hrows, hor⟩ := h₁.2 _ rfl
  rw [ensures_bind]
  refine ensures_call (fun e => ⟨h₁.1, fun _ hs => by cases hs⟩) fun _ => ?_
  rw [ensures_bind, ensures_get]
  simp only [ensures_bind]
  refine ensures_writeFile fun w₂ h₂ hspool => ?_
  have hw : Wrote w w₂ [] := by simpa using h₁.1.trans h₂
  refine ⟨hw, fun sink' hs => ?_⟩
  obtain rfl := Except.ok.inj hs
  obtain ⟨groups, hg, hflat⟩ := (hor.resolve_left fun h => by simp [hopen] at h).2
  rw [hg] at hspool
  exact ⟨hpath, by simp [hrows], .inr ⟨hopen, groups ++ [more], hspool, by simp [hflat]⟩⟩

end MongoSyncAgent.Sinks
