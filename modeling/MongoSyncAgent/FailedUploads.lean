import MongoSyncAgent.Endings
import MongoSyncAgent.AppendOnly

/-!
Uploads that the S3 client fails, and what a unit makes of them.

The uploader turns the failures of botocore into its own error, the units turn that error into a
failed result, and both clean up. Whatever else the client raises passes through: the transfer of a
file has an error class of its own, which is not botocore's, and the network has `OSError`.
-/

namespace MongoSyncAgent.FailedUploads

open MongoSyncAgent.Py MongoSyncAgent.Bson MongoSyncAgent.Config MongoSyncAgent.State
open MongoSyncAgent.Runtime MongoSyncAgent.Sinks MongoSyncAgent.Watermarks MongoSyncAgent.Sources
open MongoSyncAgent.Outcomes MongoSyncAgent.Keys MongoSyncAgent.SpoolFiles MongoSyncAgent.Endings

/-- What the S3 client can raise. -/
def s3Classes : List ExcClass := [.clientError, .botoCoreError, .s3UploadFailedError, .osError]

/-- The first failure of the client under a key: of the upload, before or after S3 has the object,
or of the question about it. -/
def s3Fault (env : Env) (key : String) : Option Exc :=
  (env.fault (.uploadFile key)).or ((env.fault (.uploaded key)).or (env.fault (.headObject key)))

/-- The client fails, and nothing else does. -/
structure S3Fails (env : Env) (key : String) (e : Exc) : Prop where
  raises : s3Fault env key = some e
  others : ∀ c, c ≠ .uploadFile key → c ≠ .uploaded key → c ≠ .headObject key → env.fault c = none

/-- The upload of a spool file raises the uploader's own error. -/
def RaisesUploadError (lib : Libs) (env : Env) (u : S3Uploader) (path : Path) (key : String)
    (w : World) : Prop :=
  Ensures (upload lib env u path key) w fun r _ => ∃ e, r = .error e ∧ e.cls = .uploadError

/-- The unit is reported as failed, its store is as it was, and its spool file is gone. -/
def Handled (m : M UnitResult) (path : Path) (w : World) : Prop :=
  Ensures m w fun r w' =>
    (∃ res, r = .ok res ∧ res.status = .failed) ∧ w'.store = w.store ∧ w'.spool path = none

variable {lib : Libs} {env : Env} {u : S3Uploader} {ctx : RunContext} {key : String} {e : Exc}
  {path : Path} {w : World}

/-! ### The upload -/

lemma S3Fails.localFiles (h : S3Fails env key e) : LocalFiles env where
  openSpool _ := h.others _ (by simp) (by simp) (by simp)
  writeSpool _ _ := h.others _ (by simp) (by simp) (by simp)
  closeSpool _ := h.others _ (by simp) (by simp) (by simp)
  unlinkSpool _ := h.others _ (by simp) (by simp) (by simp)
  closeAborted _ := h.others _ (by simp) (by simp) (by simp)
  unlinkAborted _ := h.others _ (by simp) (by simp) (by simp)

/-- What the upload raises in the place of a failure. -/
def raisedFor (u : S3Uploader) (path : Path) (key : String) (e : Exc) : Exc :=
  if isClientFailure e then ⟨.uploadError, uploadErrorText u path key e⟩ else e

/-- The client raises the failure in one of its two calls, with or without the object in S3. -/
lemma client_raises (h : s3Fault env key = some e) {content : Content}
    (hspool : w.spool path = some content) :
    Ensures (do let content ← putObject env path key; call env (.headObject key); return content) w
      fun r w' => r = .error e ∧ w'.store = w.store ∧ w'.spool = w.spool := by
  unfold putObject
  rw [ensures_bind, ensures_bind]
  unfold s3Fault at h
  unfold call
  rcases hput : env.fault (.uploadFile key) with _ | e₁
  · rw [hput, Option.none_or] at h
    simp only [ensures_pure, ensures_bind, ensures_get, hspool]
    refine ensures_emit ?_
    have hstore := (keeps_put ⟨key, content⟩ w)
    rcases hdone : env.fault (.uploaded key) with _ | e₂
    · rw [hdone, Option.none_or] at h
      simp only [ensures_pure, h]
      exact ⟨rfl, hstore, rfl⟩
    · rw [hdone] at h
      obtain rfl := Option.some.inj h
      exact ⟨rfl, hstore, rfl⟩
  · rw [hput] at h
    obtain rfl := Option.some.inj h
    exact ⟨rfl, rfl, rfl⟩

/-- The upload passes the failure on, translated if it is one of botocore's. -/
lemma upload_raises (h : S3Fails env key e) {content : Content}
    (hspool : w.spool path = some content) : Ensures (upload lib env u path key) w fun r w' =>
      r = .error (raisedFor u path key e) ∧ w'.store = w.store ∧ w'.spool = w.spool := by
  unfold upload raisedFor
  rw [ensures_bind]
  refine ensures_call_calm (h.others _ (by simp) (by simp) (by simp)) ?_
  simp only
  rw [ensures_bind, ensures_tryCatch]
  refine (client_raises h.raises hspool).mono fun r w₁ ⟨hr, hstore, hsame⟩ => ?_
  subst hr
  simp only
  split_ifs
  · exact ⟨rfl, hstore, hsame⟩
  · exact ⟨rfl, hstore, hsame⟩

/-- The units take the uploader's own error and no other. -/
lemma tryUpload_raises (h : S3Fails env key e) (he : e.cls ∈ s3Classes) {content : Content}
    (hspool : w.spool path = some content) : Ensures (tryUpload lib env u path key) w fun r w' =>
      r = (if isClientFailure e then .ok (.error (raisedFor u path key e)) else .error e) ∧
        w'.store = w.store ∧ w'.spool = w.spool := by
  have hown : e.cls ≠ .uploadError := by
    intro hcls
    rw [hcls] at he
    simp [s3Classes] at he
  unfold tryUpload
  rw [ensures_tryCatch, ensures_bind]
  refine (upload_raises h hspool).mono fun r w₁ ⟨hr, hkept⟩ => ?_
  subst hr
  by_cases hclient : isClientFailure e
  · have hraised : raisedFor u path key e = ⟨.uploadError, uploadErrorText u path key e⟩ :=
      if_pos hclient
    simp only [hraised, if_true]
    rw [if_pos hclient]
    exact ⟨rfl, hkept⟩
  · have hraised : raisedFor u path key e = e := if_neg hclient
    simp only [hraised, if_neg hown]
    rw [if_neg hclient]
    exact ⟨rfl, hkept⟩

/-! ### The units -/

/-- How a unit ends whose upload fails. -/
def Settled (e : Exc) (path : Path) (w : World) (r : Except Exc UnitResult) (w' : World) : Prop :=
  (isClientFailure e → (∃ res, r = .ok res ∧ res.status = .failed) ∧ w'.store = w.store ∧
      w'.spool path = none) ∧
    (¬ isClientFailure e → r = .error e)

lemma handled_iff {m : M UnitResult} (h : Ensures m w (Settled e path w)) :
    Handled m path w ↔ isClientFailure e := by
  refine ⟨fun hhandled => ?_, fun hclient => h.mono fun r w' hs => hs.1 hclient⟩
  by_contra hclient
  obtain ⟨⟨res, hres, -⟩, -⟩ := hhandled
  rw [h.2 hclient] at hres
  cases hres

/-- A failed upload, and what the unit does next. -/
lemma settled_upload (h : S3Fails env key e) (he : e.cls ∈ s3Classes) {content : Content}
    (hspool : w.spool path = some content) {rest : Except Exc UploadResult → M UnitResult}
    {res : Exc → UnitResult} (hrest : ∀ e, rest (.error e) = do abort env path; return res e)
    (hres : ∀ e, (res e).status = .failed) :
    Ensures (tryUpload lib env u path key >>= rest) w (Settled e path w) := by
  rw [ensures_bind]
  refine (tryUpload_raises h he hspool).mono fun r w₁ ⟨hr, hstore, _⟩ => ?_
  subst hr
  by_cases hclient : isClientFailure e
  · rw [if_pos hclient]
    simp only [hrest]
    refine Ensures.bind ((abort_deletes h.localFiles w₁).and (quiet_abort path w₁))
      (fun e w₂ h₂ => by cases h₂.1.1) fun _ w₂ h₂ => ?_
    obtain ⟨⟨-, -, hnone⟩, hquiet⟩ := h₂
    exact ⟨fun _ => ⟨⟨_, rfl, hres _⟩, hquiet.store.trans hstore, hnone⟩,
      fun hnot => absurd hclient hnot⟩
  · rw [if_neg hclient]
    exact ⟨fun h => absurd h hclient, fun _ => rfl⟩

/-! ### Collections -/

section Extract

open MongoSyncAgent.Extract

variable {cfg : CollectionConfig} {dbName : String} {p : Progress}

/-- The loop over a cursor meets no failure. -/
structure CalmCursor (env : Env) : Prop where
  files : LocalFiles env
  next : ∀ i, env.fault (.cursorNext i) = none
  row : ∀ i, env.fault (.docToRow i) = none
  close : env.fault .cursorClose = none

lemma S3Fails.calmCursor (h : S3Fails env key e) : CalmCursor env where
  files := h.localFiles
  next _ := h.others _ (by simp) (by simp) (by simp)
  row _ := h.others _ (by simp) (by simp) (by simp)
  close := h.others _ (by simp) (by simp) (by simp)

/-- A flush goes through, and the strategy is as before. -/
lemma flush_calm (h : CalmCursor env) (w : World) : Ensures (p.flush env) w fun r _ =>
    ∃ p', r = .ok p' ∧ p'.strategy = p.strategy := by
  have hwriter : ∀ w, Ensures (p.sink.ensureWriter env) w fun r _ => ∃ sink, r = .ok sink := by
    intro w
    unfold ParquetVariantSink.ensureWriter
    split_ifs
    · exact ⟨_, rfl⟩
    · rw [ensures_bind]
      exact ensures_call_calm (h.files.openSpool _) ⟨_, rfl⟩
  have hwrite : Ensures (p.sink.writeRows env p.rows) w fun r _ => ∃ sink, r = .ok sink := by
    unfold ParquetVariantSink.writeRows
    split_ifs
    · exact ⟨_, rfl⟩
    · refine Ensures.bind (hwriter w) (fun e w₁ ⟨_, h₁⟩ => by cases h₁) fun sink w₁ _ => ?_
      rw [ensures_bind]
      exact ensures_call_calm (h.files.writeSpool _ _) ⟨_, rfl⟩
  unfold Progress.flush
  refine Ensures.bind hwrite (fun e w₁ ⟨_, h₁⟩ => by cases h₁) fun sink w₁ _ => ?_
  exact ⟨_, rfl, rfl⟩

/-- A document that can be observed and has a row goes through. -/
lemma visit_calm (h : CalmCursor env) {i : ℕ} {doc : Doc} {strategy : Strategy} {row : Row}
    (hobs : p.strategy.observe lib.text doc = .ok strategy)
    (hrow : docToRow lib strategy ctx doc = .ok row) (w : World) :
    Ensures (visit lib env cfg ctx i doc p) w fun r _ =>
      ∃ p', r = .ok p' ∧ p'.strategy = strategy := by
  unfold visit
  rw [ensures_bind]
  refine ensures_call_calm (h.next i) ?_
  simp only [hobs, ensures_bind]
  refine ensures_lift ?_
  simp only
  refine ensures_call_calm (h.row i) ?_
  simp only [hrow]
  refine ensures_lift ?_
  simp only
  split_ifs
  · exact flush_calm h w
  · exact ⟨_, rfl, rfl⟩

lemma visitAll_calm (h : CalmCursor env) {i : ℕ} {docs : List Doc} {strategy : Strategy}
    (hobs : p.strategy.observeAll lib.text docs = .ok strategy)
    (hrows : ∀ doc ∈ docs, ∃ row, docToRow lib p.strategy ctx doc = .ok row) (w : World) :
    Ensures (visitAll lib env cfg ctx i docs p) w fun r _ => ∃ p', r = .ok p' := by
  induction docs generalizing i p w with
  | nil =>
    unfold visitAll
    rw [ensures_bind]
    exact ensures_call_calm (h.next i) ⟨_, rfl⟩
  | cons doc docs ih =>
    obtain ⟨next, hnext, hrest⟩ := bind_ok hobs
    obtain ⟨row, hrow⟩ := hrows doc List.mem_cons_self
    have hsame := observe_same hnext
    rw [docToRow_same hsame] at hrow
    unfold visitAll
    refine Ensures.bind (visit_calm h hnext hrow w) (fun e w₁ h₁ => ?_) fun p₁ w₁ h₁ => ?_
    · obtain ⟨_, hp, -⟩ := h₁
      cases hp
    obtain ⟨p', hp, hstrategy⟩ := h₁
    obtain rfl := Except.ok.inj hp
    refine ih (by rw [hstrategy]; exact hrest) (fun doc' hdoc' => ?_) w₁
    rw [hstrategy, ← docToRow_same hsame]
    exact hrows doc' (List.mem_cons_of_mem doc hdoc')

lemma exists_row {docs : List Doc} {rows : List Row} (h : RowsOf lib cfg ctx docs rows) :
    ∀ doc ∈ docs, ∃ row, docToRow lib (makeStrategy cfg) ctx doc = .ok row := by
  unfold RowsOf at h
  induction h with
  | nil => simp
  | cons hrow _ ih => exact List.forall_mem_cons.mpr ⟨⟨_, hrow⟩, ih⟩

/-- A cursor is read to its end, if its documents can be observed and have rows. -/
lemma readCursor_calm (h : CalmCursor env) {docs : List Doc} {strategy : Strategy} {rows : List Row}
    (hobs : (makeStrategy cfg).observeAll lib.text docs = .ok strategy)
    (hrows : RowsOf lib cfg ctx docs rows) (w : World) :
    Ensures (readCursor lib env cfg ctx docs (makeStrategy cfg) path) w fun r _ =>
      ∃ p, r = .ok p := by
  unfold readCursor closing cleaningUp
  rw [ensures_bind, ensures_tryCatch, ensures_tryCatch]
  refine Ensures.bind (visitAll_calm h hobs (exists_row hrows) w)
    (fun e w₁ ⟨_, h₁⟩ => by cases h₁) ?_
  intro p₁ w₁ _
  refine (flush_calm h w₁).mono fun r w₂ ⟨p', hp, _⟩ => ?_
  subst hp
  simp only
  rw [ensures_bind]
  exact ensures_call_calm h.close ⟨_, rfl⟩

/-- The extraction comes to its upload: it is no dry run, the stored watermark can be used, and the
cursor yields documents that can be observed and have rows. -/
def CollectionUploads (lib : Libs) (env : Env) (cfg : CollectionConfig) (ctx : RunContext)
    (dbName : String) (w : World) : Prop :=
  ctx.dryRun = false ∧
    (∀ stored, w.store.watermarks (namespaceOf cfg dbName) = some stored →
      stored.kind = (makeStrategy cfg).kind) ∧
    ∃ filter strategy rows,
      filterFor cfg (w.store.watermarks (namespaceOf cfg dbName)) = .ok filter ∧
      env.find filter (makeStrategy cfg).sortSpec ≠ [] ∧
      (makeStrategy cfg).observeAll lib.text (env.find filter (makeStrategy cfg).sortSpec) =
        .ok strategy ∧
      RowsOf lib cfg ctx (env.find filter (makeStrategy cfg).sortSpec) rows

lemma deliver_settled (h : S3Fails env (mongoKey u.pre dbName cfg.name ctx.runDt) e)
    (he : e.cls ∈ s3Classes) (hdry : ctx.dryRun = false) {content : Content}
    (hspool : w.spool p.sink.path = some content) :
    Ensures (deliver lib env cfg u ctx dbName p) w (Settled e p.sink.path w) := by
  unfold deliver ParquetVariantSink.close
  simp only [ensures_bind]
  refine ensures_call_calm (h.localFiles.closeSpool _) ?_
  simp only [ensures_get, ensures_pure, hdry, Bool.false_eq_true, if_false]
  exact settled_upload h he hspool (fun _ => rfl) fun _ => rfl

lemma extractCollection_settled (h : S3Fails env (mongoKey u.pre dbName cfg.name ctx.runDt) e)
    (he : e.cls ∈ s3Classes) (hreach : CollectionUploads lib env cfg ctx dbName w) :
    Ensures (extractCollection lib env cfg u ctx dbName) w
      (Settled e (collectionSpool ctx cfg) w) := by
  obtain ⟨hdry, hkind, filter, strategy, rows, hfilter, hne, hobs, hrows⟩ := hreach
  have hcheck : Ensures (checkKind (makeStrategy cfg)
      (w.store.watermarks (namespaceOf cfg dbName))) w fun r w' => r = .ok () ∧ w' = w := by
    rcases hstored : w.store.watermarks (namespaceOf cfg dbName) with _ | stored
    · exact ⟨rfl, rfl⟩
    · refine ensures_lift ⟨?_, rfl⟩
      exact if_neg fun hk => hk (hkind stored hstored)
  unfold extractCollection
  rw [ensures_bind]
  refine ensures_call_calm (h.others _ (by simp) (by simp) (by simp)) ?_
  simp only
  rw [ensures_bind, ensures_get]
  refine Ensures.bind hcheck (fun e w₁ h₁ => by cases h₁.1) fun _ w₁ h₁ => ?_
  obtain rfl := h₁.2
  rw [filterFor] at hfilter
  simp only [hfilter, ensures_bind]
  refine ensures_lift ?_
  simp only
  refine ensures_call_calm (h.others _ (by simp) (by simp) (by simp)) ?_
  simp only
  refine ((readCursor_calm h.calmCursor hobs hrows w₁).and readCursor_ensures).mono ?_
  rintro r w₂ ⟨⟨p, rfl⟩, hread, hp⟩
  obtain ⟨hpath, hnil, -, written, ⟨hlen, hheld⟩, hwritten⟩ := hp p rfl
  have hpos : p.sink.rows ≠ 0 := by
    rw [hnil, List.append_nil] at hwritten
    rw [hlen, ← hwritten.length_eq]
    exact fun h0 => hne (List.length_eq_zero_iff.mp h0)
  simp only [if_neg hpos]
  obtain ⟨-, groups, hspool, -⟩ := hheld.resolve_left fun h => hpos (by rw [hlen, h.2]; rfl)
  rw [← show p.sink.path = collectionSpool ctx cfg from hpath]
  refine (deliver_settled h he hdry hspool).mono fun r w₃ hs => ⟨fun hclient => ?_, hs.2⟩
  obtain ⟨hres, hstore, hnone⟩ := hs.1 hclient
  exact ⟨hres, hstore.trans hread.store, hnone⟩

end Extract

/-! ### Log sources -/

section Ship

open MongoSyncAgent.Ship

variable {source : LogSourceConfig} {gcDays : ℤ} {parts : List Part}

/-- The source comes to its upload: it is no dry run, and the files can be drained of lines. -/
def SourceUploads (lib : Libs) (env : Env) (source : LogSourceConfig) (ctx : RunContext)
    (w : World) : Prop :=
  ctx.dryRun = false ∧ ∃ parts, drainPlans lib env source
      (discover lib env source (w.store.fileOffsets source.name)) = .ok parts ∧
    recordsOf env source ctx parts ≠ []

lemma shipDeliver_settled (h : S3Fails env (logsKey u.pre source.name ctx.runDt) e)
    (he : e.cls ∈ s3Classes) (hdry : ctx.dryRun = false) :
    Ensures (deliver lib env source u ctx gcDays parts path) w (Settled e path w) := by
  unfold deliver GzipNdjsonSink.open
  rw [ensures_bind, ensures_bind]
  refine ensures_call_calm (h.localFiles.openSpool path) ?_
  simp only
  rw [ensures_bind]
  refine ensures_writeFile fun w₁ h₁ hs₁ => ?_
  simp only [ensures_pure, writeRows_eq]
  unfold cleaningUp
  rw [ensures_bind, ensures_tryCatch]
  refine (add_calm h.localFiles _ _ w₁).mono fun r w₂ hw₂ => ?_
  obtain ⟨rfl, -, h₂, hs₂⟩ := hw₂
  simp only [hs₁, spooled, List.nil_append] at hs₂
  simp only
  have hclose : ∀ rows, Ensures (GzipNdjsonSink.close lib env ⟨path, rows⟩) w₂ fun r w' =>
      w' = w₂ ∧ ∃ res, r = .ok res := by
    intro rows
    unfold GzipNdjsonSink.close
    rw [ensures_bind]
    exact ensures_call_calm (h.localFiles.closeSpool path) ⟨rfl, _, rfl⟩
  refine Ensures.bind (hclose _) (fun e w' hw' => ?_) fun res w' hw' => ?_
  · obtain ⟨-, _, hres⟩ := hw'
    cases hres
  obtain rfl := hw'.1
  simp only [hdry, Bool.false_eq_true, if_false]
  refine Ensures.mono (settled_upload h he hs₂ (fun _ => rfl) fun _ => rfl)
    fun r w₃ hs => ?_
  refine ⟨fun hclient => ?_, hs.2⟩
  obtain ⟨hres, hstore, hnone⟩ := hs.1 hclient
  exact ⟨hres, hstore.trans (h₂.store.trans h₁.store), hnone⟩

lemma shipSource_settled (h : S3Fails env (logsKey u.pre source.name ctx.runDt) e)
    (he : e.cls ∈ s3Classes) (hreach : SourceUploads lib env source ctx w) :
    Ensures (shipSource lib env source u ctx gcDays) w (Settled e (sourceSpool ctx source) w) := by
  obtain ⟨hdry, parts, hparts, hne⟩ := hreach
  exact ensures_shipSource_of_parts (h.others _ (by simp) (by simp) (by simp)) hparts hne
    (shipDeliver_settled h he hdry)

end Ship

/-- **A failure of the S3 client is handled** by the uploader and by the units, whatever they
upload, if and only if it is a failure of botocore's own. -/
theorem failure_handled_iff (he : e.cls ∈ s3Classes) :
    (∀ path key w content, S3Fails env key e → w.spool path = some content →
      (RaisesUploadError lib env u path key w ↔ isClientFailure e)) ∧
    (∀ cfg dbName w, S3Fails env (mongoKey u.pre dbName cfg.name ctx.runDt) e →
      CollectionUploads lib env cfg ctx dbName w →
      (Handled (Extract.extractCollection lib env cfg u ctx dbName) (collectionSpool ctx cfg) w ↔
        isClientFailure e)) ∧
    ∀ source gcDays w, S3Fails env (logsKey u.pre source.name ctx.runDt) e →
      SourceUploads lib env source ctx w →
      (Handled (Ship.shipSource lib env source u ctx gcDays) (sourceSpool ctx source) w ↔
        isClientFailure e) := by
  refine ⟨fun path key w content h hspool => ?_, fun cfg dbName w h hreach =>
    handled_iff (extractCollection_settled h he hreach), fun source gcDays w h hreach =>
    handled_iff (shipSource_settled h he hreach)⟩
  have hraises : Ensures (upload lib env u path key) w fun r w' =>
      r = .error (raisedFor u path key e) ∧ w'.store = w.store ∧ w'.spool = w.spool :=
    upload_raises h hspool
  refine ⟨fun hown => ?_, fun hclient => ?_⟩
  · by_contra hclient
    obtain ⟨e', he', hcls⟩ := hown
    rw [hraises.1, raisedFor, if_neg hclient] at he'
    obtain rfl := Except.error.inj he'
    rw [hcls] at he
    simp [s3Classes] at he
  · refine hraises.mono fun r w' hr => ⟨_, hr.1, ?_⟩
    rw [raisedFor, if_pos hclient]

/-! ### A failure of the transfer, and one of the question after it -/

/-- One call fails. -/
def failingAt (env : Env) (failing : Call) (e : Exc) : Env :=
  { env with fault := fun c => if c = failing then some e else none }

lemma s3Fails_upload (env : Env) (key : String) (e : Exc) :
    S3Fails (failingAt env (.uploadFile key) e) key e :=
  ⟨by simp [s3Fault, failingAt], fun _ h _ _ => if_neg h⟩

lemma s3Fails_head (env : Env) (key : String) (e : Exc) :
    S3Fails (failingAt env (.headObject key) e) key e :=
  ⟨by simp [s3Fault, failingAt], fun _ _ _ h => if_neg h⟩

def oneDocument : Env := calmReads [AppendOnly.sampleDoc] sampleNow

def oneLine : Env := calmEnv (AList.singleton "a.log" ⟨[0x61, 0x0A], 0, true⟩) sampleNow

/-- The key of the collection. -/
def collectionKey : String :=
  mongoKey sampleUploader.pre "db" AppendOnly.sampleCollection.name sampleCtx.runDt

/-- The key of the source. -/
def sourceKey : String := logsKey sampleUploader.pre LogRuns.sampleSource.name sampleCtx.runDt

lemma collectionUploads_sample (failing : Call) (e : Exc) :
    CollectionUploads plainLibs (failingAt oneDocument failing e) AppendOnly.sampleCollection
      sampleCtx "db" (.start .empty) := by
  have hfind : (failingAt oneDocument failing e).find .all
      (makeStrategy AppendOnly.sampleCollection).sortSpec = [AppendOnly.sampleDoc] := rfl
  refine ⟨rfl, fun stored h => (by cases h),
    .all, .objectId AppendOnly.sampleCollection (some (.oid AppendOnly.sampleId)),
    [⟨"", AppendOnly.sampleId.str, AppendOnly.sampleId.str, sampleNow, sampleCtx.host⟩],
    rfl, ?_, ?_, ?_⟩
  · rw [hfind]
    simp
  · rw [hfind]
    rfl
  · rw [hfind]
    exact List.Forall₂.cons rfl .nil

/-- The source has a line, as far as this can be computed. -/
def hasLine (env : Env) : Bool :=
  (Ship.drainPlans plainLibs env LogRuns.sampleSource
    (discover plainLibs env LogRuns.sampleSource (StateStore.empty.fileOffsets "web"))).toOption.any
      fun parts => !(Ship.recordsOf env LogRuns.sampleSource sampleCtx parts).isEmpty

lemma sourceUploads_of_hasLine {env : Env} (h : hasLine env = true) :
    SourceUploads plainLibs env LogRuns.sampleSource sampleCtx (.start .empty) := by
  obtain ⟨parts, hparts, hne⟩ := (Option.any_eq_true _ _).mp h
  refine ⟨rfl, parts, ?_, by simpa using hne⟩
  show Ship.drainPlans plainLibs env LogRuns.sampleSource
    (discover plainLibs env LogRuns.sampleSource (StateStore.empty.fileOffsets "web")) = .ok parts
  rcases hdrain : Ship.drainPlans plainLibs env LogRuns.sampleSource
    (discover plainLibs env LogRuns.sampleSource (StateStore.empty.fileOffsets "web")) with e | ps
  · rw [hdrain] at hparts
    cases hparts
  · rw [hdrain] at hparts
    rw [Option.some.inj hparts]

def notFound : Exc := ⟨.clientError, "Not Found"⟩

def transferFailed : Exc := ⟨.s3UploadFailedError, "Access Denied"⟩

def extractSample (env : Env) : M UnitResult :=
  Extract.extractCollection plainLibs env AppendOnly.sampleCollection sampleUploader sampleCtx "db"

def shipSample (env : Env) : M UnitResult :=
  Ship.shipSource plainLibs env LogRuns.sampleSource sampleUploader sampleCtx 14

/-- A spool file that waits for its upload. -/
def spooled : World where
  initial := .empty
  journal := []
  spool path := if path = "spool/web.ndjson" then some (.ndjson []) else none

theorem failure_handled_sample :
    RaisesUploadError plainLibs (failingAt oneLine (.headObject sourceKey) notFound)
        sampleUploader "spool/web.ndjson" sourceKey spooled ∧
      Handled (extractSample (failingAt oneDocument (.headObject collectionKey) notFound))
        (collectionSpool sampleCtx AppendOnly.sampleCollection) (.start .empty) ∧
      Handled (shipSample (failingAt oneLine (.headObject sourceKey) notFound))
        (sourceSpool sampleCtx LogRuns.sampleSource) (.start .empty) := by
  have hclass : notFound.cls ∈ s3Classes := by decide
  refine ⟨?_, ?_, ?_⟩
  · exact ((@failure_handled_iff plainLibs (failingAt oneLine (.headObject sourceKey) notFound)
      sampleUploader sampleCtx notFound hclass).1 _ sourceKey spooled (.ndjson [])
      (s3Fails_head oneLine sourceKey notFound) rfl).mpr rfl
  · exact ((@failure_handled_iff plainLibs
      (failingAt oneDocument (.headObject collectionKey) notFound)
      sampleUploader sampleCtx notFound hclass).2.1 AppendOnly.sampleCollection "db" (.start .empty)
      (s3Fails_head oneDocument collectionKey notFound)
      (collectionUploads_sample (.headObject collectionKey) notFound)).mpr rfl
  · exact ((@failure_handled_iff plainLibs (failingAt oneLine (.headObject sourceKey) notFound)
      sampleUploader sampleCtx notFound hclass).2.2 LogRuns.sampleSource 14 (.start .empty)
      (s3Fails_head oneLine sourceKey notFound)
      (sourceUploads_of_hasLine (by decide +kernel))).mpr rfl

/-- What boto3 raises in the place of a `ClientError` of a transfer: the units raise it, too, and
the spool file stays. -/
theorem transfer_error_unhandled :
    transferFailed.cls ∈ s3Classes ∧
    S3Fails (failingAt oneDocument (.uploadFile collectionKey) transferFailed) collectionKey
      transferFailed ∧
    (exec (extractSample (failingAt oneDocument (.uploadFile collectionKey) transferFailed))
      (.start .empty)).1 = .error transferFailed ∧
    ((exec (extractSample (failingAt oneDocument (.uploadFile collectionKey) transferFailed))
      (.start .empty)).2.spool "spool/AS_Queue.parquet").isSome ∧
    ¬ Handled (extractSample (failingAt oneDocument (.uploadFile collectionKey) transferFailed))
      (collectionSpool sampleCtx AppendOnly.sampleCollection) (.start .empty) ∧
    ¬ Handled (shipSample (failingAt oneLine (.uploadFile sourceKey) transferFailed))
      (sourceSpool sampleCtx LogRuns.sampleSource) (.start .empty) := by
  have hclass : transferFailed.cls ∈ s3Classes := by decide
  have hforeign : ¬ isClientFailure transferFailed := by decide
  have hfails := s3Fails_upload oneDocument collectionKey transferFailed
  have hcollection : Ensures
      (extractSample (failingAt oneDocument (.uploadFile collectionKey) transferFailed))
      (.start .empty) (Settled transferFailed
        (collectionSpool sampleCtx AppendOnly.sampleCollection) (.start .empty)) :=
    extractCollection_settled hfails hclass (collectionUploads_sample _ transferFailed)
  have hsource : Ensures (shipSample (failingAt oneLine (.uploadFile sourceKey) transferFailed))
      (.start .empty) (Settled transferFailed
        (sourceSpool sampleCtx LogRuns.sampleSource) (.start .empty)) :=
    shipSource_settled (s3Fails_upload oneLine sourceKey transferFailed) hclass
      (sourceUploads_of_hasLine (by decide +kernel))
  refine ⟨hclass, hfails, hcollection.2 hforeign, by decide +kernel, ?_, ?_⟩
  · exact fun h => hforeign ((handled_iff hcollection).mp h)
  · exact fun h => hforeign ((handled_iff hsource).mp h)

end MongoSyncAgent.FailedUploads
