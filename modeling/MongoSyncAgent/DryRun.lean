import MongoSyncAgent.SpoolFiles

/-!
What a dry run says of the run that is not dry.

Both do the same until the spool file of a unit is finished. From there the real run uploads and
commits, and for a log source it forgets stale offsets: no dry run comes to that, and it can fail.
-/

namespace MongoSyncAgent.DryRun

open MongoSyncAgent.Py MongoSyncAgent.Bson MongoSyncAgent.Config MongoSyncAgent.Runtime
open MongoSyncAgent.Sinks MongoSyncAgent.Watermarks MongoSyncAgent.Extract MongoSyncAgent.Keys
open MongoSyncAgent.Outcomes MongoSyncAgent.SideBySide MongoSyncAgent.Exceptions
open MongoSyncAgent.Sources MongoSyncAgent.Ship MongoSyncAgent.Cycle MongoSyncAgent.Isolation
open MongoSyncAgent.LoadConfig MongoSyncAgent.SpoolFiles

/-! ### The two runs -/

/-- The context of a run, dry or not. -/
def withDryRun (ctx : RunContext) (dry : Bool) : RunContext := { ctx with dryRun := dry }

@[simp] lemma withDryRun_spoolDir (ctx : RunContext) (dry : Bool) :
    (withDryRun ctx dry).spoolDir = ctx.spoolDir := rfl

@[simp] lemma withDryRun_runDt (ctx : RunContext) (dry : Bool) :
    (withDryRun ctx dry).runDt = ctx.runDt := rfl

@[simp] lemma withDryRun_dryRun (ctx : RunContext) (dry : Bool) :
    (withDryRun ctx dry).dryRun = dry := rfl

/-- What a summary lists of a unit. -/
def listed (r : UnitResult) : String × Status × ℕ := (r.unit, r.status, r.docs)

/-- The uploads of a unit, and its writes to the state store, succeed. -/
structure Delivers (env : Env) : Prop where
  statSpool : ∀ p, env.fault (.statSpool p) = none
  uploadFile : ∀ key, env.fault (.uploadFile key) = none
  uploaded : ∀ key, env.fault (.uploaded key) = none
  headObject : ∀ key, env.fault (.headObject key) = none
  setWatermark : ∀ ns, env.fault (.setWatermark ns) = none
  setOffsets : ∀ source, env.fault (.setOffsets source) = none
  deleteOffset : ∀ source key, env.fault (.deleteOffset source key) = none

variable {lib : Libs} {env : Env} {cfg : CollectionConfig} {u : S3Uploader} {ctx : RunContext}
  {dbName : String} {path : Path} {s t w : World} {dry : Bool}

/-- Both fail, with exceptions that the agent can catch. -/
def BothFail (e e' : Exc) (_ _ : World) : Prop := e.isException = true ∧ e'.isException = true

lemma upload_delivers {key : String} {content : Content} (h : Delivers env)
    (hspool : w.spool path = some content) : Ensures (upload lib env u path key) w fun r _ =>
      ∃ res, r = .ok res := by
  unfold upload
  rw [ensures_bind]
  refine ensures_call_calm (h.statSpool _) ?_
  rw [ensures_bind, ensures_tryCatch, ensures_bind]
  unfold putObject
  rw [ensures_bind]
  refine ensures_call_calm (h.uploadFile _) ?_
  rw [ensures_bind, ensures_get]
  simp only [hspool]
  rw [ensures_bind]
  refine ensures_emit ?_
  rw [ensures_bind]
  refine ensures_call_calm (h.uploaded _) ?_
  simp only [ensures_pure, ensures_bind]
  refine ensures_call_calm (h.headObject _) ?_
  exact ⟨_, rfl⟩

lemma caughtUpload_delivers {caught : Exc → Prop} [DecidablePred caught] {key : String}
    {content : Content} (h : Delivers env) (hspool : w.spool path = some content) :
    Ensures (tryCatch (do return .ok (← upload lib env u path key)) fun e =>
        if caught e then return .error e else throw e : M (Except Exc UploadResult)) w fun r _ =>
      ∃ c, r = .ok c ∧ ∃ res, c = .ok res := by
  rw [ensures_tryCatch]
  refine Ensures.bind (upload_delivers h hspool) (fun e w' h => ?_) fun res w' _ => ?_
  · obtain ⟨_, h⟩ := h
    cases h
  exact ⟨_, rfl, res, rfl⟩

lemma tryUpload_delivers {key : String} {content : Content} (h : Delivers env)
    (hspool : w.spool path = some content) :
    Ensures (tryUpload lib env u path key) w fun r _ => ∃ c, r = .ok c ∧ ∃ res, c = .ok res :=
  caughtUpload_delivers h hspool

lemma tryAnyUpload_delivers {key : String} {content : Content} (h : Delivers env)
    (hspool : w.spool path = some content) :
    Ensures (tryAnyUpload lib u env path key) w fun r _ => ∃ c, r = .ok c ∧ ∃ res, c = .ok res :=
  caughtUpload_delivers h hspool

/-! ### A collection -/

/-- The loop does not look at whether the run is dry. -/
lemma readCursor_withDryRun {docs : List Doc} {strategy : Strategy} :
    readCursor lib env cfg (withDryRun ctx dry) docs strategy path =
      readCursor lib env cfg ctx docs strategy path := by
  have hvisit : ∀ docs i p, visitAll lib env cfg (withDryRun ctx dry) i docs p =
      visitAll lib env cfg ctx i docs p := by
    intro docs
    induction docs with
    | nil => exact fun _ _ => rfl
    | cons doc docs ih =>
      intro i p
      unfold visitAll
      exact congrArg (visit lib env cfg ctx i doc p >>= ·) (funext fun p => ih _ p)
  unfold readCursor
  rw [hvisit]

lemma observe_written {text : Value → String} {strategy after : Strategy} {doc : Doc}
    {column : String} (h : strategy.observe text doc = .ok after)
    (hcolumn : strategy.watermarkColumnValue text doc = .ok column)
    (hbefore : ∃ value, strategy.newWatermark text = .ok value) :
    ∃ value, after.newWatermark text = .ok value := by
  cases strategy with
  | objectId cfg maxId =>
    simp only [Strategy.observe] at h
    split at h
    · cases h; exact ⟨_, rfl⟩
    · cases h; exact ⟨_, rfl⟩
    · obtain ⟨m, -, hm⟩ := bind_ok h
      cases hm; exact ⟨_, rfl⟩
  | timestamp cfg field maxVal =>
    simp only [Strategy.observe] at h
    split at h
    · rename_i d hdate
      obtain ⟨m, hobs, hm⟩ := bind_ok h
      obtain rfl := Except.ok.inj hm
      simp only [Strategy.watermarkColumnValue, hdate] at hcolumn
      have hnew : ∃ value, Strategy.newWatermark text (.timestamp cfg field (some d)) = .ok value :=
        ⟨some column, by simp only [Strategy.newWatermark, hcolumn]; rfl⟩
      rcases maxVal with _ | old
      · obtain rfl := Except.ok.inj hobs
        exact hnew
      · obtain ⟨bigger, -, hbigger⟩ := bind_ok hobs
        obtain rfl := Except.ok.inj hbigger
        cases bigger
        · exact hbefore
        · exact hnew
    · cases h; exact hbefore
  | fullRefresh => cases h; exact ⟨_, rfl⟩

/-- **A watermark of rows can be written**: the time it would be was written in one of them. -/
lemma observeAll_written {docs : List Doc} {rows : List Row} {strategy : Strategy}
    (h : (makeStrategy cfg).observeAll lib.text docs = .ok strategy)
    (hrows : RowsOf lib cfg ctx docs rows) :
    ∃ value, strategy.newWatermark lib.text = .ok value := by
  have hall : ∀ doc ∈ docs, ∃ column,
      (makeStrategy cfg).watermarkColumnValue lib.text doc = .ok column := by
    clear h
    induction hrows with
    | nil => exact fun _ hdoc => by cases hdoc
    | cons hrow _ ih =>
      obtain ⟨column, hcolumn, -⟩ := bind_ok hrow
      exact List.forall_mem_cons.mpr ⟨⟨column, hcolumn⟩, ih⟩
  have hstart : ∃ value, (makeStrategy cfg).newWatermark lib.text = .ok value := by
    unfold makeStrategy
    split <;> exact ⟨_, rfl⟩
  refine @observeAll_invariant lib.text (fun docs t =>
    (∀ doc ∈ docs, ∃ column, (makeStrategy cfg).watermarkColumnValue lib.text doc = .ok column) →
      ∃ value, t.newWatermark lib.text = .ok value) _ (fun _ => hstart) ?_ docs strategy h hall
  intro docs doc before t hbefore ih hlast hall
  obtain ⟨column, hcolumn⟩ := hall doc (by simp)
  rw [(observeAll_same hbefore).watermarkColumnValue] at hcolumn
  exact observe_written hlast hcolumn (ih fun d hd => hall d (List.mem_append_left _ hd))

lemma same_bothFail {α : Type} {m m' : M α} {Q : α → World → World → Prop} {s₀ t₀ : World}
    (h : Same m m' s t Q (Failed s₀ t₀)) :
    InStep m m' s t (fun a b s' t' => a = b ∧ Q a s' t') BothFail :=
  InStep.mono h (fun _ _ _ _ h => h) fun _ _ _ _ ⟨heq, he, _⟩ => ⟨he, heq ▸ he⟩

lemma along_start : Along s t s t := ⟨[], .nil, .nil⟩

lemma commitWatermark_delivers {strategy : Strategy} (h : Delivers env)
    (hvalue : ∃ value, strategy.newWatermark lib.text = .ok value) :
    Ensures (commitWatermark lib env cfg ctx dbName strategy) w fun r _ =>
      ∃ c, r = .ok c ∧ True := by
  obtain ⟨value, hvalue⟩ := hvalue
  unfold commitWatermark
  rw [ensures_bind, hvalue]
  refine ensures_lift ?_
  rcases value with _ | value
  · exact ⟨(), rfl, trivial⟩
  · simp only [ensures_bind]
    exact ensures_call_calm (h.setWatermark _) ⟨(), rfl, trivial⟩

lemma deliver_listed {p : Progress} {docs : List Doc} (henv : Unkilled env)
    (hdel : Delivers env) (hland : p.Landed lib cfg ctx docs t) (hne : p.sink.rows ≠ 0) :
    InStep (Extract.deliver lib env cfg u (withDryRun ctx true) dbName p)
      (Extract.deliver lib env cfg u (withDryRun ctx false) dbName p) s t
      (fun r r' _ _ => listed r = listed r') BothFail := by
  obtain ⟨hobs, rows, ⟨hlen, hheld⟩, hrows⟩ := hland
  obtain ⟨-, groups, hspool, -⟩ := hheld.resolve_left fun h => hne (by rw [hlen, h.2]; rfl)
  unfold Extract.deliver ParquetVariantSink.close
  refine InStep.bind (V := fun r r' s' t' => r.rows = r'.rows ∧ t' = t) (InStep.bind (same_bothFail
    (same_call (P := fun s' t' => t' = t) henv along_start rfl)) ?_ fun _ _ _ _ h => h) ?_
    fun _ _ _ _ h => h
  · rintro _ _ s₁ t₁ ⟨-, rfl⟩
    exact inStep_get (inStep_pure ⟨rfl, rfl⟩)
  rintro result result' s₁ t₁ ⟨hres, rfl⟩
  simp only [withDryRun_dryRun, if_true, Bool.false_eq_true, if_false]
  -- the real run uploads and commits, which the dry run does not
  refine InStep.right (tryUpload_delivers hdel hspool) fun outcome t₂ ⟨res, hout⟩ => ?_
  subst hout
  refine InStep.right (commitWatermark_delivers hdel (observeAll_written hobs hrows))
    fun _ t₃ _ => ?_
  refine InStep.bind (same_bothFail (same_unlink henv along_start)) ?_ fun _ _ _ _ h => h
  intro _ _ s₄ t₄ _
  refine inStep_pure ?_
  simp only [listed, hres]

/-- **A collection is foretold**: from worlds that agree on its watermark, a dry run lists of it
what the real run lists. -/
theorem extractCollection_listed (henv : Unkilled env) (hdel : Delivers env)
    (h : s.store.watermarks (namespaceOf cfg dbName) =
      t.store.watermarks (namespaceOf cfg dbName)) :
    InStep (extractCollection lib env cfg u (withDryRun ctx true) dbName)
      (extractCollection lib env cfg u (withDryRun ctx false) dbName) s t
      (fun r r' _ _ => listed r = listed r') BothFail := by
  refine InStep.bind (same_bothFail (same_call (P := fun s' t' => s' = s ∧ t' = t) henv
    along_start ⟨rfl, rfl⟩)) ?_ fun _ _ _ _ h => h
  rintro _ _ s₁ t₁ ⟨-, rfl, rfl⟩
  refine inStep_get ?_
  rw [h]
  generalize t₁.store.watermarks (namespaceOf cfg dbName) = prev
  refine InStep.bind (same_bothFail (same_checkKind along_start)) ?_ fun _ _ _ _ h => h
  intro _ _ s₂ t₂ _
  refine InStep.bind (same_bothFail (same_lift (P := fun _ _ => True) (caught_buildFilter _ _)
    along_start trivial)) ?_ fun _ _ _ _ h => h
  rintro filter _ s₃ t₃ ⟨rfl, -⟩
  refine InStep.bind (same_bothFail (same_call (P := fun _ _ => True) henv along_start trivial)) ?_
    fun _ _ _ _ h => h
  intro _ _ s₄ t₄ _
  simp only [readCursor_withDryRun, withDryRun_spoolDir]
  generalize spoolPath ctx.spoolDir (spoolUnit cfg) "parquet" = path
  generalize env.find filter (makeStrategy cfg).sortSpec = docs
  have hread : Same (readCursor lib env cfg ctx docs (makeStrategy cfg) path)
      (readCursor lib env cfg ctx docs (makeStrategy cfg) path) s₄ t₄ _ _ :=
    same_readCursor henv along_start
  refine InStep.bind ((same_bothFail hread).and_ensures (P := fun _ _ => True) trivial
    readCursor_ensures) ?_ fun _ _ _ _ h => h.1
  rintro p _ s₅ t₅ ⟨⟨rfl, hheld⟩, -, -, hp⟩
  obtain ⟨-, -, hland⟩ := hp p rfl
  split_ifs with hrows
  · refine InStep.bind (same_bothFail (same_abort henv along_start)) ?_ fun _ _ _ _ h => h
    exact fun _ _ _ _ _ => inStep_pure rfl
  · exact deliver_listed henv hdel hland hrows

/-! ### A log source -/

/-- Whether garbage collection comes to its deletions: its cutoff is a time, and the records can
be read. -/
def collects (env : Env) (source : String) (gcDays : ℤ) : Bool :=
  (days gcDays >>= fun delta => (env.clock (.gcNow source)).sub delta).toOption.isSome &&
    (env.fault (.gcOffsets source)).isNone

/-- Whether the spool file of a source or of the metrics can be made, and be deleted again. -/
def spools (env : Env) (path : Path) : Bool :=
  (env.fault (.openSpool path)).isNone && (env.fault (.writeSpool path 0)).isNone &&
    (env.fault (.closeSpool path)).isNone && (env.fault (.unlinkSpool path)).isNone

/-- The records that a source has to ship, if it can be read. -/
def toShip (lib : Libs) (env : Env) (source : LogSourceConfig) (ctx : RunContext)
    (offsets : State.Offsets) : Option (List LogRecord) :=
  if (env.fault (.getOffsets source.name)).isSome then none
  else ((drainPlans lib env source (discover lib env source offsets)).toOption).map
    (recordsOf env source ctx)

/-- What a summary lists of a source whose spool file and whose garbage collection go well, or
not. -/
def shipReport (source : String) (done : Bool) : Option (List LogRecord) → String × Status × ℕ
  | none => (source, .failed, 0)
  | some [] => (source, .empty, 0)
  | some records => if done then (source, .ok, records.length) else (source, .failed, 0)

/-- The result of a unit that is isolated. -/
def Reports (unit : String) (report : String × Status × ℕ) : Except Exc UnitResult → Prop
  | .ok res => listed res = report
  | .error e => e.isException = true ∧ report = (unit, .failed, 0)

lemma isolating_reports {unit : String} {report : String × Status × ℕ} {body : M UnitResult}
    (h : Ensures body w fun r _ => Reports unit report r) :
    Ensures (isolating unit body) w fun r _ => ∃ res, r = .ok res ∧ listed res = report := by
  unfold isolating
  rw [ensures_tryCatch]
  refine h.mono fun r w' hr => ?_
  rcases r with e | res
  · obtain ⟨he, hreport⟩ := hr
    simp only [he, if_true]
    exact ⟨_, rfl, hreport.symm⟩
  · exact ⟨res, rfl, hr⟩

variable {source : LogSourceConfig} {gcDays : ℤ} {parts : List Part}

lemma gcLoop_delivers {current : List String} {cutoff : Timestamps.Datetime} (h : Delivers env)
    (items : List (String × State.FileOffset)) :
    Ensures (gcLoop env source.name current cutoff items) w fun r _ => ∃ n, r = .ok n := by
  induction items generalizing w with
  | nil => exact ⟨0, rfl⟩
  | cons item rest ih =>
    unfold gcLoop
    split_ifs
    · rw [ensures_bind]
      refine ensures_call_calm (h.deleteOffset _ _) ?_
      rw [ensures_bind]
      refine ensures_emit ?_
      refine Ensures.bind ih (fun e w' h => ?_) fun n w' _ => ?_
      · obtain ⟨_, h⟩ := h
        cases h
      exact ⟨n + 1, rfl⟩
    · exact ih

lemma gcOffsets_reports {current : List String} (henv : Unkilled env) (h : Delivers env) :
    Ensures (gcOffsets env source.name current gcDays) w fun r _ =>
      Asks (fun _ => collects env source.name gcDays = true)
        (fun e => e.isException = true ∧ collects env source.name gcDays = false) r := by
  unfold gcOffsets collects
  rw [ensures_bind]
  refine ensures_lift ?_
  rcases hdays : days gcDays with e | delta
  · exact ⟨caught_days _ e hdays, rfl⟩
  simp only [ensures_bind, ok_bind]
  refine ensures_lift ?_
  rcases hsub : (env.clock (.gcNow source.name)).sub delta with e | cutoff
  · exact ⟨caught_ofMicros _ _ e hsub, rfl⟩
  simp only [Except.toOption, Option.isSome_some, Bool.true_and]
  unfold call
  rcases hf : env.fault (.gcOffsets source.name) with _ | e
  · simp only [ensures_pure, ensures_get, Option.isNone_none]
    refine (gcLoop_delivers h _).mono fun r w' hn => ?_
    obtain ⟨n, rfl⟩ := hn
    trivial
  · exact ⟨henv _ e hf, rfl⟩

lemma abort_calm (henv : Unkilled env) : Ensures (abort env path) w fun r _ => r = .ok () := by
  have hignoring : ∀ body : M Unit, Spared body → ∀ w,
      Ensures (ignoringErrors body) w fun r _ => r = .ok () := by
    intro body h w
    unfold ignoringErrors
    rw [ensures_tryCatch]
    refine (h w).mono fun r w' hr => ?_
    rcases r with e | _
    · simp only [hr e rfl, if_true]
      rfl
    · rfl
  unfold abort
  refine Ensures.bind (hignoring _ (spared_call henv _) _) (fun e w' h => by cases h)
    fun _ w' _ => ?_
  exact hignoring _ (.bind (spared_call henv _) fun _ => spared_modify _) w'

lemma ensures_cleaningUp_abort {α : Type} {body : M α} {Q : Except Exc α → World → Prop}
    (henv : Unkilled env) (h : Ensures body w fun r w' =>
      Asks (fun a => Q (.ok a) w') (fun e => e.isException = true ∧ ∀ w'', Q (.error e) w'') r) :
    Ensures (cleaningUp body (abort env path)) w Q := by
  unfold cleaningUp
  rw [ensures_tryCatch]
  refine h.mono fun r w₁ h₁ => ?_
  rcases r with e | a
  · obtain ⟨he, hq⟩ := h₁
    simp only [he, if_true]
    exact Ensures.bind (abort_calm henv) (fun e' w₂ h₂ => by cases h₂) fun _ w₂ _ => hq w₂
  · exact h₁

/-- A call that must go well for something to be done. -/
lemma ensures_call_cases {c : Call} {Q : Except Exc Unit → World → Prop} (henv : Unkilled env)
    (herr : ∀ e, env.fault c = some e → e.isException = true → Q (.error e) w)
    (hok : env.fault c = none → Q (.ok ()) w) : Ensures (call env c) w Q :=
  ensures_call_raises (fun e hf => herr e hf (henv c e hf)) hok

lemma unlink_reports (henv : Unkilled env) : Ensures (unlink env path) w fun r _ =>
    Asks (fun _ => env.fault (.unlinkSpool path) = none)
      (fun e => e.isException = true ∧ env.fault (.unlinkSpool path) = some e) r := by
  unfold unlink
  rw [ensures_bind]
  exact ensures_call_cases henv (fun e hf he => ⟨he, hf⟩) fun hf => hf

lemma commit_reports (henv : Unkilled env) (hdel : Delivers env) :
    Ensures (commit env source gcDays parts path) w fun r _ =>
      Asks (fun _ => collects env source.name gcDays = true ∧ env.fault (.unlinkSpool path) = none)
        (fun e => e.isException = true ∧ (collects env source.name gcDays = false ∨
          env.fault (.unlinkSpool path) = some e)) r := by
  unfold commit setOffsets
  rw [ensures_bind, ensures_bind]
  refine ensures_call_calm (hdel.setOffsets _) ?_
  refine ensures_emit ?_
  refine Ensures.bind (gcOffsets_reports henv hdel) (fun e w₁ h₁ => ⟨h₁.1, .inl h₁.2⟩)
    fun n w₁ h₁ => ?_
  refine (unlink_reports henv).mono fun r w₂ h₂ => ?_
  rcases r with e | _
  · exact ⟨h₂.1, .inr h₂.2⟩
  · exact ⟨h₁, h₂⟩

/-- A spool file that is made, filled and closed, and what follows. -/
lemma ensures_spooled {n : ℕ} {onto : Option Content → Content}
    {rest : SinkResult → M UnitResult} {Q : Except Exc UnitResult → World → Prop}
    (henv : Unkilled env)
    (herr : ∀ e w', e.isException = true → spools env path = false → Q (.error e) w')
    (hok : ∀ result w' content, result.rows = n → w'.spool path = some content →
      spools env path = (env.fault (.unlinkSpool path)).isNone → Ensures (rest result) w' Q) :
    Ensures (do
      let sink ← GzipNdjsonSink.open env path
      let sink ← cleaningUp (sink.add env n onto) (abort env path)
      let result ← sink.close lib env
      rest result) w Q := by
  unfold GzipNdjsonSink.open
  rw [ensures_bind, ensures_bind]
  refine ensures_call_cases henv (fun e hf he => ?_) fun hopen => ?_
  · exact herr e _ he (by simp [spools, hf])
  rw [ensures_bind]
  refine ensures_writeFile fun w₁ _ _ => ?_
  simp only [ensures_pure]
  rw [ensures_bind]
  have hadd : Ensures (GzipNdjsonSink.add env ⟨path, 0⟩ n onto) w₁ fun r w₂ =>
      Asks (fun sink => sink = ⟨path, n⟩ ∧ env.fault (.writeSpool path 0) = none ∧
          ∃ content, w₂.spool path = some content)
        (fun e => e.isException = true ∧ env.fault (.writeSpool path 0) = some e) r := by
    unfold GzipNdjsonSink.add
    rw [ensures_bind]
    refine ensures_call_cases henv (fun e hf he => ⟨he, hf⟩) fun hf => ?_
    rw [ensures_bind, ensures_get]
    simp only [ensures_bind]
    exact ensures_writeFile fun w' _ hs => ⟨by simp, hf, _, hs⟩
  refine ensures_cleaningUp_abort henv (hadd.mono fun r w₂ h₂ => ?_)
  rcases r with e | sink
  · exact ⟨h₂.1, fun w₃ => herr e w₃ h₂.1 (by simp [spools, h₂.2])⟩
  obtain ⟨rfl, hwritten, content, hspool⟩ := h₂
  show Ensures _ w₂ Q
  unfold GzipNdjsonSink.close
  rw [ensures_bind, ensures_bind]
  refine ensures_call_cases henv (fun e hf he => ?_) fun hclose => ?_
  · exact herr e _ he (by simp [spools, hf])
  simp only [ensures_bind, ensures_get, ensures_pure]
  exact hok _ w₂ content rfl hspool (by simp [spools, hopen, hwritten, hclose])

lemma deliver_reports (henv : Unkilled env) (hdel : ctx.dryRun = true ∨ Delivers env)
    (hne : recordsOf env source ctx parts ≠ []) :
    Ensures (Ship.deliver lib env source u ctx gcDays parts path) w fun r _ =>
      Reports source.name (shipReport source.name
        (spools env path && (ctx.dryRun || collects env source.name gcDays))
        (some (recordsOf env source ctx parts))) r := by
  obtain ⟨done, hdone⟩ : ∃ done, done =
      (spools env path && (ctx.dryRun || collects env source.name gcDays)) := ⟨_, rfl⟩
  rw [← hdone]
  have hreport : shipReport source.name done (some (recordsOf env source ctx parts)) =
      if done then (source.name, .ok, (recordsOf env source ctx parts).length)
      else (source.name, .failed, 0) := by
    rcases hrecords : recordsOf env source ctx parts with _ | ⟨rec, rest⟩
    · exact absurd hrecords hne
    · rfl
  rw [hreport]
  have hfailed : ∀ e : Exc, e.isException = true → done = false → Reports source.name
      (if done then (source.name, .ok, (recordsOf env source ctx parts).length)
        else (source.name, .failed, 0)) (.error e) := by
    intro e he hd
    rw [hd]
    exact ⟨he, rfl⟩
  unfold Ship.deliver
  simp only [writeRows_eq]
  refine ensures_spooled henv (fun e w' he hspools => ?_)
    fun result w₁ content hrows hspool hspools => ?_
  · exact hfailed e he (by simp [hdone, hspools])
  rw [hspools] at hdone
  by_cases hdry : ctx.dryRun
  · rw [if_pos hdry, ensures_bind]
    refine (unlink_reports henv).mono fun r w₂ h₂ => ?_
    rcases r with e | _
    · exact hfailed e h₂.1 (by simp [hdone, h₂.2])
    · simp only [h₂, hdry, Option.isNone_none, Bool.true_or, Bool.true_and] at hdone
      simp [Reports, listed, hdone, hrows]
  rw [if_neg hdry]
  have hdel := hdel.resolve_left hdry
  simp only [hdry, Bool.false_or] at hdone
  refine Ensures.bind (tryUpload_delivers hdel hspool) (fun e w₂ h => ?_) fun c w₂ hc => ?_
  · obtain ⟨_, h, _⟩ := h
    cases h
  obtain ⟨c', hc, res, rfl⟩ := hc
  obtain rfl := Except.ok.inj hc
  refine Ensures.bind (commit_reports henv hdel) (fun e w₃ h₃ => ?_) fun _ w₃ h₃ => ?_
  · refine hfailed e h₃.1 ?_
    rcases h₃.2 with h | h <;> simp [hdone, h]
  · simp [Reports, listed, hdone, hrows, h₃.1, h₃.2]

lemma shipSource_reports (henv : Unkilled env) (hdel : ctx.dryRun = true ∨ Delivers env) :
    Ensures (shipSource lib env source u ctx gcDays) w fun r _ =>
      Reports source.name (shipReport source.name
        (spools env (spoolPath ctx.spoolDir source.name "jsonl.gz") &&
          (ctx.dryRun || collects env source.name gcDays))
        (toShip lib env source ctx (w.store.fileOffsets source.name))) r := by
  unfold toShip
  refine ensures_shipSource (fun e hf => ?_) (fun hread e hparts => ?_) fun hread parts hparts => ?_
  · rw [if_pos (by rw [hf]; rfl)]
    exact ⟨henv _ e hf, rfl⟩
  · rw [if_neg (by rw [hread]; exact Bool.false_ne_true), hparts]
    exact ⟨caught_drainPlans _ _ _ _ e hparts, rfl⟩
  · have hcalm : (env.fault (.getOffsets source.name)).isSome = false := by rw [hread]; rfl
    simp only [hcalm, Bool.false_eq_true, if_false, hparts, Except.toOption, Option.map_some]
    split_ifs with hne
    · rw [hne]
      rfl
    · exact deliver_reports henv hdel hne

/-- Whether a dry run lists a source as `ok`: it has records, and its spool file can be made. -/
def ships (lib : Libs) (env : Env) (source : LogSourceConfig) (ctx : RunContext)
    (offsets : State.Offsets) : Bool :=
  spools env (spoolPath ctx.spoolDir source.name "jsonl.gz") &&
    (toShip lib env source ctx offsets).any (!·.isEmpty)

/-- A source that ships something comes through its garbage collection. -/
def Foreseen (lib : Libs) (env : Env) (source : LogSourceConfig) (ctx : RunContext) (gcDays : ℤ)
    (offsets : State.Offsets) : Prop :=
  ships lib env source ctx offsets = true → collects env source.name gcDays = true

lemma shipReport_eq_iff {name : String} {spool gc : Bool} {records : Option (List LogRecord)} :
    shipReport name (spool && true) records = shipReport name (spool && gc) records ↔
      ((spool && records.any (!·.isEmpty)) = true → gc = true) := by
  rcases records with _ | _ | ⟨rec, rest⟩
  · simp [shipReport]
  · simp [shipReport]
  · cases spool <;> cases gc <;> simp [shipReport]

/-- **A source is foretold exactly where it is foreseen.** -/
lemma shipUnit_listed (henv : Unkilled env) (hdel : Delivers env)
    (h : s.store.fileOffsets source.name = t.store.fileOffsets source.name) :
    InStep (isolating source.name (shipSource lib env source u (withDryRun ctx true) gcDays))
      (isolating source.name (shipSource lib env source u (withDryRun ctx false) gcDays)) s t
      (fun r r' _ _ => listed r = listed r' ↔
        Foreseen lib env source ctx gcDays (s.store.fileOffsets source.name))
      fun _ _ _ _ => False := by
  refine inStep_of_ensures (isolating_reports (shipSource_reports henv (.inl rfl)))
    (isolating_reports (shipSource_reports henv (.inr hdel))) ?_
  rintro _ _ _ _ ⟨r, rfl, hr⟩ ⟨r', rfl, hr'⟩
  show listed r = listed r' ↔ _
  rw [hr, hr', ← h]
  exact shipReport_eq_iff

/-! ### All of them -/

/-- An effect of a run of a source. -/
def OfSource (source : String) (e : Effect) : Prop :=
  (∃ p, e = .put p) ∨ (∃ offsets updatedAt, e = .setOffsets source offsets updatedAt) ∨
    ∃ key, e = .deleteOffset source key

lemma replay_otherOffsets {j : List Effect} {name other : String}
    (h : ∀ e ∈ j, OfSource name e) (hne : other ≠ name) (st : State.StateStore) :
    (replay st j).fileOffsets other = st.fileOffsets other := by
  induction j generalizing st with
  | nil => rfl
  | cons e j ih =>
    rw [replay_cons, ih fun e he => h e (List.mem_cons_of_mem _ he)]
    rcases h e List.mem_cons_self with ⟨p, rfl⟩ | ⟨offsets, updatedAt, rfl⟩ | ⟨key, rfl⟩
    · rfl
    · exact if_neg hne
    · exact if_neg hne

lemma shipSource_keeps {other : String} (hne : other ≠ source.name) :
    Keeps (fun w : World => w.store.fileOffsets other)
      (shipSource lib env source u ctx gcDays) := by
  refine fun w => shipSource_ensures.mono fun r w' h => ?_
  show w'.store.fileOffsets other = w.store.fileOffsets other
  rcases h with hw | ⟨parts, j, -, hw, hship⟩
  · rw [hw.store]
    rfl
  rw [hw.store]
  refine replay_otherOffsets (?_ : ∀ e ∈ j, OfSource source.name e) hne _
  intro e he
  cases hship with
  | nothing => cases he
  | uploaded => exact .inl ⟨_, List.mem_singleton.mp he⟩
  | committed _ _ hdel =>
    rcases List.mem_cons.mp he with rfl | he
    · exact .inl ⟨_, rfl⟩
    rcases List.mem_cons.mp he with rfl | he
    · exact .inr (.inl ⟨_, _, rfl⟩)
    · obtain ⟨key, rfl, -⟩ := hdel e he
      exact .inr (.inr ⟨key, rfl⟩)

theorem shipUnits_listed {sources : LogSources}
    (hunits : ∀ x ∈ sources, Unkilled x.2 ∧ Delivers x.2)
    (hnames : (sources.map (·.1.name)).Nodup)
    (h : ∀ x ∈ sources, s.store.fileOffsets x.1.name = t.store.fileOffsets x.1.name) :
    InStep (shipUnits lib u (withDryRun ctx true) gcDays sources)
      (shipUnits lib u (withDryRun ctx false) gcDays sources) s t
      (fun l l' _ _ => l.map listed = l'.map listed ↔ ∀ x ∈ sources,
        Foreseen lib x.2 x.1 ctx gcDays (s.store.fileOffsets x.1.name))
      fun _ _ _ _ => False := by
  induction sources generalizing s t with
  | nil => exact inStep_pure (by simp)
  | cons x sources ih =>
    obtain ⟨source, env⟩ := x
    obtain ⟨henv, hdel⟩ := hunits _ List.mem_cons_self
    obtain ⟨hnew, hnames⟩ := List.nodup_cons.mp hnames
    have hdry : Ensures (isolating source.name
        (shipSource lib env source u (withDryRun ctx true) gcDays)) s fun _ s' =>
          s'.store = s.store :=
      within_isolating (Quiet.keeps (quiet_shipSource rfl)) s
    have hreal : Ensures (isolating source.name
        (shipSource lib env source u (withDryRun ctx false) gcDays)) t fun _ t' =>
          ∀ x ∈ sources, t'.store.fileOffsets x.1.name = t.store.fileOffsets x.1.name := by
      intro x hx
      exact within_isolating (shipSource_keeps fun heq =>
        hnew (List.mem_map.mpr ⟨x, hx, heq⟩)) t
    refine InStep.bind ((shipUnit_listed henv hdel (h _ List.mem_cons_self)).and_ensures hdry hreal)
      ?_ fun _ _ _ _ h => h.1
    rintro r r' s₁ t₁ ⟨hlisted, hs₁, ht₁⟩
    have hrest := ih (s := s₁) (t := t₁) (fun x hx => hunits x (List.mem_cons_of_mem _ hx)) hnames
      fun x hx => by rw [hs₁, ht₁ x hx, h x (List.mem_cons_of_mem _ hx)]
    refine InStep.bind hrest ?_ fun _ _ _ _ h => h
    intro l l' s₂ t₂ hl
    rw [hs₁] at hl
    refine inStep_pure ?_
    rw [List.map_cons, List.map_cons, List.cons.injEq, List.forall_mem_cons, hlisted, hl]

/-! #### The collections -/

variable {conn : Connection}

/-- What the connection raises can be caught. -/
structure Catchable (conn : Connection) : Prop where
  connect : Caught conn.connect
  collection : ∀ name e, conn.collection name = some e → e.isException = true
  close : ∀ e, conn.close = some e → e.isException = true

/-- Both fail, and something was not the case that a value takes. -/
def FailUnless (p : Prop) (e e' : Exc) (s t : World) : Prop := BothFail e e' s t ∧ ¬ p

lemma raising_inStep {x : Option Exc} (h : ∀ e, x = some e → e.isException = true) :
    InStep (raising x) (raising x) s t (fun _ _ s' t' => (s' = s ∧ t' = t) ∧ x = none)
      (FailUnless (x = none)) := by
  rcases x with _ | e
  · exact inStep_pure ⟨⟨rfl, rfl⟩, rfl⟩
  · exact inStep_throw ⟨⟨h e rfl, h e rfl⟩, fun h => by cases h⟩

lemma extractUnit_listed (hconn : Catchable conn) (henv : Unkilled env) (hdel : Delivers env)
    (h : s.store.watermarks (namespaceOf cfg dbName) =
      t.store.watermarks (namespaceOf cfg dbName)) :
    InStep (extractUnit lib u (withDryRun ctx true) conn dbName cfg env)
      (extractUnit lib u (withDryRun ctx false) conn dbName cfg env) s t
      (fun r r' _ _ => listed r = listed r') fun _ _ _ _ => False := by
  unfold extractUnit isolating
  split_ifs
  · exact inStep_pure rfl
  refine InStep.tryCatch (InStep.bind (raising_inStep (hconn.collection cfg.name)) ?_
    fun _ _ _ _ h => h.1) (fun _ _ _ _ h => h) fun e e' s₁ t₁ ⟨he, he'⟩ => ?_
  · rintro _ _ s₁ t₁ ⟨⟨rfl, rfl⟩, -⟩
    exact extractCollection_listed henv hdel h
  · rw [if_pos he, if_pos he']
    exact inStep_pure rfl

lemma extractCollection_keeps : Keeps (fun w : World => w.store.fileOffsets)
    (extractCollection lib env cfg u ctx dbName) := by
  refine fun w => extractCollection_ensures.mono fun _ w' h => ?_
  show w'.store.fileOffsets = w.store.fileOffsets
  rcases h with ⟨-, hw⟩ | ⟨filter, j, -, hw, hex⟩ <;> rw [hw.store]
  · rfl
  · cases hex <;> rfl

lemma extractUnit_others {other : CollectionConfig} (hne : other.name ≠ cfg.name) :
    Keeps (fun w : World => w.store.watermarks (namespaceOf other dbName))
      (extractUnit lib u ctx conn dbName cfg env) := by
  refine fun w => (extractUnit_own w).mono fun _ w' ⟨j, hw, hj⟩ => ?_
  show w'.store.watermarks _ = w.store.watermarks _
  rw [hw.store]
  refine replay_watermark (fun e he wm heq => ?_) _
  rcases hj e he with ⟨content, rfl⟩ | ⟨wm', rfl⟩
  · cases heq
  · exact hne (namespaceOf_inj (Effect.setWatermark.inj heq).1).symm

theorem extractUnits_listed {collections : Collections} (hconn : Catchable conn)
    (hunits : ∀ c ∈ collections, Unkilled c.2 ∧ Delivers c.2)
    (hnames : (collections.map (·.1.name)).Nodup)
    (h : ∀ c ∈ collections, s.store.watermarks (namespaceOf c.1 dbName) =
      t.store.watermarks (namespaceOf c.1 dbName)) :
    InStep (extractUnits lib u (withDryRun ctx true) conn dbName collections)
      (extractUnits lib u (withDryRun ctx false) conn dbName collections) s t
      (fun l l' _ _ => l.map listed = l'.map listed) fun _ _ _ _ => False := by
  induction collections generalizing s t with
  | nil => exact inStep_pure rfl
  | cons c collections ih =>
    obtain ⟨cfg, env⟩ := c
    obtain ⟨henv, hdel⟩ := hunits _ List.mem_cons_self
    obtain ⟨hnew, hnames⟩ := List.nodup_cons.mp hnames
    have hdry : Ensures (extractUnit lib u (withDryRun ctx true) conn dbName cfg env) s
        fun _ s' => s'.store = s.store :=
      within_extractUnit (Quiet.keeps (quiet_extractCollection rfl)) s
    have hreal : Ensures (extractUnit lib u (withDryRun ctx false) conn dbName cfg env) t
        fun _ t' => ∀ c ∈ collections, t'.store.watermarks (namespaceOf c.1 dbName) =
          t.store.watermarks (namespaceOf c.1 dbName) := by
      intro c hc
      exact extractUnit_others (fun heq => hnew (List.mem_map.mpr ⟨c, hc, heq⟩)) t
    refine InStep.bind ((extractUnit_listed hconn henv hdel (h _ List.mem_cons_self)).and_ensures
      hdry hreal) ?_ fun _ _ _ _ h => h.1
    rintro r r' s₁ t₁ ⟨hlisted, hs₁, ht₁⟩
    refine InStep.bind (ih (fun c hc => hunits c (List.mem_cons_of_mem _ hc)) hnames
      fun c hc => ?_) ?_ fun _ _ _ _ h => h
    · rw [hs₁, ht₁ c hc, h c (List.mem_cons_of_mem _ hc)]
    · intro l l' s₂ t₂ hl
      refine inStep_pure ?_
      rw [List.map_cons, List.map_cons, hlisted, hl]

/-- A connection that is made can be closed. -/
def Closes (conn : Connection) : Prop := conn.connect = .ok true → conn.close = none

lemma extractAll_listed {collections : Collections} (hconn : Catchable conn)
    (hunits : ∀ c ∈ collections, Unkilled c.2 ∧ Delivers c.2)
    (hnames : (collections.map (·.1.name)).Nodup) (h : s.store = t.store) :
    InStep (extractAll lib u (withDryRun ctx true) conn dbName collections)
      (extractAll lib u (withDryRun ctx false) conn dbName collections) s t
      (fun l l' _ _ => l.map listed = l'.map listed ∧ Closes conn) (FailUnless (Closes conn)) := by
  unfold extractAll Closes
  rcases hc : conn.connect with e | _ | _
  · simp only [hconn.connect e hc, if_true]
    exact inStep_pure ⟨rfl, fun h => by cases h⟩
  · exact inStep_pure ⟨rfl, fun h => by cases h⟩
  · unfold closingClient
    have hlisted := @extractUnits_listed lib u ctx dbName s t conn collections hconn hunits hnames
      fun c _ => by rw [h]
    refine InStep.bind (hlisted.tryCatch (fun _ _ _ _ h => h) fun _ _ _ _ h => h.elim) ?_
      fun _ _ _ _ h => h
    intro l l' s₁ t₁ hl
    refine InStep.bind (raising_inStep hconn.close) ?_ fun _ _ _ _ h =>
      ⟨h.1, fun h' => h.2 (h' rfl)⟩
    exact fun _ _ _ _ h => inStep_pure ⟨hl, fun _ => h.2⟩

/-! #### The metrics of the host -/

/-- Whether the spool file of the metrics can be made, if one is. -/
def metricsSpool (env : Env) (ctx : RunContext) (records : List MetricRecord) : Bool :=
  decide (records = []) || spools env (spoolPath ctx.spoolDir "hostmetrics" "jsonl.gz")

lemma shipMetrics_reports {records : List MetricRecord} (henv : Unkilled env)
    (hdel : ctx.dryRun = true ∨ Delivers env) :
    Ensures (shipMetrics lib u ctx env records) w fun r _ =>
      Asks (fun res => metricsSpool env ctx records = true ∧ listed res = ("hostmetrics",
          if records = [] then (.empty, 0) else (.ok, records.length)))
        (fun e => metricsSpool env ctx records = false ∧ e.isException = true) r := by
  unfold shipMetrics metricsSpool
  by_cases hne : records = []
  · simp only [hne, if_true, decide_true, Bool.true_or]
    exact ⟨trivial, rfl⟩
  simp only [hne, if_false, decide_false, Bool.false_or]
  simp only [writeMetrics_eq]
  refine ensures_spooled henv (fun e w' he hspools => ⟨hspools, he⟩)
    fun result w₁ content hrows hspool hspools => ?_
  rw [hspools]
  by_cases hdry : ctx.dryRun
  · rw [if_pos hdry, ensures_bind]
    refine (unlink_reports henv).mono fun r w₂ h₂ => ?_
    rcases r with e | _
    · exact ⟨by rw [h₂.2]; rfl, h₂.1⟩
    · exact ⟨by rw [h₂]; rfl, rfl⟩
  rw [if_neg hdry]
  refine Ensures.bind (tryAnyUpload_delivers (hdel.resolve_left hdry) hspool) (fun e w₂ h => ?_)
    fun c w₂ hc => ?_
  · obtain ⟨_, h, _⟩ := h
    cases h
  obtain ⟨c', hc, res, rfl⟩ := hc
  obtain rfl := Except.ok.inj hc
  simp only
  rw [ensures_bind]
  refine (unlink_reports henv).mono fun r w₃ h₃ => ?_
  rcases r with e | _
  · exact ⟨by rw [h₃.2]; rfl, h₃.1⟩
  · exact ⟨by rw [h₃]; rfl, rfl⟩

lemma shipMetrics_listed {records : List MetricRecord} (henv : Unkilled env)
    (hdel : Delivers env) :
    InStep (shipMetrics lib u (withDryRun ctx true) env records)
      (shipMetrics lib u (withDryRun ctx false) env records) s t
      (fun r r' _ _ => listed r = listed r' ∧ metricsSpool env ctx records = true)
      (FailUnless (metricsSpool env ctx records = true)) := by
  refine inStep_of_ensures (shipMetrics_reports henv (.inl rfl))
    (shipMetrics_reports henv (.inr hdel)) fun r r' s' t' hr hr' => ?_
  rcases r with e | res <;> rcases r' with e' | res'
  · exact ⟨⟨hr.2, hr'.2⟩, Bool.eq_false_iff.mp hr.1⟩
  · exact absurd (hr.1.symm.trans hr'.1) Bool.false_ne_true
  · exact absurd (hr'.1.symm.trans hr.1) Bool.false_ne_true
  · exact ⟨hr.2.trans hr'.2.symm, hr.1⟩

/-! ### The cycle -/

variable {a : AgentConfig} {out : Outside} {only : Option (List String)}
  {collection : Option String}

/-- Nothing that a cycle meets is the end of the process. -/
structure Uncut (out : Outside) : Prop where
  setup : ∀ e, out.setup = some e → e.isException = true
  conn : Catchable out.conn
  collection : ∀ i, Unkilled (out.collection i)
  source : ∀ i, Unkilled (out.source i)
  host : Unkilled out.host
  record : ∀ e, out.record = some e → e.isException = true

/-- The uploads of a cycle and its state writes succeed. -/
structure AllDelivered (out : Outside) : Prop where
  collection : ∀ i, Delivers (out.collection i)
  source : ∀ i, Delivers (out.source i)
  host : Delivers out.host

lemma collectionsOf_names (h : (a.collections.map (·.name)).Nodup) :
    ((collectionsOf a out only collection).map (·.1.name)).Nodup := by
  have hall : ((a.collections.zipIdx.map fun c => (c.1, out.collection c.2)).map
      (·.1.name)).Nodup := by
    have hfst : (a.collections.zipIdx.map fun c => (c.1, out.collection c.2)).map (·.1.name) =
        (a.collections.zipIdx.map Prod.fst).map (·.name) := by
      rw [List.map_map, List.map_map]
      rfl
    rw [hfst, List.zipIdx_map_fst]
    exact h
  unfold collectionsOf chosen
  split_ifs
  · split
    · exact hall
    · split_ifs
      · exact hall
      · exact (List.filter_sublist.map _).nodup hall
  · exact List.nodup_nil

lemma collectionsOf_units (huncut : Uncut out) (hdel : AllDelivered out) :
    ∀ c ∈ collectionsOf a out only collection, Unkilled c.2 ∧ Delivers c.2 := by
  intro c hc
  unfold collectionsOf at hc
  split_ifs at hc
  · obtain ⟨d, -, rfl⟩ := List.mem_map.mp (mem_chosen hc)
    exact ⟨huncut.collection _, hdel.collection _⟩
  · cases hc

lemma sourcesOf_names (h : (a.logs.sources.map (·.name)).Nodup) :
    ((sourcesOf a out only).map (·.1.name)).Nodup := by
  unfold sourcesOf
  split_ifs
  · have hfst : (a.logs.sources.zipIdx.map fun s => (s.1, out.source s.2)).map (·.1.name) =
        (a.logs.sources.zipIdx.map Prod.fst).map (·.name) := by
      rw [List.map_map, List.map_map]
      rfl
    rw [hfst, List.zipIdx_map_fst]
    exact h
  · exact List.nodup_nil

lemma sourcesOf_units (huncut : Uncut out) (hdel : AllDelivered out) :
    ∀ x ∈ sourcesOf a out only, Unkilled x.2 ∧ Delivers x.2 := by
  intro x hx
  unfold sourcesOf at hx
  split_ifs at hx
  · obtain ⟨d, -, rfl⟩ := List.mem_map.mp hx
    exact ⟨huncut.source _, hdel.source _⟩
  · cases hx

variable (a out only) in
/-- The collections come to their results, if they are extracted. -/
def CollectionsEnd : Prop :=
  (selected only "mongo" ∧ a.mongoEnabled) ∧ a.mongo.isSome → Closes out.conn

variable (a out only ctx) in
/-- The metrics come to a result, if they are shipped. -/
def MetricsEnd : Prop :=
  selected only "hostmetrics" ∧ a.hostmetrics.enabled →
    metricsSpool out.host ctx out.metrics = true

variable (a out only ctx) in
/-- A cycle comes to its summary. -/
structure Summarised : Prop where
  setup : out.setup = none
  collections : CollectionsEnd a out only
  metrics : MetricsEnd ctx a out only
  record : out.record = none

lemma mongoUnits_listed (huncut : Uncut out) (hdel : AllDelivered out)
    (hnames : (a.collections.map (·.name)).Nodup) (h : s.store = t.store) :
    InStep (mongoUnits lib u (withDryRun ctx true) a out only collection)
      (mongoUnits lib u (withDryRun ctx false) a out only collection) s t
      (fun l l' _ _ => l.map listed = l'.map listed ∧ CollectionsEnd a out only)
      (FailUnless (CollectionsEnd a out only)) := by
  have hunits := @collectionsOf_units a out only collection huncut hdel
  have hnodup := @collectionsOf_names a out only collection hnames
  unfold mongoUnits CollectionsEnd
  by_cases hsel : selected only "mongo" ∧ a.mongoEnabled
  swap
  · rw [if_neg hsel, if_neg hsel]
    exact inStep_pure ⟨rfl, fun h => absurd h.1 hsel⟩
  rw [if_pos hsel, if_pos hsel]
  rcases hm : a.mongo with _ | mongo
  · exact inStep_pure ⟨rfl, fun h => by cases h.2⟩
  · have hcollections : chosen collection (a.collections.zipIdx.map fun c =>
        (c.1, out.collection c.2)) = collectionsOf a out only collection :=
      (if_pos ⟨hsel, by rw [hm]; rfl⟩).symm
    simp only [hcollections]
    refine InStep.mono (extractAll_listed huncut.conn hunits hnodup h) (fun _ _ _ _ h => ?_)
      fun _ _ _ _ h => ?_
    · exact ⟨h.1, fun _ => h.2⟩
    · exact ⟨h.1, fun h' => h.2 (h' ⟨hsel, rfl⟩)⟩

lemma logUnits_listed (huncut : Uncut out) (hdel : AllDelivered out)
    (hnames : (a.logs.sources.map (·.name)).Nodup)
    (h : s.store.fileOffsets = t.store.fileOffsets) :
    InStep (logUnits lib u (withDryRun ctx true) a out only)
      (logUnits lib u (withDryRun ctx false) a out only) s t
      (fun l l' _ _ => l.map listed = l'.map listed ↔ ∀ x ∈ sourcesOf a out only,
        Foreseen lib x.2 x.1 ctx a.logs.gcDays (s.store.fileOffsets x.1.name))
      fun _ _ _ _ => False := by
  have hunits := @sourcesOf_units a out only huncut hdel
  have hnodup := @sourcesOf_names a out only hnames
  unfold logUnits shipAll
  by_cases hsel : selected only "logs" ∧ a.logs.enabled
  · have hsources : (a.logs.sources.zipIdx.map fun s => (s.1, out.source s.2)) =
        sourcesOf a out only := (if_pos hsel).symm
    rw [if_pos hsel, if_pos hsel, if_pos hsel.2, if_pos hsel.2, hsources]
    exact shipUnits_listed hunits hnodup fun x _ => by rw [h]
  · have hsources : sourcesOf a out only = [] := if_neg hsel
    rw [if_neg hsel, if_neg hsel, hsources]
    exact inStep_pure (by simp)

lemma hostUnits_listed (huncut : Uncut out) (hdel : AllDelivered out) :
    InStep (hostUnits lib u (withDryRun ctx true) a out only)
      (hostUnits lib u (withDryRun ctx false) a out only) s t
      (fun l l' _ _ => l.map listed = l'.map listed ∧ MetricsEnd ctx a out only)
      (FailUnless (MetricsEnd ctx a out only)) := by
  unfold hostUnits MetricsEnd
  by_cases hsel : selected only "hostmetrics" ∧ a.hostmetrics.enabled
  · rw [if_pos hsel, if_pos hsel]
    refine InStep.bind (shipMetrics_listed huncut.host hdel.host) ?_
      fun _ _ _ _ h => ⟨h.1, fun h' => h.2 (h' hsel)⟩
    intro r r' s' t' h
    exact inStep_pure ⟨congrArg (fun x => [x]) h.1, fun _ => h.2⟩
  · rw [if_neg hsel, if_neg hsel]
    exact inStep_pure ⟨rfl, fun h => absurd h hsel⟩

/-- The list of a report, if it comes to a summary. -/
def lists (r : Report) : Option (List (String × Status × ℕ)) := r.units.map (·.map listed)

/-- **The two cycles**: where they come to a summary, they list the same exactly if each source
is foreseen. -/
theorem runCycle_lists (huncut : Uncut out) (hdel : AllDelivered out)
    (hcollections : (a.collections.map (·.name)).Nodup)
    (hsources : (a.logs.sources.map (·.name)).Nodup) (h : s.store = t.store) :
    InStep (runCycle lib (withDryRun ctx true) a out only collection)
      (runCycle lib (withDryRun ctx false) a out only collection) s t
      (fun r r' _ _ => lists r = lists r' ↔ (Summarised ctx a out only →
        ∀ x ∈ sourcesOf a out only,
          Foreseen lib x.2 x.1 ctx a.logs.gcDays (s.store.fileOffsets x.1.name)))
      fun _ _ _ _ => False := by
  refine InStep.tryCatch (E := FailUnless (Summarised ctx a out only))
    (InStep.bind (raising_inStep huncut.setup) ?_ fun _ _ _ _ h => ⟨h.1, fun h' => h.2 h'.setup⟩)
    (fun _ _ _ _ h => h) fun e e' s₁ t₁ ⟨⟨he, he'⟩, hnot⟩ => ?_
  swap
  · rw [if_pos he, if_pos he']
    exact inStep_pure ⟨fun _ h => absurd h hnot, fun _ => rfl⟩
  rintro _ _ s₁ t₁ ⟨⟨rfl, rfl⟩, hsetup⟩
  have hmongo := (@mongoUnits_listed lib (S3Uploader.make a.s3.bucket a.s3.pre) ctx s₁ t₁ a out only
    collection huncut hdel hcollections h).and_ensures
      (within_mongoUnits (fun _ _ _ => Quiet.keeps (quiet_extractCollection rfl)) s₁)
      (within_mongoUnits (fun _ _ _ => extractCollection_keeps) t₁)
  refine InStep.bind hmongo ?_ fun _ _ _ _ h => ⟨h.1.1, fun h' => h.1.2 h'.collections⟩
  rintro mongo mongo' s₂ t₂ ⟨⟨hmongo, hends⟩, hs₂, ht₂⟩
  have hoffsets : s₂.store.fileOffsets = t₂.store.fileOffsets :=
    (congrArg (·.fileOffsets) (hs₂.trans h)).trans ht₂.symm
  refine InStep.bind (logUnits_listed huncut hdel hsources hoffsets) ?_ fun _ _ _ _ h => h.elim
  intro logs logs' s₃ t₃ hlogs
  rw [hs₂] at hlogs
  refine InStep.bind (hostUnits_listed huncut hdel) ?_
    fun _ _ _ _ h => ⟨h.1, fun h' => h.2 h'.metrics⟩
  rintro host host' s₄ t₄ ⟨hhost, hmetrics⟩
  refine InStep.bind (raising_inStep huncut.record) ?_
    fun _ _ _ _ h => ⟨h.1, fun h' => h.2 h'.record⟩
  rintro _ _ s₅ t₅ ⟨-, hrecord⟩
  refine inStep_pure ?_
  have hsummary : Summarised ctx a out only := ⟨hsetup, hends, hmetrics, hrecord⟩
  simp only [lists, Option.map_some, Option.some.injEq, List.map_append, hmongo, hhost,
    List.append_cancel_left_eq, List.append_cancel_right_eq, hlogs]
  exact ⟨fun h _ => h, fun h => h hsummary⟩

/-- The operations on spool files succeed, in all units. -/
structure AllLocal (out : Outside) : Prop where
  collection : ∀ i, LocalFiles (out.collection i)
  source : ∀ i, LocalFiles (out.source i)
  host : LocalFiles out.host

variable (lib ctx a out only collection) in
/-- A dry run from a stored state changes nothing that lasts, leaves no spool file where the
operations on spool files succeed, and lists what the real run lists. -/
structure Foretells (st : State.StateStore) : Prop where
  journal : (exec (runCycle lib (withDryRun ctx true) a out only collection)
    (World.start st)).2.journal = []
  spool : AllLocal out → ∀ path, (exec (runCycle lib (withDryRun ctx true) a out only collection)
    (World.start st)).2.spool path = none
  lists : ∃ r r',
    (exec (runCycle lib (withDryRun ctx true) a out only collection) (World.start st)).1 = .ok r ∧
    (exec (runCycle lib (withDryRun ctx false) a out only collection) (World.start st)).1 = .ok r' ∧
    lists r = lists r'

/-- **A dry run foretells the real run exactly if its sources are foreseen**, where the uploads
and the state writes of the real run succeed. -/
theorem dry_run_foretells_iff (huncut : Uncut out)
    (hclose : ∀ i, (out.collection i).fault .cursorClose = none) (hdel : AllDelivered out)
    (hcollections : (a.collections.map (·.name)).Nodup)
    (hsources : (a.logs.sources.map (·.name)).Nodup) (st : State.StateStore) :
    Foretells lib ctx a out only collection st ↔ (Summarised ctx a out only →
      ∀ x ∈ sourcesOf a out only,
        Foreseen lib x.2 x.1 ctx a.logs.gcDays (st.fileOffsets x.1.name)) := by
  obtain ⟨r, r', w, w', hr, hr', hiff⟩ := (@runCycle_lists lib ctx (World.start st) (World.start st)
    a out only collection huncut hdel hcollections hsources rfl).values
  constructor
  · rintro ⟨-, -, r₁, r₁', h₁, h₁', hlists⟩
    obtain rfl := Except.ok.inj ((congrArg Prod.fst hr).symm.trans h₁)
    obtain rfl := Except.ok.inj ((congrArg Prod.fst hr').symm.trans h₁')
    exact hiff.mp hlists
  · intro h
    refine ⟨?_, fun hlocal path => ?_, r, r', congrArg Prod.fst hr, congrArg Prod.fst hr',
      hiff.mpr h⟩
    · have hquiet : Ensures (runCycle lib (withDryRun ctx true) a out only collection)
          (World.start st) _ := quiet_runCycle rfl _
      exact hquiet.2
    · have htidy : Ensures (runCycle lib (withDryRun ctx true) a out only collection)
          (World.start st) fun _ w => Tidy (World.start st) w :=
        runCycle_tidy rfl (fun i => ⟨hlocal.collection i, huncut.collection i, hclose i⟩)
          hlocal.source hlocal.host _
      rcases htidy path with h | h <;> exact h

/-! ### A cutoff before the first day -/

/-- A document with one log source. -/
def sampleToml (gcDays : ℤ) : Table :=
  [("agent", .table [("state_db", .str "state.db"), ("spool_dir", .str "spool")]),
    ("s3", .table [("bucket", .str "landing")]),
    ("mongo", .table [("enabled", .bool false)]),
    ("logs", .table [("gc_days", .int gcDays), ("sources", .array [.table
      [("name", .str "web"), ("path_glob", .str "*.log")]])]),
    ("hostmetrics", .table [("enabled", .bool false)])]

def sampleAgent (gcDays : ℤ) : AgentConfig where
  stateDb := "state.db"
  spoolDir := "spool"
  logDir := "logs"
  logLevel := "WARNING"
  mongoEnabled := false
  mongo := none
  collections := []
  s3 := { bucket := "landing" }
  logs := { sources := [{ name := "web", pathGlob := "*.log" }], gcDays := gcDays }
  hostmetrics := { enabled := false }

/-- There is one file, with one line, and nothing fails. -/
def sampleOutside : Outside where
  setup := none
  conn := sampleConnection
  collection _ := calmReads [] sampleNow
  source _ := calmEnv (AList.singleton "a.log" ⟨[97, 10], 0, true⟩) sampleNow
  host := calmReads [] sampleNow
  metrics := []
  record := none

lemma sampleOutside_uncut : Uncut sampleOutside where
  setup _ h := by cases h
  conn := ⟨fun _ h => (by cases h), fun _ _ h => (by cases h), fun _ h => by cases h⟩
  collection _ _ _ h := by cases h
  source _ _ _ h := by cases h
  host _ _ h := by cases h
  record _ h := by cases h

lemma sampleOutside_delivered : AllDelivered sampleOutside where
  collection _ := ⟨fun _ => rfl, fun _ => rfl, fun _ => rfl, fun _ => rfl, fun _ => rfl,
    fun _ => rfl, fun _ _ => rfl⟩
  source _ := ⟨fun _ => rfl, fun _ => rfl, fun _ => rfl, fun _ => rfl, fun _ => rfl, fun _ => rfl,
    fun _ _ => rfl⟩
  host := ⟨fun _ => rfl, fun _ => rfl, fun _ => rfl, fun _ => rfl, fun _ => rfl, fun _ => rfl,
    fun _ _ => rfl⟩

theorem dry_run_foretells_sample :
    Foretells plainLibs sampleCtx (sampleAgent 14) sampleOutside none none .empty := by
  refine (dry_run_foretells_iff sampleOutside_uncut (fun _ => rfl) sampleOutside_delivered
    (by decide) (by decide) _).mpr fun _ x hx => ?_
  obtain rfl := List.mem_singleton.mp hx
  intro _
  decide +kernel

/-- A million days ago is no date: the dry run lists the source as `ok`, and the real run lists it
as failed. -/
theorem dry_run_misses_cutoff :
    loadConfig "logs" "agent.toml" (.ok (sampleToml 1000000)) = .ok (sampleAgent 1000000) ∧
    (exec (runCycle plainLibs (withDryRun sampleCtx true) (sampleAgent 1000000) sampleOutside none
      none) (World.start .empty)).1.toOption.bind lists = some [("web", .ok, 1)] ∧
    (exec (runCycle plainLibs (withDryRun sampleCtx false) (sampleAgent 1000000) sampleOutside none
      none) (World.start .empty)).1.toOption.bind lists = some [("web", .failed, 0)] ∧
    ¬ Foretells plainLibs sampleCtx (sampleAgent 1000000) sampleOutside none none .empty := by
  have hdry : (exec (runCycle plainLibs (withDryRun sampleCtx true) (sampleAgent 1000000)
      sampleOutside none none) (World.start .empty)).1.toOption.bind lists =
        some [("web", .ok, 1)] := by decide +kernel
  have hreal : (exec (runCycle plainLibs (withDryRun sampleCtx false) (sampleAgent 1000000)
      sampleOutside none none) (World.start .empty)).1.toOption.bind lists =
        some [("web", .failed, 0)] := by decide +kernel
  refine ⟨rfl, hdry, hreal, fun ⟨_, _, r, r', hr, hr', hlists⟩ => ?_⟩
  rw [hr] at hdry
  rw [hr'] at hreal
  have heq : some [("web", Status.ok, 1)] = some [("web", Status.failed, 0)] :=
    hdry.symm.trans (hlists.trans hreal)
  exact absurd heq (by decide)

end MongoSyncAgent.DryRun
