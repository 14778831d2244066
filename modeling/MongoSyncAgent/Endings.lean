import MongoSyncAgent.Isolation
import MongoSyncAgent.LogRuns
import MongoSyncAgent.SpoolFiles

/-!
What a unit that is reported as failed has stored.

Up to the commit a unit only uploads, so whatever fails until then leaves the store alone. After
it come the steps that clean up: the stale offsets of a source, and the spool file. A failure
there is reported too, of a unit whose upload and commit are done.
-/

namespace MongoSyncAgent.Endings

open MongoSyncAgent.Py MongoSyncAgent.Config MongoSyncAgent.State MongoSyncAgent.Runtime
open MongoSyncAgent.Sinks MongoSyncAgent.Watermarks MongoSyncAgent.Sources MongoSyncAgent.Outcomes
open MongoSyncAgent.Keys MongoSyncAgent.Cycle MongoSyncAgent.Isolation MongoSyncAgent.SpoolFiles

variable {lib : Libs} {env : Env} {u : S3Uploader} {ctx : RunContext} {path : Path}

/-! ### What leaves the store alone -/

lemma keeps_put (p : Put) : Keeps World.store (emit (.put p)) := by
  intro w
  refine ensures_emit ?_
  show replay w.initial (w.journal ++ [.put p]) = w.store
  rw [replay_append]
  rfl

lemma keeps_tryUpload {key : String} : Keeps World.store (tryUpload lib env u path key) := by
  have hput : Keeps World.store (putObject env path key) := by
    refine .bind (within_call _) fun _ => .bind within_get fun w => ?_
    rcases w.spool path with _ | content
    · exact within_throw _
    · exact .bind (keeps_put _) fun _ => .bind (within_call _) fun _ => within_pure _
  refine .tryCatch (.bind ?_ fun _ => within_pure _) fun e =>
    .ite (within_pure _) (within_throw e)
  refine .bind (within_call _) fun _ => .bind (.tryCatch ?_ fun e => ?_) fun _ => within_pure _
  · exact .bind hput fun _ => .bind (within_call _) fun _ => within_pure _
  · exact .ite (within_throw _) (within_throw _)

lemma unlink_raises (w : World) : Ensures (unlink env path) w fun r _ =>
    ∀ e, r = .error e → env.fault (.unlinkSpool path) = some e := by
  unfold unlink call
  rcases env.fault (.unlinkSpool path) with _ | e
  · exact fun e he => by cases he
  · exact fun e' he => congrArg some (Except.error.inj he)

/-! ### Collections -/

section Extract

open MongoSyncAgent.Extract

variable {cfg : CollectionConfig} {dbName : String} {w : World} {p : Progress}

/-- A commit that fails has not happened. -/
lemma commitWatermark_store {strategy : Strategy} :
    Ensures (commitWatermark lib env cfg ctx dbName strategy) w fun r w' =>
      w'.store = w.store ∨ r = .ok () := by
  unfold commitWatermark
  simp only [ensures_bind]
  refine ensures_lift ?_
  rcases strategy.newWatermark lib.text with e | _ | value
  · exact .inl rfl
  · exact .inl rfl
  simp only [ensures_bind]
  refine ensures_call (fun e => .inl rfl) fun _ => ?_
  exact ensures_emit (.inr rfl)

/-- What follows the loop of an extraction fails before the commit, or in deleting the file. -/
lemma deliver_store : Ensures (deliver lib env cfg u ctx dbName p) w fun r w' =>
    w'.store = w.store ∨
      Asks (·.status = .ok) (fun e => env.fault (.unlinkSpool p.sink.path) = some e) r := by
  unfold deliver ParquetVariantSink.close
  simp only [ensures_bind]
  refine ensures_call (fun e => .inl rfl) fun _ => ?_
  simp only [ensures_get, ensures_pure]
  by_cases hdry : ctx.dryRun
  · rw [if_pos hdry, ensures_bind]
    refine (quiet_unlink p.sink.path w).mono fun r w₁ h₁ => ?_
    cases r <;> exact .inl h₁.store
  rw [if_neg hdry]
  refine Ensures.bind (keeps_tryUpload w) (fun e w₁ h₁ => .inl h₁) ?_
  rintro (e | res) w₁ h₁
  · simp only
    refine Ensures.bind (quiet_abort p.sink.path w₁) (fun e w₂ h₂ => ?_) fun _ w₂ h₂ => ?_ <;>
      exact .inl (h₂.store.trans h₁)
  simp only
  refine Ensures.bind commitWatermark_store (fun e w₂ h₂ => ?_) fun _ w₂ _ => ?_
  · exact .inl ((h₂.resolve_right (by simp)).trans h₁)
  rw [ensures_bind]
  refine (unlink_raises w₂).mono fun r w₃ h₃ => ?_
  rcases r with e | _
  · exact .inr (h₃ e rfl)
  · exact .inr rfl

/-- The spool file of a collection. -/
def collectionSpool (ctx : RunContext) (cfg : CollectionConfig) : Path :=
  spoolPath ctx.spoolDir (spoolUnit cfg) "parquet"

/-- An extraction fails before the commit, or in deleting the file. -/
lemma extractCollection_store : Ensures (extractCollection lib env cfg u ctx dbName) w
    fun r w' => w'.store = w.store ∨ Asks (·.status ≠ .failed)
      (fun e => env.fault (.unlinkSpool (collectionSpool ctx cfg)) = some e) r := by
  refine ensures_extractCollection (fun e => .inl rfl) fun filter _ => ?_
  refine readCursor_ensures.mono fun r w₁ ⟨hread, hp⟩ => ?_
  rcases r with e | p
  · exact .inl hread.store
  have hpath : p.sink.path = collectionSpool ctx cfg := (hp p rfl).1
  show if p.sink.rows = 0 then _ else _
  split_ifs
  · refine (quiet_abort _ w₁).mono fun r w₂ h₂ => ?_
    rcases r with e | _ <;> exact .inl (h₂.store.trans hread.store)
  · refine deliver_store.mono fun r w₂ h₂ => ?_
    rw [hpath] at h₂
    rcases h₂ with h₂ | h₂
    · exact .inl (h₂.trans hread.store)
    · rcases r with e | res
      · exact .inr h₂
      · exact .inr (by simp [Asks, show res.status = .ok from h₂])

end Extract

/-! ### Log sources -/

section Ship

open MongoSyncAgent.Ship

variable {source : LogSourceConfig} {gcDays : ℤ} {parts : List Part} {w : World}

/-- What can fail after the offsets of a source are committed. -/
def CleanupRaises (env : Env) (source : String) (gcDays : ℤ) (path : Path) (e : Exc) : Prop :=
  (days gcDays >>= fun delta => (env.clock (.gcNow source)).sub delta) = .error e ∨
    env.fault (.gcOffsets source) = some e ∨
    (∃ key, env.fault (.deleteOffset source key) = some e) ∨ env.fault (.unlinkSpool path) = some e

lemma gcLoop_raises {name : String} {current : List String} {cutoff : Timestamps.Datetime}
    (items : List (String × FileOffset)) :
    Ensures (gcLoop env name current cutoff items) w fun r _ =>
      ∀ e, r = .error e → ∃ key, env.fault (.deleteOffset name key) = some e := by
  induction items generalizing w with
  | nil => exact fun e he => by cases he
  | cons item rest ih =>
    unfold gcLoop
    split_ifs
    · rw [ensures_bind]
      unfold call
      rcases hf : env.fault (.deleteOffset name item.1) with _ | e
      · simp only [ensures_pure, ensures_bind]
        refine ensures_emit (ih.mono fun r w' hr => ?_)
        rcases r with e | n
        · exact hr
        · exact fun e he => by cases he
      · intro e' he
        exact ⟨item.1, hf.trans (congrArg some (Except.error.inj he))⟩
    · exact ih

lemma gcOffsets_raises (path : Path) {name : String} {current : List String} :
    Ensures (gcOffsets env name current gcDays) w fun r _ =>
      ∀ e, r = .error e → CleanupRaises env name gcDays path e := by
  unfold gcOffsets CleanupRaises
  rw [ensures_bind]
  refine ensures_lift ?_
  rcases hdays : days gcDays with e | delta
  · exact fun e' he => .inl (congrArg Except.error (Except.error.inj he))
  simp only [ensures_bind, ok_bind]
  refine ensures_lift ?_
  rcases (env.clock (.gcNow name)).sub delta with e | cutoff
  · exact fun e' he => .inl (congrArg Except.error (Except.error.inj he))
  simp only
  unfold call
  rcases env.fault (.gcOffsets name) with _ | e
  · simp only [ensures_pure, ensures_get]
    exact (gcLoop_raises _).mono fun r _ hr e he => .inr (.inr (.inl (hr e he)))
  · exact fun e' he => .inr (.inl (congrArg some (Except.error.inj he)))

/-- What a source has stored after its commit. -/
def Committed (env : Env) (source : LogSourceConfig) (parts : List Part) (w w' : World) : Prop :=
  ∃ deletes, Deletions source.name (currentKeys parts) deletes ∧
    w'.store = replay (w.store.setOffsets source.name (offsetsToCommit env parts)
      (env.clock (.setOffsets source.name))) deletes

/-- A commit that fails has not happened, or what follows it fails. -/
lemma commit_store : Ensures (commit env source gcDays parts path) w fun r w' =>
    (w'.store = w.store ∧ r ≠ .ok ()) ∨ Committed env source parts w w' ∧
      ∀ e, r = .error e → CleanupRaises env source.name gcDays path e := by
  unfold commit setOffsets
  rw [ensures_bind, ensures_bind]
  refine ensures_call (fun e => .inl ⟨rfl, by simp⟩) fun _ => ?_
  refine ensures_emit ?_
  have hcommitted : ∀ {j w₁}, Wrote { w with journal := w.journal ++ [.setOffsets source.name
      (offsetsToCommit env parts) (env.clock (.setOffsets source.name))] } w₁ j →
      Deletions source.name (currentKeys parts) j → Committed env source parts w w₁ := by
    exact fun hj hdel => ⟨_, hdel, hj.cons.store⟩
  refine Ensures.bind ((gcOffsets_ensures _ _ _).and (gcOffsets_raises path)) ?_ ?_
  · rintro e w₁ ⟨⟨j, hj, hdel⟩, hraises⟩
    refine .inr ⟨hcommitted hj hdel, fun e' he => ?_⟩
    exact hraises e' (congrArg Except.error (Except.error.inj he))
  rintro n w₁ ⟨⟨j, hj, hdel⟩, -⟩
  refine (quiet_unlink path w₁ |>.and (unlink_raises w₁)).mono fun r w₂ ⟨h₂, hraises⟩ => ?_
  refine .inr ⟨hcommitted (by simpa using hj.trans h₂) hdel, fun e he => ?_⟩
  exact .inr (.inr (.inr (hraises e he)))

lemma shipDeliver_store : Ensures (deliver lib env source u ctx gcDays parts path) w fun r w' =>
    (w'.store = w.store ∧ ∀ res, r = .ok res → res.status = .failed ∨ ctx.dryRun = true) ∨
      Committed env source parts w w' ∧
        Asks (·.status = .ok) (CleanupRaises env source.name gcDays path) r := by
  have herr : ∀ (e : Exc) (w' : World), w'.store = w.store →
      (w'.store = w.store ∧ ∀ res : UnitResult, (Except.error e : Except Exc UnitResult) = .ok res →
        res.status = .failed ∨ ctx.dryRun = true) ∨ Committed env source parts w w' ∧
          Asks (·.status = .ok) (CleanupRaises env source.name gcDays path)
            (Except.error e : Except Exc UnitResult) :=
    fun e w' h => .inl ⟨h, fun _ hr => by cases hr⟩
  unfold deliver
  simp only [writeRows_eq]
  refine ensures_filled (fun e w₁ h₁ => herr e w₁ h₁.store) fun result w₃ h₃ _ => ?_
  have h₀ : w₃.store = w.store := h₃.store
  by_cases hdry : ctx.dryRun
  · rw [if_pos hdry, ensures_bind]
    refine (quiet_unlink path w₃).mono fun r w₄ h₄ => ?_
    rcases r with e | _
    · exact herr e w₄ (h₄.store.trans h₀)
    · exact .inl ⟨h₄.store.trans h₀, fun _ _ => .inr hdry⟩
  rw [if_neg hdry]
  refine Ensures.bind (keeps_tryUpload w₃) (fun e w₄ h₄ => herr e w₄ (h₄.trans h₀)) ?_
  rintro (e | res) w₄ h₄
  · simp only
    refine Ensures.bind (quiet_abort path w₄) (fun e w₅ h₅ => ?_) fun _ w₅ h₅ => ?_
    · exact herr e w₅ (h₅.store.trans (h₄.trans h₀))
    · refine .inl ⟨h₅.store.trans (h₄.trans h₀), fun res hr => ?_⟩
      obtain rfl := Except.ok.inj hr
      exact .inl rfl
  simp only
  have hcommitted : ∀ {w₅}, Committed env source parts w₄ w₅ → Committed env source parts w w₅ := by
    rintro w₅ ⟨deletes, hdel, h₅⟩
    exact ⟨deletes, hdel, by rw [h₅, h₄.trans h₀]⟩
  refine Ensures.bind commit_store (fun e w₅ h₅ => ?_) fun _ w₅ h₅ => ?_
  · rcases h₅ with ⟨h₅, -⟩ | ⟨h₅, hraises⟩
    · exact herr e w₅ (h₅.trans (h₄.trans h₀))
    · exact .inr ⟨hcommitted h₅, hraises e rfl⟩
  · rcases h₅ with ⟨-, hne⟩ | ⟨h₅, -⟩
    · exact absurd rfl hne
    · exact .inr ⟨hcommitted h₅, rfl⟩

/-- The spool file of a source. -/
def sourceSpool (ctx : RunContext) (source : LogSourceConfig) : Path :=
  spoolPath ctx.spoolDir source.name "jsonl.gz"

/-- A run of a source fails before the commit, or in cleaning up; one that neither fails nor
commits has nothing to ship. -/
theorem shipSource_store : Ensures (shipSource lib env source u ctx gcDays) w fun r w' =>
    (w'.store = w.store ∧ ∀ res, r = .ok res → res.status = .failed ∨ ctx.dryRun = true ∨
      ∃ parts, drainPlans lib env source
          (discover lib env source (w.store.fileOffsets source.name)) = .ok parts ∧
        recordsOf env source ctx parts = []) ∨
      (∃ parts, drainPlans lib env source
          (discover lib env source (w.store.fileOffsets source.name)) = .ok parts ∧
        Committed env source parts w w') ∧
        Asks (·.status = .ok)
          (CleanupRaises env source.name gcDays (sourceSpool ctx source)) r := by
  refine ensures_shipSource (fun e _ => .inl ⟨rfl, fun _ hr => by cases hr⟩)
    (fun _ e _ => .inl ⟨rfl, fun _ hr => by cases hr⟩) fun _ parts hparts => ?_
  rw [hparts]
  split_ifs with hne
  · exact .inl ⟨rfl, fun _ _ => .inr (.inr ⟨parts, rfl, hne⟩)⟩
  · refine shipDeliver_store.mono fun r w' h => ?_
    rcases h with ⟨hstore, hr⟩ | ⟨hcommitted, hr⟩
    · refine .inl ⟨hstore, fun res hres => ?_⟩
      rcases hr res hres with hf | hdry
      · exact .inl hf
      · exact .inr (.inl hdry)
    · exact .inr ⟨⟨parts, rfl, hcommitted⟩, hr⟩

end Ship

/-! ### Units that are reported as failed -/

open MongoSyncAgent.Extract in
/-- What a collection that is reported as failed leaves: the store as it was, or an upload and a
commit that went through, before the spool file could not be deleted. -/
inductive CollectionLeft (lib : Libs) (u : S3Uploader) (ctx : RunContext) (dbName : String)
    (c : CollectionConfig × Env) (w : World) (res : UnitResult) (w' : World) : Prop
  | unchanged (h : w'.store = w.store)
  | committed {filter groups strategy value e}
    (hfilter : filterFor c.1 (w.store.watermarks (namespaceOf c.1 dbName)) = .ok filter)
    (hrows : RowsOf lib c.1 ctx (c.2.find filter (makeStrategy c.1).sortSpec) groups.flatten)
    (hobs : (makeStrategy c.1).observeAll lib.text
      (c.2.find filter (makeStrategy c.1).sortSpec) = .ok strategy)
    (hwm : strategy.newWatermark lib.text = .ok (some value))
    (hw : Wrote w w' [.put ⟨mongoKey u.pre dbName c.1.name ctx.runDt, .parquet groups⟩,
      .setWatermark (namespaceOf c.1 dbName) ⟨(makeStrategy c.1).kind, value,
        c.2.clock (.setWatermark (namespaceOf c.1 dbName)), ctx.runId⟩])
    (he : c.2.fault (.unlinkSpool (collectionSpool ctx c.1)) = some e)
    (htext : res.error = some e.text)

open MongoSyncAgent.Ship in
/-- What a source that is reported as failed leaves: the store as it was, or an upload and a
commit that went through, before cleaning up failed. -/
inductive SourceLeft (lib : Libs) (u : S3Uploader) (ctx : RunContext) (gcDays : ℤ)
    (s : LogSourceConfig × Env) (w : World) (res : UnitResult) (w' : World) : Prop
  | unchanged (h : w'.store = w.store)
  | committed {parts deletes e}
    (hparts : drainPlans lib s.2 s.1
      (discover lib s.2 s.1 (w.store.fileOffsets s.1.name)) = .ok parts)
    (hdel : Deletions s.1.name (currentKeys parts) deletes)
    (hw : Wrote w w'
      (.put ⟨logsKey u.pre s.1.name ctx.runDt, .ndjson (recordsOf s.2 s.1 ctx parts)⟩ ::
        .setOffsets s.1.name (offsetsToCommit s.2 parts) (s.2.clock (.setOffsets s.1.name)) ::
          deletes))
    (he : CleanupRaises s.2 s.1.name gcDays (sourceSpool ctx s.1) e)
    (htext : res.error = some e.text)

/-- The body of the loop of `extract_all`, for a collection and what it meets. -/
def collectionUnit (lib : Libs) (u : S3Uploader) (ctx : RunContext) (conn : Connection)
    (dbName : String) (c : CollectionConfig × Env) : M UnitResult :=
  extractUnit lib u ctx conn dbName c.1 c.2

/-- The body of the loop of `ship_all`. -/
def sourceUnit (lib : Libs) (u : S3Uploader) (ctx : RunContext) (gcDays : ℤ)
    (s : LogSourceConfig × Env) : M UnitResult :=
  isolating s.1.name (Ship.shipSource lib s.2 s.1 u ctx gcDays)

/-- The runs of some units, each from the world that the one before it has left, and what holds of
those that are reported as failed. -/
inductive Failing {α : Type} (unit : α → M UnitResult)
    (left : α → World → UnitResult → World → Prop) :
    World → List α → List UnitResult → World → Prop
  | nil {w} : Failing unit left w [] [] w
  | cons {w w₁ w₂ a as res results} (hrun : exec (unit a) w = (.ok res, w₁))
    (h : res.status = .failed → left a w res w₁)
    (hrest : Failing unit left w₁ as results w₂) :
    Failing unit left w (a :: as) (res :: results) w₂

/-- The report of a unit that was isolated. -/
lemma isolating_left {unit : String} {body : M UnitResult} {w : World}
    {left : UnitResult → World → Prop} (h : Ensures body w fun r w' =>
      Asks (fun res => res.status = .failed → left res w')
        (fun e => left (failedUnit unit e.text) w') r) :
    Ensures (isolating unit body) w fun r w' =>
      ∀ res, r = .ok res → res.status = .failed → left res w' := by
  unfold isolating
  rw [ensures_tryCatch]
  refine h.mono fun r w' hr => ?_
  rcases r with e | res
  · simp only
    split_ifs
    · intro res hres _
      obtain rfl := Except.ok.inj hres
      exact hr
    · exact fun res hres => by cases hres
  · intro res' hres
    obtain rfl := Except.ok.inj hres
    exact hr

lemma failing_units {α : Type} {left : α → World → UnitResult → World → Prop}
    (unit : α → M UnitResult) {rest : M (List UnitResult)} {a : α} {as : List α} {w : World}
    (hunit : Ensures (unit a) w fun r w' =>
      ∀ res, r = .ok res → res.status = .failed → left a w res w')
    (hrest : ∀ w₁, Ensures rest w₁ fun r w' => ∀ results, r = .ok results →
      Failing unit left w₁ as results w') :
    Ensures (do let result ← unit a; return result :: (← rest)) w fun r w' =>
      ∀ results, r = .ok results → Failing unit left w (a :: as) results w' := by
  have hruns : Ensures (unit a) w fun r w' => exec (unit a) w = (r, w') := rfl
  refine Ensures.bind (hruns.and hunit) (fun e w₁ _ _ hr => by cases hr) fun res w₁ h₁ => ?_
  refine Ensures.bind (hrest w₁) (fun e w₂ _ _ hr => by cases hr) fun results w₂ h₂ => ?_
  intro results' hr
  obtain rfl := Except.ok.inj hr
  exact .cons h₁.1 (h₁.2 res rfl) (h₂ results rfl)

section Reports

variable {dbName : String} {conn : Connection}

/-- What is left of a unit, if that does not depend on how it ended. -/
lemma asks_left {left : UnitResult → Prop} {unit : String} {r : Except Exc UnitResult}
    (h : ∀ res, left res) : Asks (fun res => res.status = .failed → left res)
      (fun e => left (failedUnit unit e.text)) r := by
  rcases r with e | res
  · exact h _
  · exact fun _ => h res

lemma extractUnit_left {cfg : CollectionConfig} (w : World) :
    Ensures (extractUnit lib u ctx conn dbName cfg env) w fun r w' => ∀ res, r = .ok res →
      res.status = .failed → CollectionLeft lib u ctx dbName (cfg, env) w res w' := by
  unfold extractUnit
  split_ifs
  · exact fun _ _ _ => .unchanged rfl
  refine isolating_left ?_
  rw [ensures_bind]
  refine ensures_raising (fun e => .unchanged rfl) ?_
  refine (Extract.extractCollection_ensures.and extractCollection_store).mono ?_
  rintro r w' ⟨hex, hstore⟩
  rcases hstore with hsame | hafter
  · exact asks_left fun _ => .unchanged hsame
  rcases r with e | res
  · rcases hex with ⟨-, hw⟩ | ⟨filter, j, hfilter, hw, hex⟩
    · exact asks_left fun _ => .unchanged hw.store
    cases hex with
    | nothing => exact asks_left fun _ => .unchanged hw.store
    | uploaded => exact asks_left fun _ => .unchanged hw.store
    | committed _ hrows hobs hwm => exact .committed hfilter hrows hobs hwm hw hafter rfl
  · exact fun hfailed => absurd hfailed hafter

lemma shipSource_left {source : LogSourceConfig} {gcDays : ℤ} (w : World) :
    Ensures (isolating source.name (Ship.shipSource lib env source u ctx gcDays)) w fun r w' =>
      ∀ res, r = .ok res → res.status = .failed →
        SourceLeft lib u ctx gcDays (source, env) w res w' := by
  refine isolating_left ((Ship.shipSource_ensures.and shipSource_store).mono ?_)
  rintro r w' ⟨hship, hstore⟩
  rcases hstore with ⟨hsame, -⟩ | ⟨-, hafter⟩
  · exact asks_left fun _ => .unchanged hsame
  rcases r with e | res
  · rcases hship with hw | ⟨parts, j, hparts, hw, hship⟩
    · exact asks_left fun _ => .unchanged hw.store
    cases hship with
    | nothing => exact asks_left fun _ => .unchanged hw.store
    | uploaded => exact asks_left fun _ => .unchanged hw.store
    | committed _ _ hdel => exact .committed hparts hdel hw hafter rfl
  · intro hfailed
    have hok : res.status = .ok := hafter
    rw [hok] at hfailed
    cases hfailed

lemma extractUnits_left {collections : Collections} (w : World) :
    Ensures (extractUnits lib u ctx conn dbName collections) w fun r w' =>
      ∀ results, r = .ok results → Failing (collectionUnit lib u ctx conn dbName)
        (CollectionLeft lib u ctx dbName) w collections results w' := by
  induction collections generalizing w with
  | nil =>
    intro results hr
    obtain rfl := Except.ok.inj hr
    exact .nil
  | cons c collections ih =>
    exact failing_units (collectionUnit lib u ctx conn dbName) (extractUnit_left w) ih

lemma shipUnits_left {gcDays : ℤ} {sources : LogSources} (w : World) :
    Ensures (shipUnits lib u ctx gcDays sources) w fun r w' => ∀ results, r = .ok results →
      Failing (sourceUnit lib u ctx gcDays) (SourceLeft lib u ctx gcDays) w sources results w' := by
  induction sources generalizing w with
  | nil =>
    intro results hr
    obtain rfl := Except.ok.inj hr
    exact .nil
  | cons s sources ih =>
    exact failing_units (sourceUnit lib u ctx gcDays) (shipSource_left w) ih

lemma extractAll_left {collections : Collections} (w : World) :
    Ensures (extractAll lib u ctx conn dbName collections) w fun r w' =>
      ∀ results, r = .ok results → conn.connect ≠ .ok true ∧ w' = w ∨
        Failing (collectionUnit lib u ctx conn dbName) (CollectionLeft lib u ctx dbName) w
          collections results w' := by
  unfold extractAll
  rcases conn.connect with e | _ | _
  · simp only
    split_ifs
    · exact fun _ _ => .inl ⟨by simp, rfl⟩
    · exact fun _ hr => by cases hr
  · exact fun _ _ => .inl ⟨by simp, rfl⟩
  simp only
  unfold closingClient
  rw [ensures_bind, ensures_tryCatch]
  refine (extractUnits_left w).mono fun r w₁ h₁ => ?_
  rcases r with e | results
  · simp only
    rw [ensures_bind]
    exact ensures_raising (fun e _ hr => by cases hr) fun _ hr => by cases hr
  · simp only
    rw [ensures_bind]
    refine ensures_raising (fun e _ hr => by cases hr) fun results' hr => ?_
    obtain rfl := Except.ok.inj hr
    exact .inr (h₁ results rfl)

/-- **What a failed unit leaves.** Without a connection no collection runs and nothing changes.
Otherwise the units run one after the other, and a collection or a source that is reported as
failed has left the store as it was, or its upload and its commit went through and a step after
the commit failed. -/
theorem failed_units (w : World) :
    (∀ conn dbName collections, Ensures (extractAll lib u ctx conn dbName collections) w
      fun r w' => ∀ results, r = .ok results → conn.connect ≠ .ok true ∧ w' = w ∨
        Failing (collectionUnit lib u ctx conn dbName) (CollectionLeft lib u ctx dbName) w
          collections results w') ∧
    ∀ enabled gcDays sources, Ensures (shipAll lib u ctx enabled gcDays sources) w
      fun r w' => ∀ results, r = .ok results →
        Failing (sourceUnit lib u ctx gcDays) (SourceLeft lib u ctx gcDays) w
          (if enabled then sources else []) results w' := by
  refine ⟨fun conn dbName collections => extractAll_left w, fun enabled gcDays sources => ?_⟩
  unfold shipAll
  cases enabled with
  | true => exact shipUnits_left w
  | false =>
    intro results hr
    obtain rfl := Except.ok.inj hr
    exact .nil

end Reports

/-! ### A spool file that another process holds -/

/-- The spool files can be written and uploaded, but not deleted. -/
def holdingSpools (env : Env) : Env :=
  { env with fault := fun
      | .unlinkSpool p => some ⟨.osError, "access denied: " ++ p⟩
      | c => env.fault c }

/-- Both units are reported as failed, and both have stored where they have come to. -/
theorem failed_after_commit :
    let collections := exec (extractAll plainLibs sampleUploader sampleCtx sampleConnection "db"
      [(sampleCollection "jobs", holdingSpools samplePlain.2)]) (World.start .empty)
    let sources := exec (shipAll plainLibs sampleUploader sampleCtx true 14
      [(LogRuns.sampleSource, holdingSpools
        (calmEnv (AList.singleton "a.log" ⟨[0x61, 0x0A], 0, true⟩) sampleNow))])
      (World.start .empty)
    (collections.1.toOption.map (·.map (·.status)) = some [.failed] ∧
      collections.2.initial.watermarks "mongo:db.jobs" = none ∧
      (collections.2.store.watermarks "mongo:db.jobs").map (·.value) =
        some "000000000000000000000007") ∧
    sources.1.toOption.map (·.map (·.status)) = some [.failed] ∧
      (sources.2.initial.fileOffsets "web").lookup "path:a.log" = none ∧
      ((sources.2.store.fileOffsets "web").lookup "path:a.log").map (·.offset) = some 2 := by
  decide +kernel

end MongoSyncAgent.Endings
