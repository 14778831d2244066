import MongoSyncAgent.Drain
import MongoSyncAgent.Sinks
import MongoSyncAgent.Sources

/-!
Shipping one log source: drain its files, upload the lines, and only then commit the offsets.
-/

namespace MongoSyncAgent.Ship

open MongoSyncAgent.Py MongoSyncAgent.Config MongoSyncAgent.State MongoSyncAgent.Runtime
open MongoSyncAgent.Tailer MongoSyncAgent.Drain MongoSyncAgent.Sinks MongoSyncAgent.Sources
open MongoSyncAgent.Keys MongoSyncAgent.Outcomes MongoSyncAgent.Lines MongoSyncAgent.Codecs

variable (lib : Libs) (env : Env) (source : LogSourceConfig)

/-! ### Collecting -/

/-- A plan and what draining its file gave. -/
structure Part where
  plan : TailPlan
  chunks : List TailChunk

/-- `drain_file(plan.path, plan.start_offset, ...)`. -/
def drainPlan (plan : TailPlan) : Except Exc (List TailChunk) :=
  drainFile lib.codecs (fun offset => (env.file (.tail plan.path offset) plan.path).map (·.data))
    plan.startOffset source.encoding source.maxBytesPerPoll

/-- The loop over the plans. -/
def drainPlans : List TailPlan → Except Exc (List Part)
  | [] => .ok []
  | plan :: rest => do
    let chunks ← drainPlan lib env source plan
    return ⟨plan, chunks⟩ :: (← drainPlans rest)

/-- `offset`, after the loop over the chunks. -/
def Part.endOffset (part : Part) : ℕ :=
  part.chunks.foldl (fun _ chunk => chunk.newOffset) part.plan.startOffset

def chunkRecords (ctx : RunContext) (plan : TailPlan) (chunk : TailChunk) : List LogRecord :=
  chunk.lines.map fun line =>
    { line, host := ctx.host, source := source.name, file := pathName plan.path,
      fileOffset := chunk.newOffset,
      shippedAt := env.clock (.shippedAt plan.path chunk.newOffset) }

def Part.records (ctx : RunContext) (part : Part) : List LogRecord :=
  part.chunks.flatMap (chunkRecords env source ctx part.plan)

/-- `records`. -/
def recordsOf (ctx : RunContext) (parts : List Part) : List LogRecord :=
  parts.flatMap (Part.records env source ctx)

/-- `new_offsets`, by the key of the plan. -/
def newOffsets (parts : List Part) : List (String × TailPlan × ℕ) :=
  dictOf (parts.map fun part => (part.plan.key, part.plan, part.endOffset))

def currentKeys (parts : List Part) : List String := parts.map (·.plan.key)

/-! ### Committing -/

/-- The record for an item of `new_offsets`; the store sets its time. -/
def offsetRecord (item : String × TailPlan × ℕ) : FileOffset :=
  let (key, plan, offset) := item
  { fingerprint := key, lastPath := plan.path, offset,
    fileSizeAtRead := ((env.file (.sizeAtRead plan.path) plan.path).map
      (·.data.length)).getD offset,
    updatedAt := none }

/-- `offsets_to_commit`. -/
def offsetsToCommit (parts : List Part) : List FileOffset :=
  (newOffsets parts).map (offsetRecord env)

def setOffsets (offsets : List FileOffset) : M Unit := do
  call env (.setOffsets source.name)
  emit (.setOffsets source.name offsets (env.clock (.setOffsets source.name)))

/-- What follows a confirmed upload: the offsets, the stale records, the spool file. -/
def commit (gcDays : ℤ) (parts : List Part) (path : Path) : M Unit := do
  setOffsets env source (offsetsToCommit env parts)
  let _ ← gcOffsets env source.name (currentKeys parts) gcDays
  unlink env path

/-! ### The source -/

/-- Steps 1 and 2: the spool file, and its upload unless this is a dry run. -/
def deliver (u : S3Uploader) (ctx : RunContext) (gcDays : ℤ) (parts : List Part)
    (path : Path) : M UnitResult := do
  let sink ← GzipNdjsonSink.open env path
  let sink ← cleaningUp (sink.writeRows env (recordsOf env source ctx parts)) (abort env path)
  let result ← sink.close lib env
  if ctx.dryRun then
    unlink env path
    return { unit := source.name, status := .ok, docs := result.rows }
  else
    match ← tryUpload lib env u path (logsKey u.pre source.name ctx.runDt) with
    | .error e =>
      abort env path
      return { unit := source.name, status := .failed, docs := result.rows, error := some e.text }
    | .ok uploadResult =>
      commit env source gcDays parts path
      return { unit := source.name, status := .ok, docs := result.rows,
               bytesUploaded := uploadResult.bytesUploaded }

/-- `ship_source`. -/
def shipSource (u : S3Uploader) (ctx : RunContext) (gcDays : ℤ) : M UnitResult := do
  call env (.getOffsets source.name)
  let w ← get
  let plans := discover lib env source (w.store.fileOffsets source.name)
  let parts ← lift (drainPlans lib env source plans)
  if recordsOf env source ctx parts = [] then
    return { unit := source.name, status := .empty }
  else
    deliver lib env source u ctx gcDays parts (spoolPath ctx.spoolDir source.name "jsonl.gz")

/-! ### What a run of a source can do -/

/-- The journals of `ship_source`, for what it collected. -/
inductive ShipJournal (u : S3Uploader) (ctx : RunContext) (parts : List Part) :
    List Effect → Prop
  | nothing : ShipJournal u ctx parts []
  | uploaded (hne : recordsOf env source ctx parts ≠ []) (hdry : ctx.dryRun = false) :
    ShipJournal u ctx parts
      [.put ⟨logsKey u.pre source.name ctx.runDt, .ndjson (recordsOf env source ctx parts)⟩]
  | committed {deletes} (hne : recordsOf env source ctx parts ≠ []) (hdry : ctx.dryRun = false)
    (hdel : Deletions source.name (currentKeys parts) deletes) :
    ShipJournal u ctx parts
      (.put ⟨logsKey u.pre source.name ctx.runDt, .ndjson (recordsOf env source ctx parts)⟩ ::
        .setOffsets source.name (offsetsToCommit env parts)
          (env.clock (.setOffsets source.name)) :: deletes)

variable {lib env source} {w : World} {u : S3Uploader} {ctx : RunContext} {gcDays : ℤ}
  {parts : List Part} {path : Path}

lemma commit_ensures : Ensures (commit env source gcDays parts path) w fun _ w' =>
    Wrote w w' [] ∨ ∃ deletes, Deletions source.name (currentKeys parts) deletes ∧
      Wrote w w' (.setOffsets source.name (offsetsToCommit env parts)
        (env.clock (.setOffsets source.name)) :: deletes) := by
  unfold commit setOffsets
  rw [ensures_bind, ensures_bind]
  refine ensures_call (fun e => .inl .nil) fun _ => ?_
  refine ensures_emit ?_
  refine Ensures.bind (gcOffsets_ensures _ _ _) ?_ ?_
  · rintro e w₁ ⟨j, hj, hdel⟩
    exact .inr ⟨j, hdel, hj.cons⟩
  · rintro n w₁ ⟨j, hj, hdel⟩
    refine (quiet_unlink path w₁).mono fun r w₂ h₂ => ?_
    exact .inr ⟨j, hdel, by simpa using hj.cons.trans h₂⟩

lemma deliver_ensures (hne : recordsOf env source ctx parts ≠ []) :
    Ensures (deliver lib env source u ctx gcDays parts path) w fun _ w' =>
      ∃ j, Wrote w w' j ∧ ShipJournal env source u ctx parts j := by
  have hnothing : ∀ w', Wrote w w' [] → ∃ j, Wrote w w' j ∧ ShipJournal env source u ctx parts j :=
    fun w' h => ⟨[], h, .nothing⟩
  unfold deliver
  simp only [writeRows_eq]
  refine ensures_filled (fun e w₂ h₂ => hnothing w₂ h₂) fun result w₂ hw₂ hs₂ => ?_
  simp only [spooled, List.nil_append] at hs₂
  by_cases hdry : ctx.dryRun
  · rw [if_pos hdry, ensures_bind]
    refine (quiet_unlink path w₂).mono fun r w₃ h₃ => ?_
    cases r <;> exact hnothing w₃ (by simpa using hw₂.trans h₃)
  rw [if_neg hdry]
  have hdry' : ctx.dryRun = false := by simpa using hdry
  have hup : ∀ w', Wrote w₂ w' [.put ⟨logsKey u.pre source.name ctx.runDt,
      .ndjson (recordsOf env source ctx parts)⟩] →
      ∃ j, Wrote w w' j ∧ ShipJournal env source u ctx parts j :=
    fun w' h => ⟨_, by simpa using hw₂.trans h, .uploaded hne hdry'⟩
  refine Ensures.bind (tryUpload_ensures hs₂) ?_ ?_
  · rintro e w₃ (⟨-, h₃⟩ | h₃)
    · exact hnothing _ (by simpa using hw₂.trans h₃)
    · exact hup _ h₃
  · rintro a w₃ h₃
    rcases a with e | res
    · simp only
      refine Ensures.bind (quiet_abort path w₃) (fun e w₄ h₄ => ?_) fun a w₄ h₄ => ?_ <;>
      · rcases h₃ with ⟨-, h₃⟩ | h₃
        · exact hnothing w₄ (by simpa using hw₂.trans (h₃.trans h₄))
        · exact hup w₄ (by simpa using h₃.trans h₄)
    · simp only
      -- the upload returned, so the object is there
      have hput := h₃.resolve_left fun h => h.1 res rfl
      have hdone : ∀ w', (Wrote w₃ w' [] ∨
          ∃ deletes, Deletions source.name (currentKeys parts) deletes ∧
            Wrote w₃ w' (.setOffsets source.name (offsetsToCommit env parts)
              (env.clock (.setOffsets source.name)) :: deletes)) →
          ∃ j, Wrote w w' j ∧ ShipJournal env source u ctx parts j := by
        rintro w' (h | ⟨deletes, hdel, h⟩)
        · exact hup _ (by simpa using hput.trans h)
        · exact ⟨_, by simpa using hw₂.trans (hput.trans h), .committed hne hdry' hdel⟩
      exact Ensures.bind commit_ensures (fun e w₄ h₄ => hdone _ h₄) fun a w₄ h₄ => hdone _ h₄

/-- **A run of a source, by how far it gets**: the offsets cannot be read, the draining raises,
there is nothing to ship, or what was collected is delivered. -/
theorem ensures_shipSource {Q : Except Exc UnitResult → World → Prop}
    (hread : ∀ e, env.fault (.getOffsets source.name) = some e → Q (.error e) w)
    (hdrain : env.fault (.getOffsets source.name) = none → ∀ e, drainPlans lib env source
      (discover lib env source (w.store.fileOffsets source.name)) = .error e → Q (.error e) w)
    (hparts : env.fault (.getOffsets source.name) = none → ∀ parts, drainPlans lib env source
        (discover lib env source (w.store.fileOffsets source.name)) = .ok parts →
      if recordsOf env source ctx parts = [] then
        Q (.ok { unit := source.name, status := .empty }) w
      else Ensures (deliver lib env source u ctx gcDays parts
        (spoolPath ctx.spoolDir source.name "jsonl.gz")) w Q) :
    Ensures (shipSource lib env source u ctx gcDays) w Q := by
  unfold shipSource call
  rcases hf : env.fault (.getOffsets source.name) with _ | e
  · rw [ensures_bind, ensures_pure]
    simp only
    rw [ensures_bind, ensures_get]
    simp only [ensures_bind]
    refine ensures_lift ?_
    rcases hd : drainPlans lib env source
      (discover lib env source (w.store.fileOffsets source.name)) with e | parts
    · exact hdrain hf e hd
    · have := hparts hf parts hd
      simp only
      split_ifs at this ⊢
      · exact this
      · exact this
  · exact hread e hf

/-- A source that has something to ship comes to its delivery. -/
lemma ensures_shipSource_of_parts {Q : Except Exc UnitResult → World → Prop}
    (hread : env.fault (.getOffsets source.name) = none)
    (hparts : drainPlans lib env source
      (discover lib env source (w.store.fileOffsets source.name)) = .ok parts)
    (hne : recordsOf env source ctx parts ≠ [])
    (h : Ensures (deliver lib env source u ctx gcDays parts
      (spoolPath ctx.spoolDir source.name "jsonl.gz")) w Q) :
    Ensures (shipSource lib env source u ctx gcDays) w Q := by
  refine ensures_shipSource (fun e he => ?_) (fun _ e he => ?_) fun _ parts' hp => ?_
  · cases hread.symm.trans he
  · cases hparts.symm.trans he
  · obtain rfl := Except.ok.inj (hparts.symm.trans hp)
    rw [if_neg hne]
    exact h

/-- **What a run of a source can do**: nothing that lasts, an upload of what it collected, or the
upload and the commit. -/
theorem shipSource_ensures :
    Ensures (shipSource lib env source u ctx gcDays) w fun _ w' => Wrote w w' [] ∨
      ∃ parts j, drainPlans lib env source
          (discover lib env source (w.store.fileOffsets source.name)) = .ok parts ∧
        Wrote w w' j ∧ ShipJournal env source u ctx parts j := by
  refine ensures_shipSource (fun e _ => .inl .nil) (fun _ e _ => .inl .nil) fun _ parts hparts => ?_
  rw [hparts]
  split_ifs with hne
  · exact .inl .nil
  · refine (deliver_ensures hne).mono fun r w' ⟨j, hj, hship⟩ => ?_
    exact .inr ⟨parts, j, rfl, hj, hship⟩

end MongoSyncAgent.Ship
