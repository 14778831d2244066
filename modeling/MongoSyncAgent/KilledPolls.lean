import MongoSyncAgent.GrowingLogs

/-!
Polls of a single file that are killed between the upload and the commit.

Such a poll ships what a drain from the start of the file gives, whatever earlier polls did, and
leaves nothing stored.
-/

namespace MongoSyncAgent.KilledPolls

open MongoSyncAgent.Config MongoSyncAgent.State MongoSyncAgent.Runtime MongoSyncAgent.Sources
open MongoSyncAgent.Ship MongoSyncAgent.Sinks MongoSyncAgent.LogRuns MongoSyncAgent.Systems
open MongoSyncAgent.Lines MongoSyncAgent.Records MongoSyncAgent.Codecs MongoSyncAgent.Tailer
open MongoSyncAgent.Windows MongoSyncAgent.GrowingLogs MongoSyncAgent.Drain MongoSyncAgent.Py
open MongoSyncAgent.Outcomes MongoSyncAgent.Keys

variable {lib : Libs} {source : LogSourceConfig} {u : S3Uploader} {env : Env} {ctx : RunContext}
  {gcDays : ℤ} {parts : List Part} {w : World} {path : Path} {e : Exc}

/-! ### The upload without the commit -/

/-- No call fails but the commit. -/
def Killed (source : LogSourceConfig) (env : Env) : Prop :=
  (∃ e, env.fault (.setOffsets source.name) = some e) ∧
    ∀ c, c ≠ .setOffsets source.name → env.fault c = none

lemma commit_killed (h : Killed source env) :
    Ensures (commit env source gcDays parts path) w fun _ w' => Wrote w w' [] := by
  obtain ⟨e, he⟩ := h.1
  unfold commit setOffsets call
  rw [he]
  exact .nil

lemma tryUpload_calm {key : String} {content : Content} (h : Killed source env)
    (hspool : w.spool path = some content) :
    Ensures (tryUpload lib env u path key) w fun r w' =>
      (∃ res, r = .ok (.ok res)) ∧ Wrote w w' [.put ⟨key, content⟩] := by
  unfold tryUpload upload putObject
  simp only [ensures_tryCatch, ensures_bind]
  refine ensures_call_calm (h.2 _ (by simp)) ?_
  refine ensures_call_calm (h.2 _ (by simp)) ?_
  simp only [ensures_get, hspool, ensures_bind]
  refine ensures_emit (ensures_call_calm (h.2 _ (by simp)) ?_)
  simp only [ensures_pure]
  refine ensures_call_calm (h.2 _ (by simp)) ?_
  exact ⟨⟨_, rfl⟩, rfl, rfl⟩

lemma deliver_killed (h : Killed source env) (hdry : ctx.dryRun = false) :
    Ensures (deliver lib env source u ctx gcDays parts path) w fun _ w' =>
      Wrote w w' [.put ⟨logsKey u.pre source.name ctx.runDt,
        .ndjson (recordsOf env source ctx parts)⟩] := by
  unfold deliver GzipNdjsonSink.open cleaningUp GzipNdjsonSink.writeRows
  simp only [ensures_bind]
  refine ensures_call_calm (h.2 _ (by simp)) ?_
  refine ensures_writeFile fun w₁ h₁ hs₁ => ?_
  simp only [ensures_pure, ensures_tryCatch, ensures_bind]
  refine ensures_call_calm (h.2 _ (by simp)) ?_
  simp only [ensures_get]
  refine ensures_writeFile fun w₂ h₂ hs₂ => ?_
  simp only
  unfold GzipNdjsonSink.close
  simp only [ensures_bind]
  refine ensures_call_calm (h.2 _ (by simp)) ?_
  simp only [ensures_get, ensures_pure, hdry, Bool.false_eq_true, if_false]
  rw [hs₁] at hs₂
  have hw₂ : Wrote w w₂ [] := by simpa using h₁.trans h₂
  refine Ensures.bind (tryUpload_calm h hs₂) (fun e w₃ h₃ => ?_) fun r w₃ h₃ => ?_
  · obtain ⟨res, hres⟩ := h₃.1
    cases hres
  obtain ⟨⟨res, hres⟩, h₃⟩ := h₃
  obtain rfl := Except.ok.inj hres
  have hw₃ := by simpa [spooled] using hw₂.trans h₃
  refine Ensures.bind (commit_killed h) (fun e w₄ h₄ => ?_) fun a w₄ h₄ => ?_
  · simpa using hw₃.trans h₄
  · simpa using hw₃.trans h₄

variable (u gcDays) in
/-- **A killed run** uploads what it collected, and changes nothing else. -/
lemma ship_killed {s : LogState} (h : Killed source env) (hdry : ctx.dryRun = false)
    (hparts : drainPlans lib env source
      (discover lib env source (s.store.fileOffsets source.name)) = .ok parts)
    (hne : recordsOf env source ctx parts ≠ []) :
    ∃ sh, s.ship lib source u env ctx gcDays =
        { s with bucket := s.bucket ++ [sh.put source u], shipped := s.shipped ++ [sh] } ∧
      sh.env = env ∧ sh.ctx = ctx ∧ sh.parts = parts := by
  have hcollected : collected lib source env s.store = parts := by
    unfold collected
    rw [hparts]
  have hwrote : Wrote (World.start s.store) (shipRun lib source u env ctx gcDays s.store)
      [.put ⟨logsKey u.pre source.name ctx.runDt, .ndjson (recordsOf env source ctx parts)⟩] := by
    show Ensures (shipSource lib env source u ctx gcDays) (World.start s.store)
      fun _ w' => Wrote _ w' _
    exact ensures_shipSource_of_parts (h.2 _ (by simp)) hparts hne (deliver_killed h hdry)
  refine ⟨s.shipment lib source env ctx, ?_, rfl, rfl, hcollected⟩
  rw [ship_eq hwrote]
  simp [puts, apply, isCommit, Shipment.put, LogState.shipment, hcollected]

/-! ### A single file -/

/-- The only file is `p` with this content, and nothing is stored. -/
structure Single (source : LogSourceConfig) (s : LogState) (p : Path) (data : Bytes) : Prop where
  keys : s.fs.keys = [p]
  lookup : ∃ mtime, s.fs.lookup p = some ⟨data, mtime, true⟩
  store : s.store.fileOffsets source.name = ∅

variable {s : LogState} {p : Path} {data : Bytes}

lemma single_oneFile (p : Path) (data : Bytes) : Single source (oneFile p data) p data :=
  ⟨rfl, ⟨0, AList.lookup_insert _⟩, rfl⟩

lemma Single.only (h : Single source s p data) {q : Path} {node : Node}
    (hq : s.fs.lookup q = some node) : q = p := by
  have hmem : q ∈ s.fs.keys := AList.mem_keys.mp (AList.lookup_isSome.mp (by rw [hq]; rfl))
  rw [h.keys] at hmem
  exact List.mem_singleton.mp hmem

/-- The file grows. -/
lemma Single.append (h : Single source s p data)
    (hr : (growingLogs lib source u).Reachable s) (more : Bytes) :
    ∃ s', Single source s' p (data ++ more) ∧ (growingLogs lib source u).Reachable s' ∧
      s'.shipped = s.shipped := by
  obtain ⟨mtime, hlookup⟩ := h.lookup
  have hkeys : (s.append p ⟨data, mtime, true⟩ more 0).fs.keys = [p] := by
    simp [LogState.append, AList.keys_insert, h.keys]
  have hsingle : Single source (s.append p ⟨data, mtime, true⟩ more 0) p (data ++ more) :=
    ⟨hkeys, ⟨0, AList.lookup_insert _⟩, h.store⟩
  have hd : DistinctPrefixes (s.append p ⟨data, mtime, true⟩ more 0).fs := by
    intro q r m n hm hn _ _ _
    rw [hsingle.only hm, hsingle.only hn]
  refine ⟨_, hsingle, .step hr (e := .append p more 0) ⟨?_, ?_⟩, rfl⟩
  · trivial
  · exact .append hlookup hd

variable (lib) in
lemma Single.discover (h : Single source s p data) (hs : Sees env source s.fs)
    (hos : ∀ c, env.osError c = false) (offsets : Offsets) :
    discover lib env source offsets = [planOf lib offsets p data] := by
  obtain ⟨mtime, hlookup⟩ := h.lookup
  have hmem : planOf lib offsets p data ∈ Sources.discover lib env source offsets :=
    discover_complete hs hos hlookup rfl
  have hall : ∀ plan ∈ Sources.discover lib env source offsets, plan.path = p := by
    intro plan hplan
    obtain ⟨node, hn, -⟩ := mem_discover hs hplan
    exact h.only hn
  have hnodup : ((Sources.discover lib env source offsets).map (·.path)).Nodup :=
    discover_nodup hs
  generalize Sources.discover lib env source offsets = plans at hmem hall hnodup
  match plans, hmem with
  | [plan], hmem => rw [List.mem_singleton.mp hmem]
  | a :: b :: rest, _ =>
    rw [List.map_cons, List.map_cons, List.nodup_cons] at hnodup
    refine absurd ?_ hnodup.1
    rw [hall a (by simp), hall b (by simp)]
    exact List.mem_cons_self

/-- A poll that is killed, of a file. -/
def killedEnv (source : LogSourceConfig) (fs : FS) : Env :=
  { calmEnv fs sampleNow with
    fault := fun c => if c = .setOffsets source.name then some ⟨.killed, ""⟩ else none }

/-- **A killed poll of a file** ships a drain of it from the start, and it can be followed by
another one. -/
theorem Single.poll (h : Single source s p data) (hr : (growingLogs lib source u).Reachable s)
    (hsup : Supported source.encoding)
    (hmax : ReadSize source.maxBytesPerPoll)
    (hne : ∀ chunks, Reading source.encoding source.maxBytesPerPoll data (fun _ => some data) 0
      chunks → chunks ≠ []) :
    ∃ s' sh part, Single source s' p data ∧ (growingLogs lib source u).Reachable s' ∧
      s'.shipped = s.shipped ++ [sh] ∧ sh.parts = [part] ∧ part.plan.path = p ∧
      part.plan.startOffset = 0 ∧
      Reading source.encoding source.maxBytesPerPoll data (fun _ => some data) 0 part.chunks := by
  obtain ⟨mtime, hlookup⟩ := h.lookup
  have hsees : Sees (killedEnv source s.fs) source s.fs := ⟨fun _ => rfl, List.Perm.refl _⟩
  have hkilled : Killed source (killedEnv source s.fs) := by
    refine ⟨⟨_, if_pos rfl⟩, fun c hc => if_neg hc⟩
  have hplans := h.discover lib hsees (fun _ => rfl) (s.store.fileOffsets source.name)
  have hstart : (planOf lib (s.store.fileOffsets source.name) p data).startOffset = 0 := by
    rw [h.store]
    rfl
  have hfile : (fun o => ((killedEnv source s.fs).file (.tail p o) p).map (·.data)) =
      fun _ => some data := by
    funext o
    rw [hsees.file, hlookup]
    rfl
  obtain ⟨chunks, hchunks⟩ := drainFile_ok lib.codecs hsup hmax
    (fun _ => some data) 0
  have hparts : drainPlans lib (killedEnv source s.fs) source
      (Sources.discover lib (killedEnv source s.fs) source (s.store.fileOffsets source.name)) =
        .ok [⟨planOf lib (s.store.fileOffsets source.name) p data, chunks⟩] := by
    rw [hplans]
    simp only [drainPlans, drainPlan, hstart]
    show (drainFile lib.codecs (fun o => ((killedEnv source s.fs).file (.tail p o) p).map
      (·.data)) 0 source.encoding source.maxBytesPerPoll >>= _) = _
    rw [hfile, hchunks]
    rfl
  have hreading := drainFile_reading hsup (fun _ => .inl rfl) (cutAt_zero _ _) hchunks
  have hrecords : recordsOf (killedEnv source s.fs) source sampleCtx
      [⟨planOf lib (s.store.fileOffsets source.name) p data, chunks⟩] ≠ [] := by
    have hcons := hne chunks hreading
    cases hreading with
    | nil => exact absurd rfl hcons
    | @cons x chunk rest hread hlines =>
      have hlines' : chunk.lines ≠ [] := by
        rw [hlines]
        exact hread.lines
      simp [recordsOf, Part.records, chunkRecords, hlines']
  obtain ⟨sh, hship, -, -, hshparts⟩ := ship_killed u 14 hkilled rfl hparts hrecords
  refine ⟨s.ship lib source u (killedEnv source s.fs) sampleCtx 14, sh, _, ?_,
    .step hr ⟨?_, .ship hsees⟩, by rw [hship], hshparts, rfl, hstart, hreading⟩
  · rw [hship]
    exact ⟨h.keys, h.lookup, h.store⟩
  · trivial

end MongoSyncAgent.KilledPolls
