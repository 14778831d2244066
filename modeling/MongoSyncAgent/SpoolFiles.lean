import MongoSyncAgent.Cycle
import MongoSyncAgent.Isolation

/-!
The spool files that a dry run leaves behind: none, where the local file operations succeed.

Each unit has one spool file. It is made, filled and closed, and the dry run deletes it at once;
where an extraction fails before that, the sink deletes it.
-/

namespace MongoSyncAgent.SpoolFiles

open MongoSyncAgent.Py MongoSyncAgent.Bson MongoSyncAgent.Config MongoSyncAgent.Runtime
open MongoSyncAgent.Sinks MongoSyncAgent.Watermarks MongoSyncAgent.Extract MongoSyncAgent.Ship
open MongoSyncAgent.Outcomes MongoSyncAgent.SideBySide MongoSyncAgent.Exceptions
open MongoSyncAgent.Cycle MongoSyncAgent.Isolation

/-- The operations on spool files succeed. -/
structure LocalFiles (env : Env) : Prop where
  openSpool : ∀ p, env.fault (.openSpool p) = none
  writeSpool : ∀ p rows, env.fault (.writeSpool p rows) = none
  closeSpool : ∀ p, env.fault (.closeSpool p) = none
  unlinkSpool : ∀ p, env.fault (.unlinkSpool p) = none
  closeAborted : ∀ p, env.fault (.closeAborted p) = none
  unlinkAborted : ∀ p, env.fault (.unlinkAborted p) = none

/-- No spool file is there that was not there before. -/
def Tidy (w w' : World) : Prop := ∀ q, w'.spool q = none ∨ w'.spool q = w.spool q

instance reflTidy : Std.Refl Tidy := ⟨fun _ _ => .inr rfl⟩

instance transTidy : IsTrans World Tidy := ⟨fun _ _ _ h h' q => by
  rcases h' q with hq | hq
  · exact .inl hq
  · rw [hq]
    exact h q⟩

/-- The spool, but for one file. -/
def elsewhere (path : Path) (w : World) : { q : Path // q ≠ path } → Option Content :=
  fun q => w.spool q

variable {lib : Libs} {env : Env} {cfg : CollectionConfig} {u : S3Uploader} {ctx : RunContext}
  {dbName : String} {path : Path} {w w' : World}

lemma tidy_of_elsewhere (h : elsewhere path w' = elsewhere path w) (hpath : w'.spool path = none) :
    Tidy w w' := by
  intro q
  by_cases hq : q = path
  · rw [hq]
    exact .inl hpath
  · exact .inr (congrFun h ⟨q, hq⟩)

lemma within_call {R : World → World → Prop} [Std.Refl R] (c : Call) : Within R (call env c) :=
  fun w => ensures_call (fun _ => Std.Refl.refl w) fun _ => Std.Refl.refl w

lemma within_lift {R : World → World → Prop} [Std.Refl R] {α : Type} (x : Except Exc α) :
    Within R (lift x) :=
  fun w => ensures_lift (Std.Refl.refl w)

lemma within_checkKind {R : World → World → Prop} [Std.Refl R] {strategy : Strategy}
    (stored : Option State.Watermark) : Within R (checkKind strategy stored) := by
  refine fun w => checkKind_ensures.mono fun _ w' h => ?_
  rw [h]
  exact Std.Refl.refl w

lemma keeps_writeFile (c : Option Content) : Keeps (elsewhere path) (writeFile path c) :=
  fun _ => funext fun q => if_neg q.2

lemma keeps_abort : Keeps (elsewhere path) (abort env path) :=
  .bind (within_ignoringErrors (within_call _)) fun _ =>
    within_ignoringErrors (.bind (within_call _) fun _ => keeps_writeFile _)

/-! ### The end of a file -/

lemma abort_deletes (h : LocalFiles env) (w : World) : Ensures (abort env path) w fun r w' =>
    r = .ok () ∧ elsewhere path w' = elsewhere path w ∧ w'.spool path = none := by
  have hdeleted : Ensures (abort env path) w fun r w' => r = .ok () ∧ w'.spool path = none := by
    unfold abort ignoringErrors
    rw [ensures_bind, ensures_tryCatch]
    refine ensures_call_calm (h.closeAborted path) ?_
    simp only [ensures_tryCatch, ensures_bind]
    refine ensures_call_calm (h.unlinkAborted path) ?_
    exact ensures_writeFile fun _ _ hs => ⟨trivial, hs⟩
  exact (hdeleted.and (keeps_abort w)).mono fun _ _ h => ⟨h.1.1, h.2, h.1.2⟩

lemma unlink_deletes (h : LocalFiles env) (w : World) : Ensures (unlink env path) w fun r w' =>
    r = .ok () ∧ elsewhere path w' = elsewhere path w ∧ w'.spool path = none := by
  unfold unlink
  rw [ensures_bind]
  refine ensures_call_calm (h.unlinkSpool path) ?_
  exact ⟨rfl, keeps_writeFile none w, if_pos rfl⟩

/-! ### The file of a source, and of the metrics -/

/-- Records that are added to a file. -/
lemma add_calm (h : LocalFiles env) (n : ℕ) (onto : Option Content → Content) (w : World) :
    Ensures (GzipNdjsonSink.add env ⟨path, 0⟩ n onto) w fun r w' => r = .ok ⟨path, n⟩ ∧
      elsewhere path w' = elsewhere path w ∧ Wrote w w' [] ∧
        w'.spool path = some (onto (w.spool path)) := by
  unfold GzipNdjsonSink.add
  rw [ensures_bind]
  refine ensures_call_calm (h.writeSpool path 0) ?_
  exact ⟨by rw [Nat.zero_add]; rfl, keeps_writeFile _ w, .nil, if_pos rfl⟩

/-- A file that is made, filled, closed and deleted. -/
lemma spooled_tidy {n : ℕ} {onto : Option Content → Content} {rest : SinkResult → UnitResult}
    (h : LocalFiles env) :
    Within Tidy (do
      let sink ← GzipNdjsonSink.open env path
      let sink ← cleaningUp (sink.add env n onto) (abort env path)
      let result ← sink.close lib env
      unlink env path
      return rest result) := by
  intro w
  have hopen : Ensures (GzipNdjsonSink.open env path) w fun r w' =>
      r = .ok ⟨path, 0⟩ ∧ elsewhere path w' = elsewhere path w := by
    unfold GzipNdjsonSink.open
    rw [ensures_bind]
    exact ensures_call_calm (h.openSpool path) ⟨rfl, keeps_writeFile _ w⟩
  refine Ensures.bind hopen (fun e w₁ h₁ => by cases h₁.1) fun sink w₁ hw₁ => ?_
  obtain ⟨hsink, h₁⟩ := hw₁
  obtain rfl := Except.ok.inj hsink
  unfold cleaningUp
  rw [ensures_bind, ensures_tryCatch]
  refine (add_calm h n onto w₁).mono fun r w₂ hw₂ => ?_
  obtain ⟨rfl, h₂, -⟩ := hw₂
  simp only
  unfold GzipNdjsonSink.close
  rw [ensures_bind, ensures_bind]
  refine ensures_call_calm (h.closeSpool path) ?_
  simp only [ensures_bind, ensures_get, ensures_pure]
  refine (unlink_deletes h w₂).mono fun r w₃ hw₃ => ?_
  obtain ⟨rfl, h₃, hnone⟩ := hw₃
  exact tidy_of_elsewhere (h₃.trans (h₂.trans h₁)) hnone

lemma shipSource_tidy (h : LocalFiles env) (hdry : ctx.dryRun = true) {source : LogSourceConfig}
    {gcDays : ℤ} : Within Tidy (shipSource lib env source u ctx gcDays) := by
  refine .bind (within_call _) fun _ => .bind within_get fun w => .bind (within_lift _)
    fun parts => .ite (within_pure _) ?_
  unfold Ship.deliver
  simp only [hdry, if_true, writeRows_eq]
  exact spooled_tidy h

lemma shipMetrics_tidy (h : LocalFiles env) (hdry : ctx.dryRun = true)
    {records : List MetricRecord} : Within Tidy (shipMetrics lib u ctx env records) := by
  refine .ite (within_pure _) ?_
  simp only [hdry, if_true, writeMetrics_eq]
  exact spooled_tidy h

/-! ### The file of a collection -/

/-- A program that touches one spool file, and gives what belongs to it. -/
def Writes {α : Type} (path : Path) (pathOf : α → Path) (m : M α) : Prop :=
  ∀ w, Ensures m w fun r w' => elsewhere path w' = elsewhere path w ∧
    ∀ a, r = .ok a → pathOf a = path

section Writes

variable {α β : Type} {pathOf : α → Path} {pathOf' : β → Path}

lemma writes_pure {a : α} (h : pathOf a = path) : Writes path pathOf (pure a) :=
  fun _ => ⟨rfl, fun _ ha => (Except.ok.inj ha) ▸ h⟩

lemma writes_after {m : M β} {f : β → M α} (hm : Keeps (elsewhere path) m)
    (hf : ∀ b, Writes path pathOf (f b)) : Writes path pathOf (m >>= f) := by
  intro w
  refine Ensures.bind (hm w) (fun e w₁ h₁ => ⟨h₁, fun _ h => by cases h⟩) fun b w₁ h₁ => ?_
  exact (hf b w₁).mono fun r w₂ h₂ => ⟨h₂.1.trans h₁, h₂.2⟩

lemma Writes.bind {m : M β} {f : β → M α} (hm : Writes path pathOf' m)
    (hf : ∀ b, pathOf' b = path → Writes path pathOf (f b)) : Writes path pathOf (m >>= f) := by
  intro w
  refine Ensures.bind (hm w) (fun e w₁ h₁ => ⟨h₁.1, fun _ h => by cases h⟩) fun b w₁ h₁ => ?_
  exact (hf b (h₁.2 b rfl) w₁).mono fun r w₂ h₂ => ⟨h₂.1.trans h₁.1, h₂.2⟩

end Writes

lemma ensureWriter_writes {sink : ParquetVariantSink} (h : sink.path = path) :
    Writes path (·.path) (sink.ensureWriter env) := by
  unfold ParquetVariantSink.ensureWriter
  split_ifs
  · exact writes_pure h
  · rw [h]
    exact writes_after (within_call _) fun _ => writes_after (keeps_writeFile _) fun _ =>
      writes_pure rfl

lemma writeRows_writes {sink : ParquetVariantSink} {rows : List Row} (h : sink.path = path) :
    Writes path (·.path) (sink.writeRows env rows) := by
  unfold ParquetVariantSink.writeRows
  split_ifs
  · exact writes_pure h
  · refine .bind (ensureWriter_writes h) fun sink h => ?_
    rw [h]
    exact writes_after (within_call _) fun _ => writes_after within_get fun _ =>
      writes_after (keeps_writeFile _) fun _ => writes_pure rfl

lemma flush_writes {p : Progress} (h : p.sink.path = path) :
    Writes path (·.sink.path) (p.flush env) :=
  .bind (writeRows_writes h) fun _ h => writes_pure h

lemma visit_writes {i : ℕ} {doc : Doc} {p : Progress} (h : p.sink.path = path) :
    Writes path (·.sink.path) (visit lib env cfg ctx i doc p) := by
  refine writes_after (within_call _) fun _ => writes_after (within_lift _) fun strategy =>
    writes_after (within_call _) fun _ => writes_after (within_lift _) fun row => ?_
  simp only
  split_ifs
  · exact flush_writes h
  · exact writes_pure h

lemma visitAll_writes {docs : List Doc} {i : ℕ} {p : Progress} (h : p.sink.path = path) :
    Writes path (·.sink.path) (visitAll lib env cfg ctx i docs p) := by
  induction docs generalizing i p with
  | nil => exact writes_after (within_call _) fun _ => writes_pure h
  | cons doc docs ih => exact .bind (visit_writes h) fun _ h => ih h

/-- The file of a loop that fails is deleted by its sink, if the cursor can be closed. -/
lemma readCursor_spool {docs : List Doc} {strategy : Strategy} (h : LocalFiles env)
    (henv : Unkilled env) (hclose : env.fault .cursorClose = none) (w : World) :
    Ensures (readCursor lib env cfg ctx docs strategy path) w fun r w' =>
      elsewhere path w' = elsewhere path w ∧
        Asks (fun p => p.sink.path = path) (fun _ => w'.spool path = none) r := by
  have hbody : Writes path (fun p : Progress => p.sink.path) (do
      (← visitAll lib env cfg ctx 0 docs ⟨strategy, .make path, []⟩).flush env) :=
    .bind (visitAll_writes rfl) fun _ h => flush_writes h
  have hcaught : Ensures (do
      (← visitAll lib env cfg ctx 0 docs ⟨strategy, .make path, []⟩).flush env) w
        fun r _ => Caught r := by
    have hstart : Held w w path (ParquetVariantSink.make path) w w :=
      ⟨⟨[], .nil, .nil⟩, rfl, fun hne => absurd rfl hne, fun ho => by cases ho⟩
    have hsame : Same (do
        (← visitAll lib env cfg ctx 0 docs ⟨strategy, .make path, []⟩).flush env) (do
        (← visitAll lib env cfg ctx 0 docs ⟨strategy, .make path, []⟩).flush env) w w
          (fun p => Held w w path p.sink) (Failed w w) :=
      Same.bind (same_visitAll henv hstart) fun p _ _ h => same_flush henv h
    exact fun e he => (hsame.ends.2.2 e he).1
  unfold readCursor closing cleaningUp
  rw [ensures_bind, ensures_tryCatch, ensures_tryCatch]
  refine ((hbody w).and hcaught).mono fun r w₁ hw₁ => ?_
  obtain ⟨⟨h₁, hpath⟩, he⟩ := hw₁
  rcases r with e | p
  · simp only [he e rfl, if_true]
    refine Ensures.bind (abort_deletes h w₁) (fun e w₂ h₂ => by cases h₂.1) fun _ w₂ h₂ => ?_
    simp only [ensures_throw]
    rw [ensures_bind]
    exact ensures_call_calm hclose ⟨h₂.2.1.trans h₁, h₂.2.2⟩
  · simp only
    rw [ensures_bind]
    exact ensures_call_calm hclose ⟨h₁, hpath p rfl⟩

lemma extractCollection_tidy (h : LocalFiles env) (henv : Unkilled env)
    (hclose : env.fault .cursorClose = none) (hdry : ctx.dryRun = true) :
    Within Tidy (extractCollection lib env cfg u ctx dbName) := by
  refine .bind (within_call _) fun _ => .bind within_get fun w₀ => .bind (within_checkKind _)
    fun _ => .bind (within_lift _) fun filter => .bind (within_call _) fun _ w => ?_
  refine Ensures.bind (readCursor_spool h henv hclose w) (fun e w₁ h₁ => ?_) fun p w₁ h₁ => ?_
  · exact tidy_of_elsewhere h₁.1 h₁.2
  obtain ⟨h₁, hpath⟩ := h₁
  split_ifs
  · refine Ensures.bind (abort_deletes h w₁) (fun e w₂ h₂ => by cases h₂.1) fun _ w₂ h₂ => ?_
    exact tidy_of_elsewhere (h₂.2.1.trans h₁) h₂.2.2
  · unfold Extract.deliver ParquetVariantSink.close
    rw [hpath, ensures_bind, ensures_bind]
    refine ensures_call_calm (h.closeSpool _) ?_
    simp only [ensures_bind, ensures_get, ensures_pure, hdry, if_true]
    refine (unlink_deletes h w₁).mono fun r w₂ hw₂ => ?_
    obtain ⟨rfl, h₂, hnone⟩ := hw₂
    exact tidy_of_elsewhere (h₂.trans h₁) hnone

/-- **A dry run leaves no spool file**, where the operations on spool files succeed and closing
a cursor raises nothing. -/
theorem runCycle_tidy {a : AgentConfig} {out : Outside} {only : Option (List String)}
    {collection : Option String} (hdry : ctx.dryRun = true)
    (hcollection : ∀ i, LocalFiles (out.collection i) ∧ Unkilled (out.collection i) ∧
      (out.collection i).fault .cursorClose = none)
    (hsource : ∀ i, LocalFiles (out.source i)) (hhost : LocalFiles out.host) :
    Within Tidy (runCycle lib ctx a out only collection) :=
  within_runCycle
    (fun _ _ i _ => extractCollection_tidy (hcollection i).1 (hcollection i).2.1
      (hcollection i).2.2 hdry)
    (fun _ _ i _ => shipSource_tidy (hsource i) hdry) fun _ => shipMetrics_tidy hhost hdry

end MongoSyncAgent.SpoolFiles
