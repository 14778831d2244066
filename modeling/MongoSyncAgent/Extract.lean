import MongoSyncAgent.Sinks
import MongoSyncAgent.Watermarks
import Mathlib.Data.List.Forall2

/-!
Extracting one collection: the documents of a cursor become rows of a Parquet file, the file is
uploaded, and only then the watermark is committed.
-/

namespace MongoSyncAgent.Extract

open MongoSyncAgent.Py MongoSyncAgent.Bson MongoSyncAgent.Config MongoSyncAgent.State
open MongoSyncAgent.Runtime MongoSyncAgent.Sinks MongoSyncAgent.Watermarks MongoSyncAgent.Keys
open MongoSyncAgent.Outcomes

variable (lib : Libs) (env : Env) (cfg : CollectionConfig)

/-! ### Landing -/

/-- `VariantJsonLanding.doc_to_row`. -/
def docToRow (strategy : Strategy) (ctx : RunContext) (doc : Doc) : Except Exc Row := do
  let watermark ← strategy.watermarkColumnValue lib.text doc
  return { payload := lib.dumps doc, id := pyStr lib.text ((get doc "_id").getD .null),
           watermark, extractedAt := ctx.runDt, host := ctx.host }

/-! ### The loop over the cursor -/

/-- What the loop carries: the strategy, the sink, and the rows that are not flushed yet. -/
structure Progress where
  strategy : Strategy
  sink : ParquetVariantSink
  rows : List Row

def Progress.flush (p : Progress) : M Progress := do
  let sink ← p.sink.writeRows env p.rows
  return { p with sink, rows := [] }

/-- The body of the loop. -/
def visit (ctx : RunContext) (i : ℕ) (doc : Doc) (p : Progress) : M Progress := do
  call env (.cursorNext i)
  let strategy ← lift (p.strategy.observe lib.text doc)
  call env (.docToRow i)
  let row ← lift (docToRow lib strategy ctx doc)
  let p : Progress := ⟨strategy, p.sink, p.rows ++ [row]⟩
  if cfg.batchSize ≤ p.rows.length then p.flush env else return p

/-- `for doc in cursor`, from the `i`-th document on; the cursor is asked once more at its end. -/
def visitAll (ctx : RunContext) : ℕ → List Doc → Progress → M Progress
  | i, [], p => do
    call env (.cursorNext i)
    return p
  | i, doc :: docs, p => do visitAll ctx (i + 1) docs (← visit lib env cfg ctx i doc p)

/-- The `try` around the loop: the file is dropped on an error, the cursor is always closed. -/
def readCursor (ctx : RunContext) (docs : List Doc) (strategy : Strategy) (path : Path) :
    M Progress :=
  let body : M Progress := do
    (← visitAll lib env cfg ctx 0 docs ⟨strategy, .make path, []⟩).flush env
  closing env .cursorClose (cleaningUp body (abort env path))

/-! ### The collection -/

def namespaceOf (dbName : String) : String := "mongo:" ++ dbName ++ "." ++ cfg.name

/-- `cfg.name.replace(".", "_")`. -/
def spoolUnit : String := String.ofList (cfg.name.toList.map fun c => if c = '.' then '_' else c)

/-- Step 3: the watermark, if there is one to advance. -/
def commitWatermark (ctx : RunContext) (dbName : String) (strategy : Strategy) : M Unit := do
  let ns := namespaceOf cfg dbName
  match ← lift (strategy.newWatermark lib.text) with
  | none => return
  | some value =>
    call env (.setWatermark ns)
    emit (.setWatermark ns ⟨strategy.kind, value, env.clock (.setWatermark ns), ctx.runId⟩)

/-- What follows the loop, when it gave rows. -/
def deliver (u : S3Uploader) (ctx : RunContext) (dbName : String) (p : Progress) :
    M UnitResult := do
  let path := p.sink.path
  let result ← p.sink.close lib env
  if ctx.dryRun then
    unlink env path
    return { unit := cfg.name, status := .ok, docs := result.rows }
  else
    match ← tryUpload lib env u path (mongoKey u.pre dbName cfg.name ctx.runDt) with
    | .error e =>
      abort env path
      return { unit := cfg.name, status := .failed, docs := result.rows, error := some e.text }
    | .ok uploadResult =>
      commitWatermark lib env cfg ctx dbName p.strategy
      unlink env path
      return { unit := cfg.name, status := .ok, docs := result.rows,
               bytesUploaded := uploadResult.bytesUploaded }

/-- A stored watermark must be of the kind of the strategy. -/
def checkKind (strategy : Strategy) : Option State.Watermark → M Unit
  | some stored => lift (validateWatermarkKind stored strategy)
  | none => return

/-- `extract_collection`. -/
def extractCollection (u : S3Uploader) (ctx : RunContext) (dbName : String) : M UnitResult := do
  let ns := namespaceOf cfg dbName
  let strategy := makeStrategy cfg
  call env (.getWatermark ns)
  let prev := (← get).store.watermarks ns
  checkKind strategy prev
  let filter ← lift (strategy.buildFilter (prev.map (·.value)))
  call env (.find ns)
  let docs := env.find filter strategy.sortSpec
  let path := spoolPath ctx.spoolDir (spoolUnit cfg) "parquet"
  let p ← readCursor lib env cfg ctx docs strategy path
  if p.sink.rows = 0 then
    abort env path
    return { unit := cfg.name, status := .empty }
  else deliver lib env cfg u ctx dbName p

/-! ### What the loop ensures -/

/-- The rows of some documents, in their order. -/
def RowsOf (ctx : RunContext) (docs : List Doc) (rows : List Row) : Prop :=
  List.Forall₂ (fun doc row => docToRow lib (makeStrategy cfg) ctx doc = .ok row) docs rows

/-- The loop has seen these documents: the strategy has observed them, and their rows are in the
file or wait to be flushed. -/
def Progress.Landed (ctx : RunContext) (docs : List Doc) (w : World) (p : Progress) : Prop :=
  (makeStrategy cfg).observeAll lib.text docs = .ok p.strategy ∧
    ∃ written, p.sink.Holds w written ∧ RowsOf lib cfg ctx docs (written ++ p.rows)

variable {lib env cfg} {w : World} {ctx : RunContext} {docs : List Doc} {p : Progress}

/-- What a row has of its document, and of the run. -/
lemma docToRow_columns {strategy : Strategy} {doc : Doc} {row : Row}
    (h : docToRow lib strategy ctx doc = .ok row) :
    (row.id = pyStr lib.text ((get doc "_id").getD .null) ∧ row.payload = lib.dumps doc) ∧
      row.host = ctx.host ∧ row.extractedAt = ctx.runDt := by
  obtain ⟨watermark, -, h⟩ := bind_ok h
  obtain rfl := Except.ok.inj h
  exact ⟨⟨rfl, rfl⟩, rfl, rfl⟩

lemma RowsOf.row_of_doc {rows : List Row} (h : RowsOf lib cfg ctx docs rows) {doc : Doc}
    (hdoc : doc ∈ docs) :
    ∃ row ∈ rows, docToRow lib (makeStrategy cfg) ctx doc = .ok row := by
  unfold RowsOf at h
  induction h with
  | nil => cases hdoc
  | cons hrow _ ih =>
    rcases List.mem_cons.mp hdoc with rfl | hdoc
    · exact ⟨_, List.mem_cons_self, hrow⟩
    · obtain ⟨row, hmem, hrow⟩ := ih hdoc
      exact ⟨row, List.mem_cons_of_mem _ hmem, hrow⟩

lemma RowsOf.doc_of_row {rows : List Row} (h : RowsOf lib cfg ctx docs rows) {row : Row}
    (hrow : row ∈ rows) :
    ∃ doc ∈ docs, docToRow lib (makeStrategy cfg) ctx doc = .ok row := by
  unfold RowsOf at h
  induction h with
  | nil => cases hrow
  | cons hof _ ih =>
    rcases List.mem_cons.mp hrow with rfl | hrow
    · exact ⟨_, List.mem_cons_self, hof⟩
    · obtain ⟨doc, hmem, hof⟩ := ih hrow
      exact ⟨doc, List.mem_cons_of_mem _ hmem, hof⟩

lemma docToRow_same {s t : Strategy} (h : SameObject s t) (ctx : RunContext) (doc : Doc) :
    docToRow lib s ctx doc = docToRow lib t ctx doc := by
  unfold docToRow
  rw [h.watermarkColumnValue]

lemma flush_ensures (h : p.Landed lib cfg ctx docs w) : Ensures (p.flush env) w fun r w' =>
    Wrote w w' [] ∧ ∀ p', r = .ok p' →
      p'.sink.path = p.sink.path ∧ p'.rows = [] ∧ p'.Landed lib cfg ctx docs w' := by
  obtain ⟨hobs, written, hheld, hrows⟩ := h
  unfold Progress.flush
  refine Ensures.bind (ParquetVariantSink.writeRows_ensures hheld)
    (fun e w₁ h₁ => ⟨h₁.1, fun _ hp => by cases hp⟩) fun sink w₁ h₁ => ?_
  obtain ⟨hpath, hheld₁⟩ := h₁.2 _ rfl
  refine ⟨h₁.1, fun p' hp => ?_⟩
  obtain rfl := Except.ok.inj hp
  exact ⟨hpath, rfl, hobs, _, hheld₁, by simpa using hrows⟩

lemma visit_ensures {i : ℕ} {doc : Doc} (h : p.Landed lib cfg ctx docs w) :
    Ensures (visit lib env cfg ctx i doc p) w fun r w' => Wrote w w' [] ∧ ∀ p', r = .ok p' →
      p'.sink.path = p.sink.path ∧ p'.Landed lib cfg ctx (docs ++ [doc]) w' := by
  unfold visit
  simp only [ensures_bind]
  refine ensures_call (fun e => ⟨.nil, fun _ hp => by cases hp⟩) fun _ => ?_
  simp only
  refine ensures_lift ?_
  rcases hobs : p.strategy.observe lib.text doc with e | strategy
  · exact ⟨.nil, fun _ hp => by cases hp⟩
  simp only
  refine ensures_call (fun e => ⟨.nil, fun _ hp => by cases hp⟩) fun _ => ?_
  simp only
  refine ensures_lift ?_
  rcases hrow : docToRow lib strategy ctx doc with e | row
  · exact ⟨.nil, fun _ hp => by cases hp⟩
  simp only
  obtain ⟨hall, written, hheld, hrows⟩ := h
  have hall' : (makeStrategy cfg).observeAll lib.text (docs ++ [doc]) = .ok strategy := by
    rw [observeAll_snoc, hall, ok_bind, hobs]
  have hland :
      Progress.Landed lib cfg ctx (docs ++ [doc]) w ⟨strategy, p.sink, p.rows ++ [row]⟩ := by
    refine ⟨hall', written, hheld, ?_⟩
    rw [← docToRow_same (observeAll_same hall')] at hrow
    rw [← List.append_assoc]
    exact List.rel_append hrows (.cons hrow .nil)
  split_ifs
  · refine (flush_ensures hland).mono fun r w₁ h₁ => ⟨h₁.1, fun p' hp => ?_⟩
    exact ⟨(h₁.2 p' hp).1, (h₁.2 p' hp).2.2⟩
  · refine ⟨.nil, fun p' hp => ?_⟩
    obtain rfl := Except.ok.inj hp
    exact ⟨rfl, hland⟩

lemma visitAll_ensures {i : ℕ} {more : List Doc} (h : p.Landed lib cfg ctx docs w) :
    Ensures (visitAll lib env cfg ctx i more p) w fun r w' =>
      Wrote w w' [] ∧ ∀ p', r = .ok p' →
        p'.sink.path = p.sink.path ∧ p'.Landed lib cfg ctx (docs ++ more) w' := by
  induction more generalizing i docs p w with
  | nil =>
    unfold visitAll
    rw [ensures_bind]
    refine ensures_call (fun e => ⟨.nil, fun _ hp => by cases hp⟩) fun _ => ?_
    have hland : p.Landed lib cfg ctx (docs ++ []) w := by rwa [List.append_nil]
    refine ⟨.nil, fun p' hp => ?_⟩
    obtain rfl := Except.ok.inj hp
    exact ⟨rfl, hland⟩
  | cons doc more ih =>
    unfold visitAll
    refine Ensures.bind (visit_ensures h) (fun e w₁ h₁ => ⟨h₁.1, fun _ hp => by cases hp⟩)
      fun p₁ w₁ h₁ => ?_
    obtain ⟨hpath, hland⟩ := h₁.2 _ rfl
    refine (ih hland).mono fun r w₂ h₂ => ⟨by simpa using h₁.1.trans h₂.1, fun p' hp => ?_⟩
    obtain ⟨hpath', hland'⟩ := h₂.2 p' hp
    exact ⟨hpath'.trans hpath, by simpa using hland'⟩

lemma readCursor_ensures {path : Path} : Ensures
    (readCursor lib env cfg ctx docs (makeStrategy cfg) path) w fun r w' =>
      Wrote w w' [] ∧ ∀ p', r = .ok p' →
        p'.sink.path = path ∧ p'.rows = [] ∧ p'.Landed lib cfg ctx docs w' := by
  have hstart : Progress.Landed lib cfg ctx [] w ⟨makeStrategy cfg, .make path, []⟩ :=
    ⟨rfl, [], ⟨rfl, .inl ⟨rfl, rfl⟩⟩, .nil⟩
  unfold readCursor
  refine ensures_closing (ensures_cleaningUp (quiet_abort path) ?_)
  refine Ensures.bind (visitAll_ensures hstart) (fun e w₁ h₁ e' w₂ h₂ => ?_) fun p₁ w₁ h₁ => ?_
  · have hw : Wrote w w₂ [] := by simpa using h₁.1.trans h₂
    exact ⟨fun _ => ⟨hw, fun _ hp => by cases hp⟩, fun _ hp => by cases hp⟩
  obtain ⟨hpath, hland⟩ := h₁.2 _ rfl
  refine (flush_ensures hland).mono fun r w₂ ⟨h₂, hok⟩ => ?_
  have hw : Wrote w w₂ [] := by simpa using h₁.1.trans h₂
  rcases r with e | p₂
  · intro e' w₃ h₃
    have hw' : Wrote w w₃ [] := by simpa using hw.trans h₃
    exact ⟨fun _ => ⟨hw', fun _ hp => by cases hp⟩, fun _ hp => by cases hp⟩
  · obtain ⟨hpath₂, hnil, hland₂⟩ := hok _ rfl
    refine ⟨fun _ => ⟨hw, fun _ hp => by cases hp⟩, fun a ha => ⟨hw, fun p' hp => ?_⟩⟩
    obtain rfl := Except.ok.inj ha
    obtain rfl := Except.ok.inj hp
    exact ⟨hpath₂.trans hpath, hnil, hland₂⟩

/-! ### What an extraction can do -/

variable (lib env cfg)

/-- How an extraction that read some documents can end, and its journal. -/
inductive Extracted (u : S3Uploader) (ctx : RunContext) (dbName : String) (docs : List Doc) :
    Except Exc UnitResult → List Effect → Prop
  | nothing {r} (h : ∀ res, r = .ok res → res.status = .failed ∨ ctx.dryRun = true) :
    Extracted u ctx dbName docs r []
  | empty (h : docs = []) :
    Extracted u ctx dbName docs (.ok { unit := cfg.name, status := .empty }) []
  | uploaded {r groups strategy} (hdry : ctx.dryRun = false)
    (hrows : RowsOf lib cfg ctx docs groups.flatten)
    (hobs : (makeStrategy cfg).observeAll lib.text docs = .ok strategy)
    (h : ∀ res, r = .ok res → res.status = .failed ∨ strategy.newWatermark lib.text = .ok none) :
    Extracted u ctx dbName docs r
      [.put ⟨mongoKey u.pre dbName cfg.name ctx.runDt, .parquet groups⟩]
  | committed {r groups strategy value} (hdry : ctx.dryRun = false)
    (hrows : RowsOf lib cfg ctx docs groups.flatten)
    (hobs : (makeStrategy cfg).observeAll lib.text docs = .ok strategy)
    (hwm : strategy.newWatermark lib.text = .ok (some value)) :
    Extracted u ctx dbName docs r
      [.put ⟨mongoKey u.pre dbName cfg.name ctx.runDt, .parquet groups⟩,
        .setWatermark (namespaceOf cfg dbName) ⟨(makeStrategy cfg).kind, value,
          env.clock (.setWatermark (namespaceOf cfg dbName)), ctx.runId⟩]

variable {lib env cfg} {u : S3Uploader} {dbName : String}

lemma commitWatermark_ensures {strategy : Strategy} :
    Ensures (commitWatermark lib env cfg ctx dbName strategy) w fun r w' =>
      Wrote w w' [] ∧ (r = .ok () → strategy.newWatermark lib.text = .ok none) ∨
      ∃ value, strategy.newWatermark lib.text = .ok (some value) ∧
        Wrote w w' [.setWatermark (namespaceOf cfg dbName) ⟨strategy.kind, value,
          env.clock (.setWatermark (namespaceOf cfg dbName)), ctx.runId⟩] := by
  unfold commitWatermark
  simp only [ensures_bind]
  refine ensures_lift ?_
  rcases strategy.newWatermark lib.text with e | value
  · exact .inl ⟨.nil, fun h => by cases h⟩
  rcases value with _ | value
  · exact .inl ⟨.nil, fun _ => rfl⟩
  simp only [ensures_bind]
  refine ensures_call (fun e => .inl ⟨.nil, fun h => by cases h⟩) fun _ => ?_
  exact ensures_emit (.inr ⟨value, rfl, rfl, rfl⟩)

lemma deliver_ensures (h : p.Landed lib cfg ctx docs w) (hnil : p.rows = [])
    (hne : p.sink.rows ≠ 0) : Ensures (deliver lib env cfg u ctx dbName p) w fun r w' =>
      ∃ j, Wrote w w' j ∧ Extracted lib env cfg u ctx dbName docs r j := by
  obtain ⟨hobs, rows, ⟨hlen, hheld⟩, hrows⟩ := h
  rw [hnil, List.append_nil] at hrows
  obtain ⟨-, groups, hspool, rfl⟩ := hheld.resolve_left fun h => hne (by rw [hlen, h.2]; rfl)
  have hnothing : ∀ e w', Wrote w w' [] → ∃ j, Wrote w w' j ∧
      Extracted lib env cfg u ctx dbName docs (.error e) j :=
    fun e w' hw => ⟨[], hw, .nothing fun _ hr => by cases hr⟩
  unfold deliver ParquetVariantSink.close
  simp only [ensures_bind]
  refine ensures_call (fun e => hnothing e _ .nil) fun _ => ?_
  simp only [ensures_get, ensures_pure]
  by_cases hdry : ctx.dryRun
  · rw [if_pos hdry, ensures_bind]
    refine (quiet_unlink p.sink.path w).mono fun r w₁ h₁ => ?_
    cases r with
    | error e => exact hnothing e _ h₁
    | ok _ => exact ⟨[], h₁, .nothing fun _ _ => .inr hdry⟩
  rw [if_neg hdry]
  have hdry' : ctx.dryRun = false := by simpa using hdry
  have hput : ∀ {r w'}, Wrote w w' [.put ⟨mongoKey u.pre dbName cfg.name ctx.runDt,
      .parquet groups⟩] → (∀ res, r = .ok res → res.status = .failed ∨
        p.strategy.newWatermark lib.text = .ok none) →
      ∃ j, Wrote w w' j ∧ Extracted lib env cfg u ctx dbName docs r j :=
    fun hw h => ⟨_, hw, .uploaded hdry' hrows hobs h⟩
  refine Ensures.bind (tryUpload_ensures hspool) ?_ ?_
  · rintro e w₁ (⟨-, h₁⟩ | h₁)
    · exact hnothing e _ h₁
    · exact hput h₁ fun _ hr => by cases hr
  rintro (e | res) w₁ h₁
  · simp only
    refine Ensures.bind (quiet_abort p.sink.path w₁) (fun e w₂ h₂ => ?_) fun a w₂ h₂ => ?_ <;>
      rcases h₁ with ⟨-, h₁⟩ | h₁
    · exact hnothing e _ (h₁.trans h₂)
    · exact hput (h₁.trans h₂) fun _ hr => by cases hr
    · exact ⟨[], h₁.trans h₂, .nothing fun _ hr => .inl (by cases hr; rfl)⟩
    · exact hput (h₁.trans h₂) fun _ hr => .inl (by cases hr; rfl)
  · simp only
    -- the upload returned, so the object is there
    have hput₁ := h₁.resolve_left fun h => h.1 res rfl
    have hkind : (makeStrategy cfg).kind = p.strategy.kind := (observeAll_same hobs).kind
    refine Ensures.bind commitWatermark_ensures ?_ ?_
    · rintro e w₂ (⟨h₂, -⟩ | ⟨value, hwm, h₂⟩)
      · exact hput (hput₁.trans h₂) fun _ hr => by cases hr
      · rw [← hkind] at h₂
        exact ⟨_, hput₁.trans h₂, .committed hdry' hrows hobs hwm⟩
    · rintro a w₂ h₂
      refine Ensures.bind (quiet_unlink p.sink.path w₂) ?_ ?_ <;> intro a w₃ h₃ <;>
        rcases h₂ with ⟨h₂, hnone⟩ | ⟨value, hwm, h₂⟩
      · exact hput (hput₁.trans (h₂.trans h₃)) fun _ hr => by cases hr
      · rw [← hkind] at h₂
        exact ⟨_, hput₁.trans (h₂.trans h₃), .committed hdry' hrows hobs hwm⟩
      · exact hput (hput₁.trans (h₂.trans h₃)) fun _ _ => .inr (hnone rfl)
      · rw [← hkind] at h₂
        exact ⟨_, hput₁.trans (h₂.trans h₃), .committed hdry' hrows hobs hwm⟩

/-- What an extraction asks for, when it goes by a stored watermark. -/
def filterFor (cfg : CollectionConfig) (stored : Option State.Watermark) : Except Exc Filter :=
  (makeStrategy cfg).buildFilter (stored.map (·.value))

/-- Without a watermark, stored or configured, it asks for everything. -/
lemma filterFor_none (h : cfg.initialWatermark = none) : filterFor cfg none = .ok .all := by
  unfold filterFor makeStrategy
  split <;> simp [Strategy.buildFilter, boundText, h]

lemma checkKind_ensures {strategy : Strategy} {stored : Option State.Watermark} :
    Ensures (checkKind strategy stored) w fun _ w' => w' = w := by
  rcases stored with _ | stored
  · rfl
  · exact ensures_lift rfl

/-- **An extraction, by how far it gets**: the world is as it was until the cursor is read. -/
theorem ensures_extractCollection {Q : Except Exc UnitResult → World → Prop}
    (herr : ∀ e, Q (.error e) w)
    (hread : ∀ filter, filterFor cfg (w.store.watermarks (namespaceOf cfg dbName)) = .ok filter →
      Ensures (readCursor lib env cfg ctx (env.find filter (makeStrategy cfg).sortSpec)
          (makeStrategy cfg) (spoolPath ctx.spoolDir (spoolUnit cfg) "parquet")) w fun r w' =>
        Asks (fun p =>
          if p.sink.rows = 0 then
            Ensures (abort env (spoolPath ctx.spoolDir (spoolUnit cfg) "parquet")) w' fun r w'' =>
              Asks (fun _ => Q (.ok { unit := cfg.name, status := .empty }) w'')
                (fun e => Q (.error e) w'') r
          else Ensures (deliver lib env cfg u ctx dbName p) w' Q)
        (fun e => Q (.error e) w') r) :
    Ensures (extractCollection lib env cfg u ctx dbName) w Q := by
  unfold extractCollection
  simp only [ensures_bind]
  refine ensures_call (fun e => herr e) fun _ => ?_
  simp only [ensures_get]
  refine checkKind_ensures.mono fun r w₁ h₁ => ?_
  subst h₁
  rcases r with e | _
  · exact herr e
  simp only
  refine ensures_lift ?_
  generalize hf : Strategy.buildFilter _ _ = x
  rcases x with e | filter
  · exact herr e
  simp only
  refine ensures_call (fun e => herr e) fun _ => ?_
  simp only
  refine (hread filter hf).mono fun r w₂ h₂ => ?_
  rcases r with e | p
  · exact h₂
  change if p.sink.rows = 0 then _ else _ at h₂
  simp only
  split_ifs at h₂ ⊢
  · rw [ensures_bind]
    refine h₂.mono fun r w₃ h₃ => ?_
    rcases r with e | _
    · exact h₃
    · exact h₃
  · exact h₂

/-- **What an extraction can do**: it fails and nothing lasts, or it reads the documents that
the filter of the stored watermark finds. -/
theorem extractCollection_ensures : Ensures (extractCollection lib env cfg u ctx dbName) w
    fun r w' => (∃ e, r = .error e) ∧ Wrote w w' [] ∨
      ∃ filter j, filterFor cfg (w.store.watermarks (namespaceOf cfg dbName)) = .ok filter ∧
        Wrote w w' j ∧ Extracted lib env cfg u ctx dbName
          (env.find filter (makeStrategy cfg).sortSpec) r j := by
  refine ensures_extractCollection (fun e => .inl ⟨⟨e, rfl⟩, .nil⟩) fun filter hf => ?_
  refine readCursor_ensures.mono fun r w₂ ⟨h₂, hread⟩ => ?_
  rcases r with e | p
  · exact .inl ⟨⟨e, rfl⟩, h₂⟩
  obtain ⟨hpath, hnil, hland⟩ := hread p rfl
  show if p.sink.rows = 0 then _ else _
  split_ifs with hrows
  · refine (quiet_abort _ w₂).mono fun r w₃ h₃ => ?_
    rcases r with e | _
    · exact .inl ⟨⟨e, rfl⟩, h₂.trans h₃⟩
    obtain ⟨-, rows, ⟨hlen, -⟩, hall⟩ := hland
    obtain rfl := List.length_eq_zero_iff.mp (hlen.symm.trans hrows)
    rw [hnil] at hall
    exact .inr ⟨filter, [], hf, h₂.trans h₃, .empty (List.forall₂_nil_right_iff.mp hall)⟩
  · refine (deliver_ensures hland hnil hrows).mono fun r w₃ ⟨j, h₃, hex⟩ => ?_
    exact .inr ⟨filter, j, hf, h₂.trans h₃, hex⟩

end MongoSyncAgent.Extract
