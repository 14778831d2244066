import MongoSyncAgent.MutableCursor
import MongoSyncAgent.Tables

/-!
From the uploads of a collection to its clean table: the raw landing table, the numbering of its
rows and the `MERGE` of the latest row of each `_id`.

All rows of a run carry the one extraction time of the run, so the `MERGE` picks the last run that
read a document, and any of the versions that this run read.
-/

namespace MongoSyncAgent.Merge

open MongoSyncAgent.Py MongoSyncAgent.Bson MongoSyncAgent.Config MongoSyncAgent.State
open MongoSyncAgent.Runtime MongoSyncAgent.Sinks MongoSyncAgent.Watermarks MongoSyncAgent.Timestamps
open MongoSyncAgent.Extract MongoSyncAgent.Systems MongoSyncAgent.CollectionRuns
open MongoSyncAgent.Tables MongoSyncAgent.Mutable MongoSyncAgent.MutableCursor

/-! ### The statements -/

/-- The columns of `STAGED_AS_JOBS`, which are those of `MONGO_AS_JOBS`. -/
structure Version where
  id : String
  payload : String
  watermark : String
  extractedAt : Datetime
  deriving DecidableEq

def columns (row : Row) : Version := ⟨row.id, row.payload, row.watermark, row.extractedAt⟩

def Version.stamp (v : Version) : ℤ := v.extractedAt.instant

/-- `STAGED_AS_JOBS`: the rows of the raw table with their row numbers. -/
def Staged (raw : List Row) (staged : List (Version × ℕ)) : Prop :=
  RowNumbers Version.id Version.stamp (raw.map columns) staged

/-- `MERGE INTO MONGO_AS_JOBS`, with the staged rows of number one. -/
def merge (target : List Version) (staged : List (Version × ℕ)) : List Version :=
  upsert Version.id target (firsts staged)

/-! ### The pipeline -/

structure Landing where
  store : StateStore
  /-- The time of the last run. -/
  lastRun : Option Datetime
  /-- The rows of the uploaded files, in the order of their uploads. -/
  files : List (List Row)
  /-- The documents that were read for each of the files. -/
  reads : List (List Doc)
  target : List Version

/-- The raw table has rows of uploaded files, in any order and number. -/
def Loads (files : List (List Row)) (raw : List Row) : Prop :=
  ∃ loads : List (List Row), (∀ file ∈ loads, file ∈ files) ∧ raw.Perm loads.flatten

/-- The raw table has each of the files, once or more often. -/
def LoadsAll (files : List (List Row)) (raw : List Row) : Prop :=
  ∃ loads : List (List Row), (∀ file ∈ loads, file ∈ files) ∧ (∀ file ∈ files, file ∈ loads) ∧
    raw.Perm loads.flatten

inductive LandingEvent
  | run (env : Env) (ctx : RunContext)
  | merge (raw : List Row) (staged : List (Version × ℕ))

/-- The `_id` column of the row of a document. -/
def idText (lib : Libs) (doc : Doc) : String := pyStr lib.text ((get doc "_id").getD .null)

/-- The rows of an object. -/
def rowsOf (p : Put) : List Row :=
  match p.content with
  | .parquet groups => groups.flatten
  | _ => []

variable (lib : Libs) (cfg : CollectionConfig) (u : S3Uploader) (dbName : String)

/-- What the cursor of a run returns, where the run gets to ask for one. -/
def readBy (env : Env) (store : StateStore) : List Doc :=
  MongoState.asked cfg dbName ⟨[], store, [], []⟩ env

def Landing.run (s : Landing) (env : Env) (ctx : RunContext) : Landing :=
  let j := (extraction lib cfg u dbName env ctx s.store).2.journal
  { s with
    store := replay s.store j
    lastRun := some ctx.runDt
    files := s.files ++ (puts j).map rowsOf
    reads := s.reads ++ (puts j).map fun _ => readBy cfg dbName env s.store }

/-- Each run is later than the one before; a cursor returns whatever it returns, and a run may
fail or be killed anywhere. A `MERGE` may find the raw table with part of the files only. -/
inductive LandingStep : Landing → LandingEvent → Landing → Prop
  | run {s env ctx} (h : ∀ d, s.lastRun = some d → d.instant < ctx.runDt.instant) :
    LandingStep s (.run env ctx) (s.run lib cfg u dbName env ctx)
  | merge {s raw staged} (hraw : Loads s.files raw) (hstaged : Staged raw staged) :
    LandingStep s (.merge raw staged) { s with target := merge s.target staged }

def landings : System Landing LandingEvent where
  init s := s.lastRun = none ∧ s.files = [] ∧ s.reads = [] ∧ s.target = []
  step := LandingStep lib cfg u dbName

/-- The last document with the `_id` of those that were read and uploaded. -/
def lastRead (reads : List (List Doc)) (id : String) : Option Doc :=
  (reads.flatten.filter fun doc => idText lib doc = id).getLast?

/-- What a `MERGE` of all that was uploaded is to do. -/
structure Converges (s : Landing) : Prop where
  /-- One row for each `_id`, which is that of the document that was read last. -/
  newest : ∀ raw staged, LoadsAll s.files raw → Staged raw staged →
    ((merge s.target staged).map Version.id).Nodup ∧
    (∀ id, id ∈ (merge s.target staged).map Version.id ↔
      ∃ doc ∈ s.reads.flatten, idText lib doc = id) ∧
    ∀ v ∈ merge s.target staged, ∀ doc, lastRead lib s.reads v.id = some doc →
      v.payload = lib.dumps doc
  /-- The same rows, however the files were loaded and ties were broken. -/
  stable : ∀ raw staged raw' staged', LoadsAll s.files raw → Staged raw staged →
    LoadsAll s.files raw' → Staged raw' staged' →
    (merge s.target staged).Perm (merge s.target staged')
  again : ∀ raw staged staged', LoadsAll s.files raw → Staged raw staged → Staged raw staged' →
    merge (merge s.target staged) staged' = merge s.target staged

/-- The last file that has an `_id` has it in one version. -/
def OneVersion (files : List (List Row)) : Prop :=
  ∀ earlier file later, files = earlier ++ file :: later →
    ∀ a ∈ file, ∀ b ∈ file, a.id = b.id → (∀ f ∈ later, ∀ row ∈ f, row.id ≠ a.id) →
      columns a = columns b

variable {lib cfg u dbName} {s : Landing} {files : List (List Row)}

/-! ### What runs upload -/

variable (lib cfg u dbName) in
/-- A run uploads one file or none, and stamps its rows with its own time. -/
lemma run_files (store : StateStore) (env : Env) (ctx : RunContext) :
    (puts (extraction lib cfg u dbName env ctx store).2.journal).map rowsOf = [] ∨
      ∃ file, (puts (extraction lib cfg u dbName env ctx store).2.journal).map rowsOf = [file] ∧
        ∀ row ∈ file, row.extractedAt = ctx.runDt := by
  have hran := extraction_cases lib cfg u dbName ⟨[], store, [], []⟩ env ctx
  simp only at hran
  generalize extraction lib cfg u dbName env ctx store = out at hran ⊢
  rcases hran with ⟨-, hj⟩ | ⟨filter, hf, hex⟩
  · rw [hj]
    exact .inl rfl
  have hstamped : ∀ {docs rows}, RowsOf lib cfg ctx docs rows →
      ∀ row ∈ rows, row.extractedAt = ctx.runDt := by
    intro docs rows hrows row hmem
    obtain ⟨doc, -, hrow⟩ := hrows.doc_of_row hmem
    exact (docToRow_columns hrow).2.2
  generalize out.1 = r at hex
  generalize out.2.journal = j at hex ⊢
  cases hex with
  | nothing => exact .inl rfl
  | empty => exact .inl rfl
  | uploaded hdry hrows => exact .inr ⟨_, rfl, hstamped hrows⟩
  | committed hdry hrows => exact .inr ⟨_, rfl, hstamped hrows⟩

/-- The row is that of the document. -/
def Shows (lib : Libs) (doc : Doc) (row : Row) : Prop :=
  row.id = idText lib doc ∧ row.payload = lib.dumps doc

lemma rows_show {ctx : RunContext} {docs : List Doc} {rows : List Row}
    (h : RowsOf lib cfg ctx docs rows) : List.Forall₂ (Shows lib) docs rows :=
  List.Forall₂.imp (fun _ _ hrow => (docToRow_columns hrow).1) h

variable (lib cfg u dbName) in
/-- The file of a run has the rows of what the run has read. -/
lemma run_reads (store : StateStore) (env : Env) (ctx : RunContext) :
    List.Forall₂ (List.Forall₂ (Shows lib))
      ((puts (extraction lib cfg u dbName env ctx store).2.journal).map fun _ =>
        readBy cfg dbName env store)
      ((puts (extraction lib cfg u dbName env ctx store).2.journal).map rowsOf) := by
  have hran := extraction_cases lib cfg u dbName ⟨[], store, [], []⟩ env ctx
  simp only at hran
  generalize extraction lib cfg u dbName env ctx store = out at hran ⊢
  rcases hran with ⟨-, hj⟩ | ⟨filter, hf, hex⟩
  · rw [hj]
    exact .nil
  rw [readBy, asked_eq hf]
  generalize out.1 = r at hex
  generalize out.2.journal = j at hex ⊢
  cases hex with
  | nothing => exact .nil
  | empty => exact .nil
  | uploaded hdry hrows => exact .cons (rows_show hrows) .nil
  | committed hdry hrows => exact .cons (rows_show hrows) .nil

/-- **The files have the rows of the documents that were read.** -/
lemma files_show (h : (landings lib cfg u dbName).Reachable s) :
    List.Forall₂ (Shows lib) s.reads.flatten s.files.flatten := by
  refine List.rel_flatten (R := Shows lib) ?_
  refine h.invariant (P := fun s => List.Forall₂ (List.Forall₂ (Shows lib)) s.reads s.files)
    (fun s hs => ?_) fun s e s' _ ih hstep => ?_
  · obtain ⟨-, hfiles, hreads, -⟩ := hs
    rw [hfiles, hreads]
    exact .nil
  · cases hstep with
    | run => exact List.rel_append ih (run_reads lib cfg u dbName ..)
    | merge => exact ih

/-- The rows of a file have one time, and the times of the files ascend. -/
structure LandingInv (s : Landing) : Prop where
  stamped : ∀ file ∈ s.files, ∀ a ∈ file, ∀ b ∈ file, a.extractedAt = b.extractedAt
  ordered : s.files.Pairwise fun f g =>
    ∀ a ∈ f, ∀ b ∈ g, a.extractedAt.instant < b.extractedAt.instant
  bounded : ∀ file ∈ s.files, ∀ a ∈ file, ∃ d, s.lastRun = some d ∧
    a.extractedAt.instant ≤ d.instant
  keys : (s.target.map Version.id).Nodup
  uploaded : ∀ v ∈ s.target, ∃ row ∈ s.files.flatten, row.id = v.id

lemma landingInv_run {env : Env} {ctx : RunContext} (h : LandingInv s)
    (hlater : ∀ d, s.lastRun = some d → d.instant < ctx.runDt.instant) :
    LandingInv (s.run lib cfg u dbName env ctx) := by
  have hbefore : ∀ file ∈ s.files, ∀ a ∈ file, a.extractedAt.instant < ctx.runDt.instant := by
    intro file hfile a ha
    obtain ⟨d, hd, hle⟩ := h.bounded file hfile a ha
    exact hle.trans_lt (hlater d hd)
  obtain ⟨new, hfiles, hnew⟩ : ∃ new, (s.run lib cfg u dbName env ctx).files = s.files ++ new ∧
      (new = [] ∨ ∃ file, new = [file] ∧ ∀ row ∈ file, row.extractedAt = ctx.runDt) :=
    ⟨_, rfl, run_files lib cfg u dbName s.store env ctx⟩
  have hstamp : ∀ file ∈ new, ∀ row ∈ file, row.extractedAt = ctx.runDt := by
    rcases hnew with rfl | ⟨file, rfl, hstamp⟩
    · exact fun _ h => by cases h
    · exact List.forall_mem_singleton.mpr hstamp
  have hpair : new.Pairwise fun f g =>
      ∀ a ∈ f, ∀ b ∈ g, a.extractedAt.instant < b.extractedAt.instant := by
    rcases hnew with rfl | ⟨file, rfl, -⟩
    · exact .nil
    · exact List.pairwise_singleton _ _
  constructor
  case keys => exact h.keys
  all_goals rw [hfiles]
  case stamped =>
    intro file hfile a ha b hb
    rcases List.mem_append.mp hfile with hfile | hfile
    · exact h.stamped file hfile a ha b hb
    · rw [hstamp file hfile a ha, hstamp file hfile b hb]
  case ordered =>
    refine List.pairwise_append.mpr ⟨h.ordered, hpair, fun f hf g hg a ha b hb => ?_⟩
    rw [hstamp g hg b hb]
    exact hbefore f hf a ha
  case bounded =>
    intro file hfile a ha
    refine ⟨ctx.runDt, rfl, ?_⟩
    rcases List.mem_append.mp hfile with hfile | hfile
    · exact (hbefore file hfile a ha).le
    · rw [hstamp file hfile a ha]
  case uploaded =>
    intro v hv
    obtain ⟨row, hrow, hid⟩ := h.uploaded v hv
    exact ⟨row, by simp [hrow], hid⟩

/-- What a raw table has was uploaded. -/
lemma Loads.mem {raw : List Row} (h : Loads files raw) {row : Row} (hrow : row ∈ raw) :
    row ∈ files.flatten := by
  obtain ⟨loads, hfrom, hperm⟩ := h
  obtain ⟨file, hfile, hmem⟩ := List.mem_flatten.mp (hperm.mem_iff.mp hrow)
  exact List.mem_flatten.mpr ⟨file, hfrom file hfile, hmem⟩

lemma landingInv_merge {raw : List Row} {staged : List (Version × ℕ)} (h : LandingInv s)
    (hraw : Loads s.files raw) (hstaged : Staged raw staged) :
    LandingInv { s with target := merge s.target staged } := by
  obtain ⟨hnodup, hlatest, -⟩ := hstaged.firsts
  refine { h with keys := upsert_nodup h.keys hnodup, uploaded := fun v hv => ?_ }
  rcases (mem_upsert hnodup).mp hv with hv | ⟨hv, -⟩
  · obtain ⟨row, hrow, rfl⟩ := List.mem_map.mp (hlatest v hv).1
    exact ⟨row, hraw.mem hrow, rfl⟩
  · exact h.uploaded v hv

theorem landingInv (h : (landings lib cfg u dbName).Reachable s) : LandingInv s := by
  refine h.invariant (fun s hs => ?_) fun s e s' _ hinv hstep => ?_
  · obtain ⟨-, hfiles, -, htarget⟩ := hs
    constructor <;> simp [hfiles, htarget]
  · cases hstep with
    | run hlater => exact landingInv_run hinv hlater
    | merge hraw hstaged => exact landingInv_merge hinv hraw hstaged

/-! ### The latest rows -/

/-- A raw table with all files has the rows that were uploaded. -/
lemma LoadsAll.mem_iff {raw : List Row} (h : LoadsAll files raw) {row : Row} :
    row ∈ raw ↔ row ∈ files.flatten := by
  obtain ⟨loads, hfrom, hall, hperm⟩ := h
  refine ⟨fun hrow => Loads.mem ⟨loads, hfrom, hperm⟩ hrow, fun hrow => ?_⟩
  obtain ⟨file, hfile, hmem⟩ := List.mem_flatten.mp hrow
  exact hperm.mem_iff.mpr (List.mem_flatten.mpr ⟨file, hall file hfile, hmem⟩)

lemma loadsAll_self (files : List (List Row)) : LoadsAll files files.flatten :=
  ⟨files, fun _ h => h, fun _ h => h, List.Perm.refl _⟩

/-- The last file that has an `_id`. -/
def LastFile (files : List (List Row)) (id : String) (file : List Row) : Prop :=
  ∃ earlier later, files = earlier ++ file :: later ∧ (∃ row ∈ file, row.id = id) ∧
    ∀ f ∈ later, ∀ row ∈ f, row.id ≠ id

lemma exists_lastFile {id : String} (h : ∃ row ∈ files.flatten, row.id = id) :
    ∃ file, LastFile files id file := by
  induction files with
  | nil => simp at h
  | cons file files ih =>
    by_cases hlater : ∃ row ∈ files.flatten, row.id = id
    · obtain ⟨last, earlier, later, rfl, hhas, hnone⟩ := ih hlater
      exact ⟨last, file :: earlier, later, rfl, hhas, hnone⟩
    · obtain ⟨row, hrow, hid⟩ := h
      refine ⟨file, [], files, rfl, ⟨row, ?_, hid⟩, fun f hf r hr hrid => hlater ⟨r, ?_, hrid⟩⟩
      · rw [List.flatten_cons, List.mem_append] at hrow
        exact hrow.resolve_right fun hrow => hlater ⟨row, hrow, hid⟩
      · exact List.mem_flatten.mpr ⟨f, hf, hr⟩

/-- The last row with the `_id`, in the order in which the documents were read. -/
def lastRow (files : List (List Row)) (id : String) : Option Row :=
  (files.flatten.filter fun row => row.id = id).getLast?

/-- The last row is that of the document that was read last. -/
lemma lastRow_shows {docs : List Doc} {rows : List Row} (h : List.Forall₂ (Shows lib) docs rows)
    {id : String} {doc : Doc}
    (hdoc : (docs.filter fun doc => idText lib doc = id).getLast? = some doc) :
    ∃ row, (rows.filter fun row => row.id = id).getLast? = some row ∧ Shows lib doc row := by
  have hfilter : List.Forall₂ (Shows lib) (docs.filter fun doc => idText lib doc = id)
      (rows.filter fun row => row.id = id) :=
    List.rel_filter (fun doc row hshow => by simp [hshow.1]) h
  have hreverse := List.forall₂_reverse_iff.mpr hfilter
  rw [List.getLast?_eq_head?_reverse] at hdoc ⊢
  generalize (docs.filter _).reverse = ds at hdoc hreverse
  generalize (rows.filter _).reverse = rs at hreverse ⊢
  cases hreverse with
  | nil => cases hdoc
  | cons hshow _ =>
    obtain rfl := Option.some.inj hdoc
    exact ⟨_, rfl, hshow⟩

/-- The `_id`s of the rows are those of the documents. -/
lemma id_shows {docs : List Doc} {rows : List Row} (h : List.Forall₂ (Shows lib) docs rows)
    (id : String) : (∃ row ∈ rows, row.id = id) ↔ ∃ doc ∈ docs, idText lib doc = id := by
  induction h with
  | nil => simp
  | cons hshow _ ih => simp [hshow.1, ih]

/-- The last row of an `_id` is in its last file. -/
lemma lastRow_mem {id : String} {file : List Row} (hfile : LastFile files id file) {row : Row}
    (h : lastRow files id = some row) : row ∈ file ∧ row.id = id := by
  obtain ⟨earlier, later, rfl, ⟨a, ha, hid⟩, hnone⟩ := hfile
  have hlater : (later.flatten.filter fun row => row.id = id) = [] := by
    rw [List.filter_eq_nil_iff]
    intro r hr
    obtain ⟨f, hf, hr⟩ := List.mem_flatten.mp hr
    simpa using hnone f hf r hr
  have hne : (file.filter fun row => row.id = id) ≠ [] :=
    List.ne_nil_of_mem (List.mem_filter.mpr ⟨ha, by simpa using hid⟩)
  rw [lastRow, List.flatten_append, List.flatten_cons, List.filter_append, List.filter_append,
    hlater, List.append_nil, List.getLast?_append_of_ne_nil _ hne] at h
  have hmem := List.mem_of_getLast? h
  simpa using hmem

/-- **The latest rows** of an `_id` are those of its last file. -/
lemma latest_iff (h : LandingInv s) {id : String} {file : List Row}
    (hfile : LastFile s.files id file) {a : Row} (hid : a.id = id) :
    Latest Version.id Version.stamp (s.files.flatten.map columns) (columns a) ↔
      ∃ b ∈ file, columns b = columns a := by
  obtain ⟨earlier, later, hfiles, ⟨c, hc, hcid⟩, hnone⟩ := hfile
  have hmem : ∀ {f}, f ∈ earlier ++ file :: later → f ∈ s.files := fun hf => hfiles ▸ hf
  have hord := h.ordered
  rw [hfiles] at hord
  have hearlier : ∀ f ∈ earlier, ∀ x ∈ f, ∀ y ∈ file,
      x.extractedAt.instant < y.extractedAt.instant := fun f hf x hx y hy =>
    (List.pairwise_append.mp hord).2.2 f hf file List.mem_cons_self x hx y hy
  -- a row of the `_id` is in the last file or before it
  have hplace : ∀ r ∈ s.files.flatten, r.id = id → r ∈ file ∨ ∃ f ∈ earlier, r ∈ f := by
    intro r hr hrid
    obtain ⟨f, hf, hr⟩ := List.mem_flatten.mp hr
    rw [hfiles] at hf
    rcases List.mem_append.mp hf with hf | hf
    · exact .inr ⟨f, hf, hr⟩
    · rcases List.mem_cons.mp hf with rfl | hf
      · exact .inl hr
      · exact absurd hrid (hnone f hf r hr)
  have hall : ∀ {r}, r ∈ file → r ∈ s.files.flatten := fun hr =>
    List.mem_flatten.mpr ⟨file, hmem (by simp), hr⟩
  constructor
  · rintro ⟨hin, hle⟩
    obtain ⟨b, hb, heq⟩ := List.mem_map.mp hin
    have hbid : b.id = id := (congrArg Version.id heq).trans hid
    refine ⟨b, (hplace b hb hbid).resolve_right ?_, heq⟩
    rintro ⟨f, hf, hbf⟩
    have hlt : (columns b).stamp < (columns c).stamp := hearlier f hf b hbf c hc
    have hge := hle (columns c) (List.mem_map_of_mem (hall hc)) (hcid.trans hid.symm)
    rw [← heq] at hge
    omega
  · rintro ⟨b, hb, heq⟩
    rw [← heq]
    refine ⟨List.mem_map_of_mem (hall hb), fun v hv hvid => ?_⟩
    obtain ⟨r, hr, rfl⟩ := List.mem_map.mp hv
    have hbid : b.id = id := (congrArg Version.id heq).trans hid
    rcases hplace r hr (Eq.trans hvid hbid) with hr | ⟨f, hf, hr⟩
    · have hstamp := h.stamped file (hmem (by simp)) r hr b hb
      exact (congrArg Datetime.instant hstamp).le
    · exact (hearlier f hf r hr b hb).le

/-- Rows are settled if and only if the last file of each `_id` has one version. -/
lemma settled_iff (h : LandingInv s) :
    Settled Version.id Version.stamp (s.files.flatten.map columns) ↔ OneVersion s.files := by
  constructor
  · intro hsettled earlier file later hfiles a ha b hb hid hnone
    have hfile : LastFile s.files a.id file := ⟨earlier, later, hfiles, ⟨a, ha, rfl⟩, hnone⟩
    exact hsettled _ _ ((latest_iff h hfile rfl).mpr ⟨a, ha, rfl⟩)
      ((latest_iff h hfile hid.symm).mpr ⟨b, hb, rfl⟩) hid
  · intro hone v w hv hw hid
    obtain ⟨a, ha, rfl⟩ := List.mem_map.mp hv.1
    obtain ⟨b, hb, rfl⟩ := List.mem_map.mp hw.1
    obtain ⟨file, hfile⟩ := exists_lastFile ⟨a, ha, rfl⟩
    obtain ⟨a', ha', heq⟩ := (latest_iff h hfile rfl).mp hv
    obtain ⟨b', hb', heq'⟩ := (latest_iff h hfile (Eq.symm hid)).mp hw
    obtain ⟨earlier, later, hfiles, -, hnone⟩ := hfile
    have haid : a'.id = a.id := congrArg Version.id heq
    have hbid : b'.id = b.id := congrArg Version.id heq'
    rw [← heq, ← heq']
    exact hone earlier file later hfiles a' ha' b' hb' (haid.trans (hid.trans hbid.symm))
      fun f hf row hrow => haid ▸ hnone f hf row hrow

/-! ### Convergence -/

section Merged

variable {raw : List Row} {staged : List (Version × ℕ)}

/-- All raw tables that have all files have the same rows. -/
lemma mem_loaded (hraw : LoadsAll files raw) (v : Version) :
    v ∈ raw.map columns ↔ v ∈ files.flatten.map columns := by
  simp only [List.mem_map, hraw.mem_iff]

/-- What the clean table has is in every raw table that has all files. -/
lemma target_loaded (hinv : LandingInv s) (hraw : LoadsAll s.files raw) :
    ∀ v ∈ s.target, ∃ a ∈ raw.map columns, Version.id a = v.id := by
  intro v hv
  obtain ⟨row, hrow, hid⟩ := hinv.uploaded v hv
  exact ⟨columns row, (mem_loaded hraw _).mpr (List.mem_map_of_mem hrow), hid⟩

lemma merged_nodup (hinv : LandingInv s) (hstaged : Staged raw staged) :
    ((merge s.target staged).map Version.id).Nodup :=
  upsert_nodup hinv.keys hstaged.firsts.1

variable (hinv : LandingInv s)
  (hsettled : Settled Version.id Version.stamp (s.files.flatten.map columns))
  (hraw : LoadsAll s.files raw) (hstaged : Staged raw staged)

include hinv hsettled hraw hstaged

/-- **What a `MERGE` leaves** of settled rows are the latest ones. -/
lemma mem_merged (v : Version) : v ∈ merge s.target staged ↔
    Latest Version.id Version.stamp (s.files.flatten.map columns) v := by
  have hsettled' : Settled Version.id Version.stamp (raw.map columns) := fun b c hb hc =>
    hsettled b c ((Latest.congr (mem_loaded hraw)).mp hb) ((Latest.congr (mem_loaded hraw)).mp hc)
  exact (mem_upsert_settled hsettled' (target_loaded hinv hraw) hstaged).trans
    (Latest.congr (mem_loaded hraw))

/-- The clean table has the `_id`s of the documents that were read. -/
lemma merged_ids (hshows : List.Forall₂ (Shows lib) s.reads.flatten s.files.flatten)
    (id : String) : id ∈ (merge s.target staged).map Version.id ↔
      ∃ doc ∈ s.reads.flatten, idText lib doc = id := by
  rw [← id_shows hshows]
  constructor
  · intro hid
    obtain ⟨v, hv, rfl⟩ := List.mem_map.mp hid
    have hlatest := (mem_merged hinv hsettled hraw hstaged v).mp hv
    obtain ⟨row, hrow, rfl⟩ := List.mem_map.mp hlatest.1
    exact ⟨row, hrow, rfl⟩
  · rintro ⟨row, hrow, rfl⟩
    obtain ⟨v, hv, hid⟩ := hstaged.firsts.2.2 (columns row)
      ((mem_loaded hraw _).mpr (List.mem_map_of_mem hrow))
    exact List.mem_map.mpr ⟨v, (mem_upsert hstaged.firsts.1).mpr (.inl hv), hid⟩

/-- A row of the clean table is that of the document which was read last. -/
lemma merged_newest (hshows : List.Forall₂ (Shows lib) s.reads.flatten s.files.flatten)
    {v : Version} (hv : v ∈ merge s.target staged) {doc : Doc}
    (hdoc : lastRead lib s.reads v.id = some doc) : v.payload = lib.dumps doc := by
  have hlatest := (mem_merged hinv hsettled hraw hstaged v).mp hv
  obtain ⟨a, ha, rfl⟩ := List.mem_map.mp hlatest.1
  obtain ⟨file, hfile⟩ := exists_lastFile ⟨a, ha, rfl⟩
  obtain ⟨row, hrow, hshow⟩ := lastRow_shows hshows hdoc
  obtain ⟨hrow, hid⟩ := lastRow_mem hfile hrow
  have hlast := (latest_iff hinv hfile hid).mpr ⟨row, hrow, rfl⟩
  have hpayload := congrArg Version.payload (hsettled _ _ hlatest hlast hid.symm)
  exact hpayload.trans hshow.2

end Merged

/-- **The `MERGE` converges** to the versions that were read last if and only if the last file
of each `_id` has it in one version. -/
theorem merge_converges_iff (h : (landings lib cfg u dbName).Reachable s) :
    Converges lib s ↔ OneVersion s.files := by
  have hinv := landingInv h
  have hshows := files_show h
  rw [← settled_iff hinv]
  constructor
  · intro hconv
    have hself := loadsAll_self s.files
    exact settled_of_stable hinv.keys (target_loaded hinv hself) fun staged staged' hnum hnum' =>
      hconv.stable _ staged _ staged' hself hnum hself hnum'
  intro hsettled
  refine ⟨fun raw staged hraw hstaged => ⟨merged_nodup hinv hstaged,
    merged_ids hinv hsettled hraw hstaged hshows, fun v hv doc hdoc =>
      merged_newest hinv hsettled hraw hstaged hshows hv hdoc⟩, ?_, ?_⟩
  · intro raw staged raw' staged' hraw hstaged hraw' hstaged'
    refine (List.perm_ext_iff_of_nodup (merged_nodup hinv hstaged).of_map
      (merged_nodup hinv hstaged').of_map).mpr fun v => ?_
    exact (mem_merged hinv hsettled hraw hstaged v).trans
      (mem_merged hinv hsettled hraw' hstaged' v).symm
  · intro raw staged staged' hraw hstaged hstaged'
    refine upsert_self (merged_nodup hinv hstaged) fun v hv => ?_
    have hagain : v ∈ merge s.target staged' := (mem_upsert hstaged'.firsts.1).mpr (.inl hv)
    exact (mem_merged hinv hsettled hraw hstaged v).mpr
      ((mem_merged hinv hsettled hraw hstaged' v).mp hagain)

/-! ### A job that a cursor returns twice -/

def freshLanding : Landing := ⟨StateStore.empty, none, [], [], []⟩

/-- What a run at this second leaves whose cursor returns these documents. -/
def landed (s : Landing) (seconds : Fin 3600) (docs : List Doc) : Landing :=
  s.run jobLibs sampleCollection sampleUploader "db"
    { calmReads [] (later seconds) with find := fun _ _ => docs }
    { sampleCtx with runDt := later seconds }

lemma landed_reachable {s : Landing} (h : (landings jobLibs sampleCollection sampleUploader
    "db").Reachable s) {seconds : Fin 3600} (docs : List Doc)
    (hlater : ∀ d, s.lastRun = some d → d.instant < (later seconds).instant) :
    (landings jobLibs sampleCollection sampleUploader "db").Reachable
      (landed s seconds docs) := by
  have hrun : LandingStep jobLibs sampleCollection sampleUploader "db" s
      (.run { calmReads [] (later seconds) with find := fun _ _ => docs }
        { sampleCtx with runDt := later seconds }) (landed s seconds docs) := .run hlater
  exact h.step hrun

lemma freshLanding_reachable :
    (landings jobLibs sampleCollection sampleUploader "db").Reachable freshLanding :=
  .init ⟨rfl, rfl, rfl, rfl⟩

/-- A run reads the job, and a later one reads it again when it has changed. -/
def landedTwice (first second : Fin 3600) : Landing :=
  landed (landed freshLanding first [job 1 (later first)]) second [job 1 (later second)]

/-- Each of the two files is loaded twice, and the `MERGE` takes what the second run read. -/
theorem merge_converges_sample : (landedTwice 0 60).files.length = 2 ∧
    Converges jobLibs (landedTwice 0 60) ∧
    ∀ staged, Staged ((landedTwice 0 60).files ++ (landedTwice 0 60).files).flatten staged →
      ∀ v ∈ merge [] staged, v.payload = jobJson (job 1 (later 60)) := by
  have hreach : (landings jobLibs sampleCollection sampleUploader "db").Reachable
      (landedTwice 0 60) := by
    refine landed_reachable (landed_reachable freshLanding_reachable _ fun d hd => by cases hd) _ ?_
    intro d hd
    obtain rfl : later 0 = d := Option.some.inj hd
    decide
  have hfiles : ∃ row row' : Row, (landedTwice 0 60).files = [[row], [row']] := ⟨_, _, rfl⟩
  obtain ⟨row, row', hrows⟩ := hfiles
  have hconv : Converges jobLibs (landedTwice 0 60) := by
    refine (merge_converges_iff hreach).mpr fun earlier file later hfiles a ha b hb _ _ => ?_
    have hmem : file ∈ [[row], [row']] := by
      rw [← hrows, hfiles]
      simp
    have hsingle : ∃ r, file = [r] := by
      simp only [List.mem_cons, List.not_mem_nil, or_false] at hmem
      exact hmem.elim (fun h => ⟨row, h⟩) fun h => ⟨row', h⟩
    obtain ⟨r, rfl⟩ := hsingle
    rw [List.mem_singleton.mp ha, List.mem_singleton.mp hb]
  refine ⟨rfl, hconv, fun staged hstaged v hv => ?_⟩
  have hall : LoadsAll (landedTwice 0 60).files
      ((landedTwice 0 60).files ++ (landedTwice 0 60).files).flatten :=
    ⟨_, fun f hf => (List.mem_append.mp hf).elim id id,
      fun f hf => List.mem_append_left _ hf, .refl _⟩
  obtain ⟨-, hids, hnewest⟩ := hconv.newest _ staged hall hstaged
  obtain ⟨doc, hdoc, hid⟩ := (hids v.id).mp (List.mem_map_of_mem hv)
  have hreads : (landedTwice 0 60).reads = [[job 1 (later 0)], [job 1 (later 60)]] := rfl
  have hone : v.id = "1" := by
    rw [hreads] at hdoc
    simp only [List.flatten_cons, List.flatten_nil, List.mem_append, List.mem_singleton,
      List.not_mem_nil, or_false] at hdoc
    rcases hdoc with rfl | rfl <;> exact hid.symm
  exact hnewest v hv (job 1 (later 60)) (by rw [hone]; rfl)

/-- The cursor of one run returns the job twice. -/
def returnedTwice (first second : Fin 3600) : Landing :=
  landed freshLanding first [job 1 (later first), job 1 (later second)]

/-- The job was changed between the two returns, and the `MERGE` takes the first one. -/
theorem stale_version_merged :
    (landings jobLibs sampleCollection sampleUploader "db").Reachable (returnedTwice 0 10) ∧
    ∃ raw staged v, LoadsAll (returnedTwice 0 10).files raw ∧ Staged raw staged ∧
      v ∈ merge (returnedTwice 0 10).target staged ∧
      lastRead jobLibs (returnedTwice 0 10).reads v.id = some (job 1 (later 10)) ∧
      v.payload = jobJson (job 1 (later 0)) ∧ v.payload ≠ jobJson (job 1 (later 10)) := by
  refine ⟨landed_reachable freshLanding_reachable _ fun d hd => (by cases hd), ?_⟩
  have hfiles : ∃ w w', (returnedTwice 0 10).files =
        [[⟨jobJson (job 1 (later 0)), "1", w, later 0, ""⟩,
          ⟨jobJson (job 1 (later 10)), "1", w', later 0, ""⟩]] := ⟨_, _, rfl⟩
  obtain ⟨w, w', hfiles⟩ := hfiles
  have hne : jobJson (job 1 (later 0)) ≠ jobJson (job 1 (later 10)) := by
    decide +kernel
  rw [hfiles]
  refine ⟨_, number Version.id [] _, ⟨"1", jobJson (job 1 (later 0)), w, later 0⟩,
    loadsAll_self _, ⟨_, List.Perm.refl _, ?_, List.Perm.refl _⟩, ?_, rfl, rfl, hne⟩
  · -- both rows have the time of the run, so they may come in this order
    simp [Descending, columns, Version.stamp]
  · exact List.mem_cons_self

end MongoSyncAgent.Merge
