import MongoSyncAgent.GrowingLogs
import MongoSyncAgent.Hosts

/-!
What hosts that share a bucket have committed is in the bucket, as long as no upload replaces the
object of a run that has committed or is to commit.

What a committed run has read stays, whatever it went on from. What it did not read itself it
takes as read before: the lines before the offsets that it starts from, the documents that its
filter leaves out. Where committed runs have read these, all that is covered by committed state
stays.
-/

namespace MongoSyncAgent.SharedBucket

open MongoSyncAgent.Config MongoSyncAgent.State MongoSyncAgent.Runtime MongoSyncAgent.Outcomes
open MongoSyncAgent.Sinks MongoSyncAgent.Ship MongoSyncAgent.Sources MongoSyncAgent.Extract
open MongoSyncAgent.LogRuns MongoSyncAgent.CollectionRuns MongoSyncAgent.Systems MongoSyncAgent.Bson
open MongoSyncAgent.Lines MongoSyncAgent.Records MongoSyncAgent.GrowingLogs MongoSyncAgent.Hosts
open MongoSyncAgent.Codecs MongoSyncAgent.Keys MongoSyncAgent.Windows

variable {H : Type} (lib : Libs) (u : S3Uploader) (sources : H → HostSources)

/-! ### What committed runs have read -/

/-- What a run of a source has collected. -/
def partsOf (r : Run H) (name : String) : List Part :=
  collected lib ((sources r.host).config name) r.env r.store

/-- A committed run of the source on the host has read the line. -/
def LineRead (s : Cluster H) (h : H) (name line : String) : Prop :=
  ∃ r ∈ s.committed, r.host = h ∧ ∃ gcDays, r.job = .ship name gcDays ∧
    ∃ part ∈ partsOf lib sources r name, ∃ chunk ∈ part.chunks, line ∈ chunk.lines

/-- A committed run has read the document. -/
def DocRead (s : Cluster H) (doc : Doc) : Prop :=
  ∃ r ∈ s.committed, ∃ cfg dbName, r.job = .extract cfg dbName ∧ doc ∈ docsOf cfg dbName r

/-- A committed run of the source on the host ended at the offset, in a file with the same bytes
before it. -/
def Measured (s : Cluster H) (h : H) (name : String) (data : Bytes) (offset : ℕ) : Prop :=
  ∃ r ∈ s.committed, r.host = h ∧ ∃ gcDays, r.job = .ship name gcDays ∧
    ∃ part ∈ partsOf lib sources r name, part.endOffset = offset ∧
      ∃ node, r.fs.lookup part.plan.path = some node ∧
        node.data.take offset = data.take offset

/-- The next run of the collection on the host asks for the document. -/
def Asked (cfg : CollectionConfig) (dbName : String) (store : StateStore) (doc : Doc) : Prop :=
  Awaited cfg dbName ⟨[], store, [], []⟩ doc

/-- A poll finds the files as they are, and an offset that it resumes from was measured on the
bytes before it. An extraction reads its collection at one moment, and a document that it does
not ask for has been read. -/
def resumes (s : Cluster H) : ClusterEvent H → Prop
  | .start h (.ship name _) env _ =>
    Sees env ((sources h).config name) (s.fs h) ∧
      ∀ p node fo, (s.fs h).lookup p = some node →
        ((s.store h).fileOffsets name).lookup (keyOf lib p node.data) = some fo →
          0 < fo.offset → fo.offset ≤ node.data.length →
            Measured lib sources s h name node.data fo.offset
  | .start h (.extract cfg dbName) env _ =>
    ∃ docs, ReadsAtOnce env docs ∧ ∀ doc ∈ docs, Asked cfg dbName (s.store h) doc ∨ DocRead s doc
  | _ => True

/-! ### Runs that go on from what was read -/

/-- What lies before the end of a part, or was there for an extraction to read, the run reads
itself or committed runs have read. -/
def GoesOn (s : Cluster H) (r : Run H) : Prop :=
  match r.job with
  | .ship name _ => ∀ part ∈ partsOf lib sources r name, ∃ node,
      r.fs.lookup part.plan.path = some node ∧
        Boundary ((sources r.host).config name).encoding node.data part.endOffset ∧
        ∀ line ∈ nonBlankLines ((sources r.host).config name).encoding
          (node.data.take part.endOffset),
            (∃ chunk ∈ part.chunks, line ∈ chunk.lines) ∨ LineRead lib sources s r.host name line
  | .extract cfg dbName => ∃ docs, ReadsAtOnce r.env docs ∧
      ∀ doc ∈ docs, Asked cfg dbName r.store doc ∨ DocRead s doc

/-- The run goes on, or it has committed. -/
def Known (s : Cluster H) (r : Run H) : Prop :=
  r ∈ s.committed ∨ ∃ h left, s.running h = some (r, left)

variable {lib u sources} {s s' : Cluster H} {h : H} {name : String}

lemma LineRead.mono (hsub : ∀ r ∈ s.committed, r ∈ s'.committed) {line : String}
    (hl : LineRead lib sources s h name line) : LineRead lib sources s' h name line := by
  obtain ⟨r, hr, hrest⟩ := hl
  exact ⟨r, hsub r hr, hrest⟩

lemma DocRead.mono (hsub : ∀ r ∈ s.committed, r ∈ s'.committed) {doc : Doc}
    (hd : DocRead s doc) : DocRead s' doc := by
  obtain ⟨r, hr, hrest⟩ := hd
  exact ⟨r, hsub r hr, hrest⟩

lemma GoesOn.mono (hsub : ∀ r ∈ s.committed, r ∈ s'.committed) {r : Run H}
    (hg : GoesOn lib sources s r) : GoesOn lib sources s' r := by
  unfold GoesOn at hg ⊢
  split at hg
  · intro part hpart
    obtain ⟨node, hn, hb, hlines⟩ := hg part hpart
    exact ⟨node, hn, hb, fun line hl => (hlines line hl).imp_right (LineRead.mono hsub)⟩
  · obtain ⟨docs, hdocs, hall⟩ := hg
    exact ⟨docs, hdocs, fun doc hd => (hall doc hd).imp_right (DocRead.mono hsub)⟩

/-- An offset that was measured is a boundary of the file, and the lines before it are read. -/
lemma Measured.covered (hgoes : ∀ r, Known s r → GoesOn lib sources s r) {data : Bytes}
    {offset : ℕ} (hle : offset ≤ data.length) (hm : Measured lib sources s h name data offset) :
    Boundary ((sources h).config name).encoding data offset ∧
      ∀ line ∈ nonBlankLines ((sources h).config name).encoding (data.take offset),
        LineRead lib sources s h name line := by
  obtain ⟨r, hr, rfl, gcDays, hjob, part, hpart, rfl, node, hn, hsame⟩ := hm
  have hg := hgoes r (.inl hr)
  unfold GoesOn at hg
  rw [hjob] at hg
  obtain ⟨node', hn', hb, hlines⟩ := hg part hpart
  obtain rfl := Option.some.inj (hn.symm.trans hn')
  have hcut := hb.2
  rw [hsame] at hlines hcut
  refine ⟨⟨hle, hcut⟩, fun line hl => ?_⟩
  rcases hlines line hl with hread | hread
  · exact ⟨r, hr, rfl, gcDays, hjob, part, hpart, hread⟩
  · exact hread

/-- What a run has collected are parts of the files. -/
lemma mem_collected {source : LogSourceConfig} {env : Env} {store : StateStore} {part : Part}
    (hpart : part ∈ collected lib source env store) : ∃ parts,
      drainPlans lib env source (discover lib env source (store.fileOffsets source.name)) =
        .ok parts ∧ part ∈ parts := by
  unfold collected at hpart
  split at hpart
  · next parts hok => exact ⟨parts, hok, hpart⟩
  · cases hpart

/-- **A run that starts where offsets were measured** goes on from what was read. -/
lemma goesOn_newRun (hsup : ∀ h name, Supported ((sources h).config name).encoding)
    (hgoes : ∀ r, Known s r → GoesOn lib sources s r) {job : Job} {env : Env} {ctx : RunContext}
    (hok : resumes lib sources s (.start h job env ctx)) :
    GoesOn lib sources s (s.newRun h job env ctx) := by
  rcases job with ⟨name, gcDays⟩ | ⟨cfg, dbName⟩
  · obtain ⟨hs, hmeasured⟩ := hok
    intro part hpart
    have hcollected : part ∈ collected lib ((sources h).config name) env (s.store h) := hpart
    obtain ⟨parts, hparts, hmem⟩ := mem_collected hcollected
    rw [(sources h).name_config] at hparts
    obtain ⟨node, hn⟩ := partOf_mem hs hparts hmem
    -- the part starts where all lines before it are read
    have hstart : Boundary ((sources h).config name).encoding node.data part.plan.startOffset ∧
        ∀ line ∈ nonBlankLines ((sources h).config name).encoding
          (node.data.take part.plan.startOffset), LineRead lib sources s h name line := by
      have hzero : Boundary ((sources h).config name).encoding node.data 0 ∧
          ∀ line ∈ nonBlankLines ((sources h).config name).encoding (node.data.take 0),
            LineRead lib sources s h name line := by
        refine ⟨cutAt_zero _ _, fun line hl => ?_⟩
        simp at hl
      rw [hn.start, startOf]
      rcases ho : ((s.store h).fileOffsets name).lookup
        (keyOf lib part.plan.path node.data) with _ | fo
      · exact hzero
      · simp only [Option.map_some, Option.getD_some, resume]
        split_ifs with hlt
        · exact hzero
        · rcases Nat.eq_zero_or_pos fo.offset with h0 | hpos
          · rwa [h0]
          · have hle := Nat.not_lt.mp hlt
            exact (hmeasured _ _ fo hn.lookup ho hpos hle).covered hgoes hle
    obtain ⟨hle, hend⟩ := hn.ends hs hstart.1
    have hlines : ∀ line ∈ nonBlankLines ((sources h).config name).encoding
        (node.data.take part.endOffset), (∃ chunk ∈ part.chunks, line ∈ chunk.lines) ∨
          LineRead lib sources s h name line := by
      intro line hl
      rw [lines_take (hsup h name) hstart.1 hle, List.mem_append,
        ← hn.lines hs (hsup h name) hstart.1 ctx, records_lines] at hl
      exact hl.symm.imp List.mem_flatMap.mp (hstart.2 line)
    exact ⟨node, hn.lookup, hend, hlines⟩
  · exact hok

section Runs

variable [DecidableEq H]

/-- Only a start brings a run. -/
lemma known_perform {r r' : Run H} {e : Effect} {left : List Effect}
    (hrun : s.running h = some (r, e :: left)) (hk : Known (s.perform h r e left) r') :
    Known s r' := by
  rcases hk with hr' | ⟨h', left', hrun'⟩
  · rcases mem_committed_perform.mp hr' with ⟨-, rfl⟩ | hr'
    · exact .inr ⟨h, _, hrun⟩
    · exact .inl hr'
  · rcases running_perform hrun' with ⟨rfl, -⟩ | hrun'
    · exact .inr ⟨h, _, hrun⟩
    · exact .inr ⟨h', left', hrun'⟩

variable (lib sources) in
/-- Uploads spare the objects of committed runs, and runs go on from what committed runs have
read. -/
def safely (s : Cluster H) (e : ClusterEvent H) : Prop :=
  sparesObjects s e ∧ resumes lib sources s e

theorem goesOn (hsup : ∀ h name, Supported ((sources h).config name).encoding)
    (hreach : ((clusters lib u sources).restrict (safely lib sources)).Reachable s) :
    ∀ r, Known s r → GoesOn lib sources s r := by
  refine hreach.invariant (P := fun s => ∀ r, Known s r → GoesOn lib sources s r)
    (fun s hs r hk => ?_) fun s e s' _ hgoes hstep => ?_
  · rw [hs] at hk
    rcases hk with hk | ⟨_, _, hk⟩ <;> cases hk
  obtain ⟨⟨-, hok⟩, hstep⟩ := hstep
  cases hstep with
  | files => exact hgoes
  | start =>
    intro r hk
    refine GoesOn.mono (fun _ hr => hr) ?_
    rcases hk with hr | ⟨h', left, hrun⟩
    · exact hgoes r (.inl hr)
    · rcases running_start hrun with ⟨rfl, -⟩ | hrun
      · exact goesOn_newRun hsup hgoes hok
      · exact hgoes r (.inr ⟨h', left, hrun⟩)
  | perform hrun =>
    exact fun r hk => (hgoes r (known_perform hrun hk)).mono fun _ hr =>
      mem_committed_perform.mpr (.inr hr)
  | stop =>
    intro r hk
    refine (hgoes r ?_).mono fun _ hr => hr
    exact hk.imp_right fun ⟨h', left, hrun⟩ => ⟨h', left, running_stop hrun⟩

end Runs

/-! ### What is kept -/

variable (lib sources) in
/-- What the committed runs have read is in objects. -/
def ReadKept (s : Cluster H) : Prop :=
  ∀ r ∈ s.committed, match r.job with
    | .ship name _ => ∀ rec ∈ recordsOf r.env ((sources r.host).config name) r.ctx
        (partsOf lib sources r name), HasRecord s rec
    | .extract cfg dbName => ∀ doc ∈ docsOf cfg dbName r, HasDoc lib s doc

variable (lib sources) in
/-- An object has a record of the line that a committed run of the source on the host made, under
the names that this run has for its host and for the file. -/
def LineKept (s : Cluster H) (h : H) (name line : String) : Prop :=
  ∃ r ∈ s.committed, r.host = h ∧ ∃ part ∈ partsOf lib sources r name, ∃ rec, rec.line = line ∧
    rec.source = name ∧ rec.host = r.ctx.host ∧ rec.file = pathName part.plan.path ∧
      HasRecord s rec

variable (lib sources) in
/-- Every line below an offset that a run has committed, and every document that was there to
read for a run that has committed a watermark, is in an object. -/
def CoveredKept (s : Cluster H) : Prop :=
  ∀ r ∈ s.committed, match r.job with
    | .ship name _ => ∀ fo ∈ offsetsToCommit r.env (partsOf lib sources r name), ∃ node,
        r.fs.lookup fo.lastPath = some node ∧
          ∀ line ∈ nonBlankLines ((sources r.host).config name).encoding
            (node.data.take fo.offset), LineKept lib sources s r.host name line
    | .extract _ _ => ∀ docs, ReadsAtOnce r.env docs → ∀ doc ∈ docs, HasDoc lib s doc

lemma readKept (hk : Kept lib u sources s) : ReadKept lib sources s := by
  intro r hr
  rcases hjob : r.job with ⟨name, gcDays⟩ | ⟨cfg, dbName⟩
  · exact fun rec hrec => record_of_committed hk hr hjob hrec
  · exact fun doc hdoc => doc_of_committed hk hr hjob hdoc

lemma LineRead.kept (hk : Kept lib u sources s) {line : String}
    (hl : LineRead lib sources s h name line) : LineKept lib sources s h name line := by
  obtain ⟨r, hr, hhost, gcDays, hjob, part, hpart, chunk, hchunk, hline⟩ := hl
  refine ⟨r, hr, hhost, part, hpart, _, rfl, ?_, rfl, rfl, record_of_committed hk hr hjob
    (List.mem_flatMap.mpr ⟨part, hpart, List.mem_flatMap.mpr ⟨chunk, hchunk,
      List.mem_map.mpr ⟨line, hline, rfl⟩⟩⟩)⟩
  exact (sources r.host).name_config name

lemma DocRead.kept (hk : Kept lib u sources s) {doc : Doc} (hd : DocRead s doc) :
    HasDoc lib s doc := by
  obtain ⟨r, hr, cfg, dbName, hjob, hdoc⟩ := hd
  exact doc_of_committed hk hr hjob hdoc

/-- Two collections that are read in the same way have the same documents. -/
lemma readsAtOnce_mem {env : Env} {docs docs' : List Doc} (hd : ReadsAtOnce env docs)
    (hd' : ReadsAtOnce env docs') {doc : Doc} (hmem : doc ∈ docs) : doc ∈ docs' := by
  have hperm := (hd .all none).symm.trans (hd' .all none)
  have hall : doc ∈ docs.filter Filter.all.matches := List.mem_filter.mpr ⟨hmem, rfl⟩
  exact (List.mem_filter.mp (hperm.mem_iff.mp hall)).1

/-- A committed run has read the documents that it asked for. -/
lemma docRead_of_asked (hk : Kept lib u sources s) {r : Run H} (hr : r ∈ s.committed)
    {cfg : CollectionConfig} {dbName : String} (hjob : r.job = .extract cfg dbName)
    {docs : List Doc} (hdocs : ReadsAtOnce r.env docs) {doc : Doc} (hd : doc ∈ docs)
    (ha : Asked cfg dbName r.store doc) : DocRead s doc := by
  refine ⟨r, hr, cfg, dbName, hjob, ?_⟩
  obtain ⟨p, hp, -⟩ := hk.committed r hr
  have hjournal : r.journal lib u sources =
      (extraction lib cfg u dbName r.env r.ctx r.store).2.journal := by
    rw [Run.journal, hjob]
  rw [hjournal] at hp
  rcases extraction_cases lib cfg u dbName ⟨docs, r.store, [], []⟩ r.env r.ctx with
    ⟨-, hj⟩ | ⟨filter, hf, -⟩
  · rw [hj] at hp
    cases hp
  · have hf' : filterFor cfg (MongoState.stored cfg dbName ⟨[], r.store, [], []⟩) = .ok filter := hf
    simp only [docsOf, MongoState.asked, hf']
    exact (hdocs filter _).mem_iff.mpr (List.mem_filter.mpr ⟨hd, ha filter hf⟩)

lemma coveredKept (hk : Kept lib u sources s) (hgoes : ∀ r, Known s r → GoesOn lib sources s r) :
    CoveredKept lib sources s := by
  intro r hr
  have hg := hgoes r (.inl hr)
  unfold GoesOn at hg
  rcases hjob : r.job with ⟨name, gcDays⟩ | ⟨cfg, dbName⟩
  · rw [hjob] at hg
    intro fo hfo
    obtain ⟨item, hitem, rfl⟩ := List.mem_map.mp hfo
    obtain ⟨part, hpart, rfl⟩ := List.mem_map.mp (Py.mem_dictOf hitem)
    obtain ⟨node, hn, -, hlines⟩ := hg part hpart
    refine ⟨node, hn, fun line hl => ?_⟩
    rcases hlines line hl with hread | hread
    · exact LineRead.kept hk ⟨r, hr, rfl, gcDays, hjob, part, hpart, hread⟩
    · exact hread.kept hk
  · rw [hjob] at hg
    obtain ⟨docs, hdocs, hall⟩ := hg
    intro docs' hdocs' doc hd
    have hmem := readsAtOnce_mem hdocs' hdocs hd
    rcases hall doc hmem with ha | hread
    · exact (docRead_of_asked hk hr hjob hdocs hmem ha).kept hk
    · exact hread.kept hk

/-- **Uploads never destroy committed data**, as long as none replaces the object of a run that
has committed or is to commit. What committed runs have read stays in the bucket; where each run
goes on from what was read, so does all that their offsets and watermarks cover. -/
theorem committed_kept [DecidableEq H]
    (hsup : ∀ h name, Supported ((sources h).config name).encoding) :
    (∀ s, ((clusters lib u sources).restrict sparesObjects).Reachable s →
      ReadKept lib sources s) ∧
    ∀ s, ((clusters lib u sources).restrict (safely lib sources)).Reachable s →
      CoveredKept lib sources s := by
  refine ⟨fun s h => readKept (kept h), fun s h => ?_⟩
  exact coveredKept (kept (h.restrict_mono fun _ _ hok => hok.1)) (goesOn hsup h)

/-! ### Two hosts, in one second or in two -/

def sampleSources (_ : Bool) : HostSources where
  config name := { sampleSource with name }
  name_config _ := rfl

/-- `a\nb\nc` on the one host, `x\n` on the other. -/
def sampleFiles (h : Bool) : FS :=
  (oneFile "a.log" (if h then sampleBytes else [0x78, 0x0A])).fs

def sampleEnv (h : Bool) : Env := calmEnv (sampleFiles h) sampleNow

/-- A second later. -/
def nextSecond : Timestamps.Datetime := ⟨63000000001000000, some 0, by decide⟩

def sampleCtxAt (late : Bool) : RunContext :=
  if late then { sampleCtx with runId := "r2", runDt := nextSecond } else sampleCtx

def sampleRunOf (late h : Bool) (id : ℕ) : Run Bool :=
  ⟨id, h, .ship "web" 14, sampleEnv h, sampleCtxAt late, StateStore.empty, sampleFiles h⟩

def sampleParts (h : Bool) : List Part :=
  collected plainLibs sampleSource (sampleEnv h) StateStore.empty

def sampleObject (late h : Bool) : Content :=
  .ndjson (recordsOf (sampleEnv h) sampleSource (sampleCtxAt late) (sampleParts h))

def samplePut (late h : Bool) : Put :=
  ⟨logsKey sampleUploader.pre "web" (sampleCtxAt late).runDt, sampleObject late h⟩

def sampleCommit (h : Bool) : Effect :=
  .setOffsets "web" (offsetsToCommit (sampleEnv h) (sampleParts h))
    ((sampleEnv h).clock (.setOffsets "web"))

lemma sampleRun_journal (late h : Bool) (id : ℕ) : ∃ deletes,
    (sampleRunOf late h id).journal plainLibs sampleUploader sampleSources =
      .put (samplePut late h) :: sampleCommit h :: deletes := by
  have hcommits : ((sampleRunOf late h 0).journal plainLibs sampleUploader sampleSources).any
      commits = true := by
    cases late <;> cases h <;> decide +kernel
  have hjournal : (sampleRunOf late h id).journal plainLibs sampleUploader sampleSources =
      (sampleRunOf late h 0).journal plainLibs sampleUploader sampleSources := rfl
  rw [hjournal]
  have hship : (sampleRunOf late h 0).journal plainLibs sampleUploader sampleSources = [] ∨
      ShipJournal (sampleEnv h) sampleSource sampleUploader (sampleCtxAt late) (sampleParts h)
        ((sampleRunOf late h 0).journal plainLibs sampleUploader sampleSources) :=
    journal_ship _ _ _ rfl
  generalize (sampleRunOf late h 0).journal plainLibs sampleUploader sampleSources = j
    at hcommits hship
  rcases hship with rfl | hship
  · cases hcommits
  cases hship with
  | nothing => cases hcommits
  | uploaded => cases hcommits
  | committed => exact ⟨_, rfl⟩

def sampleClusters : System (Cluster Bool) (ClusterEvent Bool) :=
  clusters plainLibs sampleUploader sampleSources

/-- A run of the host starts. -/
def sampleStart (s : Cluster Bool) (late h : Bool) : Cluster Bool :=
  s.start plainLibs sampleUploader sampleSources h (.ship "web" 14) (sampleEnv h)
    (sampleCtxAt late)

/-- It uploads. -/
def sampleUploads (s : Cluster Bool) (late h : Bool) (left : List Effect) : Cluster Bool :=
  (sampleStart s late h).perform h (sampleRunOf late h s.started) (.put (samplePut late h)) left

lemma sampleUploads_reachable {ok : Cluster Bool → ClusterEvent Bool → Prop} {s : Cluster Bool}
    {late h : Bool} (hr : (sampleClusters.restrict ok).Reachable s) (hidle : s.running h = none)
    (hfs : s.fs h = sampleFiles h) (hstore : s.store h = StateStore.empty)
    (hstart : ok s (.start h (.ship "web" 14) (sampleEnv h) (sampleCtxAt late)))
    (hput : ∀ left, (sampleStart s late h).running h =
      some (sampleRunOf late h s.started, .put (samplePut late h) :: left) →
        ok (sampleStart s late h) (.perform h)) :
    ∃ left, (sampleClusters.restrict ok).Reachable
      (sampleUploads s late h (sampleCommit h :: left)) := by
  obtain ⟨left, hj⟩ := sampleRun_journal late h s.started
  have hrun : s.newRun h (.ship "web" 14) (sampleEnv h) (sampleCtxAt late) =
      sampleRunOf late h s.started := by
    simp only [Cluster.newRun, sampleRunOf, hfs, hstore]
  have hrunning : (sampleStart s late h).running h =
      some (sampleRunOf late h s.started, .put (samplePut late h) :: sampleCommit h :: left) := by
    simp only [sampleStart, Cluster.start, hrun, hj, Function.update_self]
  exact ⟨left, .step (.step hr ⟨hstart, .start hidle⟩) ⟨hput _ hrunning, .perform hrunning⟩⟩

/-- It commits. -/
def sampleCommitted (s : Cluster Bool) (late h : Bool) (left : List Effect) : Cluster Bool :=
  (sampleUploads s late h (sampleCommit h :: left)).perform h (sampleRunOf late h s.started)
    (sampleCommit h) left

lemma sampleCommitted_reachable {s : Cluster Bool} {late h : Bool}
    (hr : (sampleClusters.restrict (safely plainLibs sampleSources)).Reachable s)
    (hidle : s.running h = none) (hfs : s.fs h = sampleFiles h)
    (hstore : s.store h = StateStore.empty)
    (hfree : s.bucket (samplePut late h).key = none) :
    ∃ left, (sampleClusters.restrict (safely plainLibs sampleSources)).Reachable
      (sampleCommitted s late h left) := by
  have hsees : Sees (sampleEnv h) ((sampleSources h).config "web") (s.fs h) := by
    rw [hfs]
    exact calmEnv_sees _ _
  have hstart : safely plainLibs sampleSources s
      (.start h (.ship "web" 14) (sampleEnv h) (sampleCtxAt late)) := by
    refine ⟨trivial, hsees, fun p node fo _ hfo => ?_⟩
    rw [hstore] at hfo
    cases hfo
  have hput : ∀ left, (sampleStart s late h).running h =
      some (sampleRunOf late h s.started, .put (samplePut late h) :: left) →
        safely plainLibs sampleSources (sampleStart s late h) (.perform h) := by
    intro left hrunning
    refine ⟨fun r p left' hput o ho => ?_, trivial⟩
    cases hrunning.symm.trans hput
    cases hfree.symm.trans ho
  obtain ⟨left, hup⟩ := sampleUploads_reachable hr hidle hfs hstore hstart hput
  have hrun : (sampleUploads s late h (sampleCommit h :: left)).running h =
      some (sampleRunOf late h s.started, sampleCommit h :: left) := Function.update_self _ _ _
  have hsafe : safely plainLibs sampleSources
      (sampleUploads s late h (sampleCommit h :: left)) (.perform h) := by
    refine ⟨fun r p left' hput => ?_, trivial⟩
    cases hrun.symm.trans hput
  exact ⟨left, .step hup ⟨hsafe, .perform hrun⟩⟩

/-- The first host has shipped its file and committed. -/
lemma firstCommitted_reachable : ∃ left,
    (sampleClusters.restrict (safely plainLibs sampleSources)).Reachable
      (sampleCommitted (.empty sampleFiles) false true left) :=
  sampleCommitted_reachable (.init rfl) rfl rfl rfl rfl

/-- The other host ships its file a second later, and what both have committed stays. -/
theorem committed_kept_sample : ∃ s, sampleRunOf false true 0 ∈ s.committed ∧
    sampleRunOf true false 1 ∈ s.committed ∧ ReadKept plainLibs sampleSources s ∧
    CoveredKept plainLibs sampleSources s := by
  obtain ⟨left, hr⟩ := firstCommitted_reachable
  have hkeys : (samplePut true false).key ≠ (samplePut false true).key := by decide +kernel
  have hfree : (sampleCommitted (.empty sampleFiles) false true left).bucket
      (samplePut true false).key = none := by
    show Function.update (fun _ => none) (samplePut false true).key
      (some ⟨sampleObject false true, 0⟩) (samplePut true false).key = none
    rw [Function.update_of_ne hkeys]
  obtain ⟨left', hr'⟩ := sampleCommitted_reachable hr rfl rfl rfl hfree
  have hcommitted : (sampleCommitted (sampleCommitted (.empty sampleFiles) false true left) true
      false left').committed = [sampleRunOf true false 1, sampleRunOf false true 0] := rfl
  have hsup : ∀ h name, Supported ((sampleSources h).config name).encoding :=
    fun _ _ => (by decide : Supported "utf-8")
  have hkept := @committed_kept Bool plainLibs sampleUploader sampleSources _ hsup
  refine ⟨_, ?_, ?_, hkept.1 _ (hr'.restrict_mono fun _ _ hok => hok.1), hkept.2 _ hr'⟩
  · rw [hcommitted]
    exact List.mem_cons_of_mem _ List.mem_cons_self
  · rw [hcommitted]
    exact List.mem_cons_self

/-- The second host uploads in the same second under the key of the first, and the line that the
first has shipped and committed is in no object. -/
theorem committed_line_lost : ∃ s, sampleClusters.Reachable s ∧
    (s.fs true).lookup "a.log" = some ⟨sampleBytes, 0, true⟩ ∧
    ((s.store true).fileOffsets "web").lookup "path:a.log" =
      some ⟨"path:a.log", "a.log", 4, 5, some sampleNow⟩ ∧
    "a" ∈ nonBlankLines "utf-8" (sampleBytes.take 4) ∧
    ∀ rec, HasRecord s rec → rec.line ≠ "a" := by
  obtain ⟨left, hr⟩ := firstCommitted_reachable
  have hr' : (sampleClusters.restrict fun _ _ => True).Reachable
      (sampleCommitted (.empty sampleFiles) false true left) :=
    hr.restrict_mono fun _ _ _ => trivial
  obtain ⟨left', hclash⟩ := @sampleUploads_reachable _ _ false false hr' rfl rfl rfl trivial
    fun _ _ => trivial
  refine ⟨_, hclash.of_restrict, rfl, ?_, by decide +kernel, ?_⟩
  · have hstored : ((apply StateStore.empty (sampleCommit true)).fileOffsets "web").lookup
        "path:a.log" = some ⟨"path:a.log", "a.log", 4, 5, some sampleNow⟩ := by
      decide +kernel
    exact hstored
  · have hlines : (recordsOf (sampleEnv false) sampleSource (sampleCtxAt false)
        (sampleParts false)).map (·.line) = ["x"] := by
      decide +kernel
    rintro rec ⟨key, o, records, ho, hcontent, hrec⟩ hline
    have hbucket : (sampleUploads (sampleCommitted (.empty sampleFiles) false true left) false
        false (sampleCommit false :: left')).bucket =
        Function.update (Function.update (fun _ => none) (samplePut false true).key
          (some ⟨sampleObject false true, 0⟩)) (samplePut false true).key
            (some ⟨sampleObject false false, 1⟩) := rfl
    rw [hbucket, Function.update_idem] at ho
    by_cases hkey : key = (samplePut false true).key
    · subst hkey
      rw [Function.update_self] at ho
      obtain rfl := Option.some.inj ho
      obtain rfl := Content.ndjson.inj hcontent
      have hmem := List.mem_map_of_mem (f := (·.line)) hrec
      rw [hlines, hline] at hmem
      simp at hmem
    · rw [Function.update_of_ne hkey] at ho
      cases ho

end MongoSyncAgent.SharedBucket
