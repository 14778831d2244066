import MongoSyncAgent.CollectionRuns
import MongoSyncAgent.CrashSafety
import MongoSyncAgent.GrowingLogs
import MongoSyncAgent.LongLines
import MongoSyncAgent.Mutable
import MongoSyncAgent.WholeCycle

/-!
What a unit owes for what it commits.

A watermark of a collection may move on once all documents are uploaded that the old one asks
for; an offset of a file, once all lines before it are uploaded. Units under other keys have
nothing to do with either.
-/

namespace MongoSyncAgent.Obligations

open MongoSyncAgent.Py MongoSyncAgent.Bson MongoSyncAgent.Config MongoSyncAgent.State
open MongoSyncAgent.Runtime MongoSyncAgent.Outcomes MongoSyncAgent.Sinks MongoSyncAgent.Watermarks
open MongoSyncAgent.Extract MongoSyncAgent.Sources MongoSyncAgent.Ship MongoSyncAgent.Keys
open MongoSyncAgent.Protocols MongoSyncAgent.Protocols.Protocol MongoSyncAgent.Ledgers
open MongoSyncAgent.CollectionRuns MongoSyncAgent.Mutable MongoSyncAgent.WholeCycle
open MongoSyncAgent.UnitKeys MongoSyncAgent.LogRuns MongoSyncAgent.Lines MongoSyncAgent.Windows
open MongoSyncAgent.GrowingLogs MongoSyncAgent.LongLines MongoSyncAgent.Codecs
open MongoSyncAgent.CrashSafety

variable {init : Ledger → Prop} {lib : Libs} {u : S3Uploader} {ctx : RunContext} {env : Env}
  {w w' : World} {j : List Effect} {uploads uploads' : List Put} {s : Ledger}

/-! ### Documents -/

/-- A filter of this watermark finds the document. -/
def Asks (cfg : CollectionConfig) (stored : Option Watermark) (doc : Doc) : Prop :=
  ∀ filter, filterFor cfg stored = .ok filter → filter.matches doc

/-- An object of the collection has a row of the document. -/
def DocUploaded (lib : Libs) (pre dbName name : String) (uploads : List Put) (doc : Doc) : Prop :=
  ∃ p ∈ uploads, (∃ runDt, p.key = mongoKey pre dbName name runDt) ∧ HasRow lib doc p

/-- A watermark is committed that is a watermark of the mode, and not before they are uploaded that
the old one asks for. -/
def PaysForDocs (lib : Libs) (pre dbName : String) (cfg : CollectionConfig) (docs : List Doc)
    (s : Ledger) : Effect → Prop
  | .setWatermark ns wm => ns = namespaceOf cfg dbName →
      (cfg.mode = .mutable → ∃ instant, Denotes wm.value instant) ∧
        ∀ doc ∈ docs, Asks cfg (s.store.watermarks ns) doc →
          DocUploaded lib pre dbName cfg.name s.uploads doc
  | _ => True

variable {cfg : CollectionConfig} {pre dbName name : String} {docs : List Doc}

lemma DocUploaded.mono {doc : Doc} (hsub : uploads ⊆ uploads')
    (h : DocUploaded lib pre dbName name uploads doc) :
    DocUploaded lib pre dbName name uploads' doc := by
  obtain ⟨p, hp, hrow⟩ := h
  exact ⟨p, hsub hp, hrow⟩

/-- **A watermark that has moved on is paid for.** -/
theorem paid_of_keeps (h : (ledgers init (PaysForDocs lib pre dbName cfg docs)).Keeps s j) :
    (replay s.store j).watermarks (namespaceOf cfg dbName) =
        s.store.watermarks (namespaceOf cfg dbName) ∨
      ∀ doc ∈ docs, Asks cfg (s.store.watermarks (namespaceOf cfg dbName)) doc →
        DocUploaded lib pre dbName cfg.name (s.uploads ++ puts j) doc := by
  induction j generalizing s with
  | nil => exact .inl rfl
  | cons e j ih =>
    have hrest := ih (s := s.after e) h.2
    have hputs : (s.after e).uploads ++ puts j = s.uploads ++ puts (e :: j) := by
      show s.uploads ++ puts [e] ++ puts j = _
      rw [List.append_assoc, ← puts_append]
      rfl
    rw [hputs] at hrest
    by_cases hown : ∃ wm, e = .setWatermark (namespaceOf cfg dbName) wm
    · obtain ⟨wm, rfl⟩ := hown
      refine .inr fun doc hd ha => ((h.1 rfl).2 doc hd ha).mono ?_
      exact List.subset_append_left _ _
    · have hstored : (s.after e).store.watermarks (namespaceOf cfg dbName) =
          s.store.watermarks (namespaceOf cfg dbName) := by
        cases e with
        | setWatermark ns wm => exact if_neg fun hns => hown ⟨wm, by rw [hns]⟩
        | _ => rfl
      rw [hstored] at hrest
      exact hrest

/-- The watermarks of a mutable collection stay strings of instants. -/
lemma denotes_of_keeps (h : (ledgers init (PaysForDocs lib pre dbName cfg docs)).Keeps s j)
    (hmode : cfg.mode = .mutable)
    (hs : ∀ wm, s.store.watermarks (namespaceOf cfg dbName) = some wm →
      ∃ instant, Denotes wm.value instant) :
    ∀ wm, (replay s.store j).watermarks (namespaceOf cfg dbName) = some wm →
      ∃ instant, Denotes wm.value instant := by
  induction j generalizing s with
  | nil => exact hs
  | cons e j ih =>
    refine ih (s := s.after e) h.2 fun wm hwm => ?_
    cases e with
    | setWatermark ns wm' =>
      change (if namespaceOf cfg dbName = ns then some wm' else _) = some wm at hwm
      split_ifs at hwm with hns
      · obtain rfl := Option.some.inj hwm
        exact (h.1 hns.symm).1 hmode
      · exact hs wm hwm
    | _ => exact hs wm hwm

/-- **A run of the collection** that reads it at once pays. -/
lemma pays_extractCollection (hreads : ReadsAtOnce env docs) :
    Within (Keeping init (PaysForDocs lib u.pre dbName cfg docs))
      (extractCollection lib env cfg u ctx dbName) := by
  intro w
  refine extractCollection_ensures.mono fun r w' h => ?_
  rcases h with ⟨-, hw⟩ | ⟨filter, j, hf, hw, hex⟩
  · exact keeping_quiet hw
  cases hex with
  | nothing => exact keeping_quiet hw
  | empty => exact keeping_quiet hw
  | uploaded => exact ⟨_, hw, fun uploads => ⟨trivial, trivial⟩⟩
  | committed _ hrows hobs hwm =>
    refine ⟨_, hw, fun uploads => ⟨trivial, fun _ => ⟨fun hmode => ?_, fun doc hd ha => ?_⟩,
      trivial⟩⟩
    · obtain ⟨field, hfield⟩ := Option.isSome_iff_exists.mp (cfg.field_of_mutable hmode)
      have hsame := observeAll_same hobs
      rw [makeStrategy_mutable hmode hfield] at hsame
      exact newWatermark_denotes hsame hwm
    · have hfound : doc ∈ env.find filter (makeStrategy cfg).sortSpec :=
        (hreads filter _).mem_iff.mpr (List.mem_filter.mpr ⟨hd, ha filter hf⟩)
      exact ⟨_, List.mem_append_right _ List.mem_cons_self, ⟨_, rfl⟩,
        hasRow_of_rowsOf hrows hfound⟩

/-- A unit under another key commits no watermark of the collection. -/
lemma pays_of_owning {key : Option StateKey}
    (hne : key ≠ some (.watermark (namespaceOf cfg dbName))) (h : Owning key w w') :
    Keeping init (PaysForDocs lib pre dbName cfg docs) w w' := by
  obtain ⟨j, hw, hj⟩ := h
  refine keeping_of_forall hw fun e he s => ?_
  cases e with
  | setWatermark ns wm =>
    rintro rfl
    rcases hj _ he with hkey | hkey
    · cases hkey
    · exact absurd hkey.symm hne
  | _ => trivial

/-- **A run that goes well** uploads rows of all documents that it is asked for. -/
lemma extract_delivers {res : UnitResult} (hreads : ReadsAtOnce env docs)
    (hreal : ctx.dryRun = false)
    (h : exec (extractCollection lib env cfg u ctx dbName) w = (.ok res, w'))
    (hgood : res.status ≠ .failed) :
    ∃ j, Wrote w w' j ∧ ∀ doc ∈ docs,
      Asks cfg (w.store.watermarks (namespaceOf cfg dbName)) doc →
        DocUploaded lib u.pre dbName cfg.name (puts j) doc := by
  have hends : Ensures (extractCollection lib env cfg u ctx dbName) w _ :=
    extractCollection_ensures
  unfold Ensures at hends
  rw [h] at hends
  rcases hends with ⟨⟨e, he⟩, -⟩ | ⟨filter, j, hf, hw, hex⟩
  · cases he
  refine ⟨j, hw, fun doc hd ha => ?_⟩
  have hfound : doc ∈ env.find filter (makeStrategy cfg).sortSpec :=
    (hreads filter _).mem_iff.mpr (List.mem_filter.mpr ⟨hd, ha filter hf⟩)
  cases hex with
  | nothing hfail =>
    rcases hfail res rfl with hfailed | hdry
    · exact absurd hfailed hgood
    · rw [hreal] at hdry
      cases hdry
  | empty hnil =>
    rw [hnil] at hfound
    cases hfound
  | uploaded _ hrows => exact ⟨_, List.mem_cons_self, ⟨_, rfl⟩, hasRow_of_rowsOf hrows hfound⟩
  | committed _ hrows => exact ⟨_, List.mem_cons_self, ⟨_, rfl⟩, hasRow_of_rowsOf hrows hfound⟩

/-! ### Lines -/

/-- An object has the line, as one of the source and of the file. -/
def HasLine (name : String) (p : Path) (line : String) (o : Put) : Prop :=
  ∃ records, o.content = .ndjson records ∧
    ∃ r ∈ records, r.source = name ∧ r.file = pathName p ∧ r.line = line

/-- An object of the source has the line. -/
def LineUploaded (pre name : String) (uploads : List Put) (p : Path) (line : String) : Prop :=
  ∃ o ∈ uploads, (∃ runDt, o.key = logsKey pre name runDt) ∧ HasLine name p line o

/-- All lines before an offset of a file are uploaded. -/
structure PaidUpTo (pre : String) (source : LogSourceConfig) (uploads : List Put) (p : Path)
    (node : Node) (offset : ℕ) : Prop where
  boundary : Boundary source.encoding node.data offset
  lines : ∀ line ∈ nonBlankLines source.encoding (node.data.take offset),
    LineUploaded pre source.name uploads p line

/-- The key is that of a file that is there, and the lines before the offset are uploaded. -/
def PaidFor (lib : Libs) (pre : String) (source : LogSourceConfig) (fs : FS) (uploads : List Put)
    (key : String) (offset : ℕ) : Prop :=
  ∃ p node, fs.lookup p = some node ∧ Owns lib key p node ∧
    PaidUpTo pre source uploads p node offset

/-- All stored offsets of the source are paid for. -/
def Settled (lib : Libs) (pre : String) (source : LogSourceConfig) (fs : FS) (s : Ledger) : Prop :=
  ∀ key fo, (s.store.fileOffsets source.name).lookup key = some fo →
    PaidFor lib pre source fs s.uploads key fo.offset

/-- Offsets are committed that go on from settled ones, and are paid for. -/
def PaysForLines (lib : Libs) (pre : String) (source : LogSourceConfig) (fs : FS) (s : Ledger) :
    Effect → Prop
  | .setOffsets name offsets _ => name = source.name → Settled lib pre source fs s →
      ∀ fo ∈ offsets, PaidFor lib pre source fs s.uploads fo.fingerprint fo.offset
  | _ => True

variable {source : LogSourceConfig} {fs : FS} {gcDays : ℤ} {p : Path} {node : Node} {part : Part}
  {key : String} {offset : ℕ} {store : StateStore}

lemma LineUploaded.mono {line : String} (hsub : uploads ⊆ uploads')
    (h : LineUploaded pre name uploads p line) : LineUploaded pre name uploads' p line := by
  obtain ⟨o, ho, hline⟩ := h
  exact ⟨o, hsub ho, hline⟩

lemma PaidUpTo.mono (hsub : uploads ⊆ uploads') (h : PaidUpTo pre source uploads p node offset) :
    PaidUpTo pre source uploads' p node offset :=
  ⟨h.boundary, fun line hl => (h.lines line hl).mono hsub⟩

lemma PaidFor.mono (hsub : uploads ⊆ uploads') (h : PaidFor lib pre source fs uploads key offset) :
    PaidFor lib pre source fs uploads' key offset := by
  obtain ⟨p, node, hn, hown, hpaid⟩ := h
  exact ⟨p, node, hn, hown, hpaid.mono hsub⟩

/-- **One effect** that pays leaves all settled. -/
lemma Settled.after (hs : Settled lib pre source fs s) {e : Effect}
    (h : PaysForLines lib pre source fs s e) : Settled lib pre source fs (s.after e) := by
  have hsub : s.uploads ⊆ (s.after e).uploads := List.subset_append_left _ _
  intro key fo hfo
  refine PaidFor.mono hsub ?_
  rcases lookup_after hfo with ⟨offsets, t, rfl, fo', hmem, rfl, rfl⟩ | ⟨hold, -⟩
  · exact h rfl hs fo' hmem
  · exact hs key fo hold

lemma settled_of_keeps (h : (ledgers init (PaysForLines lib pre source fs)).Keeps s j)
    (hs : Settled lib pre source fs s) :
    Settled lib pre source fs ⟨replay s.store j, s.uploads ++ puts j⟩ := by
  have hrun : (ledgers init (PaysForLines lib pre source fs)).run s j =
    ⟨replay s.store j, s.uploads ++ puts j⟩ := run_ledgers s j
  rw [← hrun]
  clear hrun
  induction j generalizing s with
  | nil => exact hs
  | cons e j ih => exact ih h.2 (hs.after h.1)

/-- A unit under another key commits no offset of the source. -/
lemma paysLines_of_owning {key : Option StateKey} (hne : key ≠ some (.offsets source.name))
    (h : Owning key w w') : Keeping init (PaysForLines lib pre source fs) w w' := by
  obtain ⟨j, hw, hj⟩ := h
  refine keeping_of_forall hw fun e he s => ?_
  cases e with
  | setOffsets name offsets at_ =>
    rintro rfl
    rcases hj _ he with hkey | hkey
    · cases hkey
    · exact absurd hkey.symm hne
  | _ => trivial

/-- A part starts where all is paid for. -/
lemma part_paid (hsha : Function.Injective lib.sha256) (hd : DistinctPrefixes fs)
    (hs : Settled lib pre source fs ⟨store, uploads⟩)
    (hpart : PartOf lib source env fs (store.fileOffsets source.name) part node) :
    PaidUpTo pre source uploads part.plan.path node part.plan.startOffset := by
  have hzero : PaidUpTo pre source uploads part.plan.path node 0 := by
    refine ⟨Records.cutAt_zero _ _, fun line hl => ?_⟩
    simp at hl
  rw [hpart.start, startOf]
  rcases ho : (store.fileOffsets source.name).lookup
    (keyOf lib part.plan.path node.data) with _ | fo
  · exact hzero
  · obtain ⟨p, m, hm, hown, hpaid⟩ := hs _ fo ho
    obtain rfl := owner_unique hsha hd hm hpart.lookup hown
    obtain rfl := Option.some.inj (hm.symm.trans hpart.lookup)
    have hle := hpaid.boundary.1
    have hresume : resume fo m.data.length = fo.offset := if_neg (by omega)
    simpa [hresume] using hpaid

/-- With its records uploaded, all is paid for up to its end. -/
lemma part_paid_end (hsup : Supported source.encoding) (hsees : Sees env source fs) {records runDt}
    (hpart : PartOf lib source env fs (store.fileOffsets source.name) part node)
    (hstart : PaidUpTo pre source uploads part.plan.path node part.plan.startOffset)
    (hput : ⟨logsKey pre source.name runDt, .ndjson records⟩ ∈ uploads)
    (hmem : ∀ r ∈ part.records env source ctx, r ∈ records) :
    PaidUpTo pre source uploads part.plan.path node part.endOffset := by
  obtain ⟨hle, hend⟩ := hpart.ends hsees hstart.boundary
  refine ⟨hend, fun line hl => ?_⟩
  rw [lines_take hsup hstart.boundary hle, List.mem_append,
    ← hpart.lines hsees hsup hstart.boundary ctx] at hl
  rcases hl with hbefore | hread
  · exact hstart.lines line hbefore
  · obtain ⟨r, hr, rfl⟩ := List.mem_map.mp hread
    obtain ⟨hsource, -, hfile, -⟩ := mem_records hr
    exact ⟨_, hput, ⟨runDt, rfl⟩, records, rfl, r, hmem r hr, hsource, hfile, rfl⟩

/-- **A run of the source** over files that it sees as they are pays. -/
lemma pays_shipSource (hsup : Supported source.encoding) (hsha : Function.Injective lib.sha256)
    (hd : DistinctPrefixes fs) (hsees : Sees env source fs) :
    Within (Keeping init (PaysForLines lib u.pre source fs))
      (shipSource lib env source u ctx gcDays) := by
  intro w
  refine shipSource_ensures.mono fun r w' h => ?_
  rcases h with hw | ⟨parts, j, hparts, hw, hship⟩
  · exact keeping_quiet hw
  cases hship with
  | nothing => exact keeping_quiet hw
  | uploaded => exact ⟨_, hw, fun uploads => ⟨trivial, trivial⟩⟩
  | committed _ _ hdel =>
    refine ⟨_, hw, fun uploads => ⟨trivial, fun _ hs fo hfo => ?_, keeps_of_forall ?_⟩⟩
    · obtain ⟨part, hpart, hkey, hend⟩ := CrashSafety.mem_offsetsToCommit hfo
      obtain ⟨node, hof⟩ := partOf_mem hsees hparts hpart
      rw [← hkey, ← hend]
      refine ⟨part.plan.path, node, hof.lookup, ?_, ?_⟩
      · rw [hof.key]
        exact owns_keyOf _ _
      · refine part_paid_end hsup hsees hof (part_paid hsha hd hs hof)
          (List.mem_append_right _ List.mem_cons_self)
          fun r (hr : r ∈ part.records env source ctx) => ?_
        exact List.mem_flatMap.mpr ⟨part, hpart, hr⟩
    · intro e he s
      obtain ⟨key, rfl, -⟩ := hdel e he
      trivial

/-- A commit that returns has stored the offsets. -/
lemma commit_stores {parts : List Part} {path : Path} :
    Ensures (Ship.commit env source gcDays parts path) w fun r w' => r = .ok () →
      ∃ deletes, Deletions source.name (currentKeys parts) deletes ∧
        Wrote w w' (.setOffsets source.name (offsetsToCommit env parts)
          (env.clock (.setOffsets source.name)) :: deletes) := by
  unfold Ship.commit Ship.setOffsets
  rw [ensures_bind, ensures_bind]
  refine ensures_call (fun e hr => by cases hr) fun _ => ensures_emit ?_
  refine Ensures.bind (gcOffsets_ensures _ _ _) (fun e w₁ _ hr => by cases hr) ?_
  rintro n w₁ ⟨j, hj, hdel⟩
  refine (quiet_unlink path w₁).mono fun r w₂ h₂ _ => ⟨j, hdel, ?_⟩
  simpa using hj.cons.trans h₂

/-- The journal of a run that uploads and commits. -/
def commitJournal (env : Env) (source : LogSourceConfig) (u : S3Uploader) (ctx : RunContext)
    (parts : List Part) (deletes : List Effect) : List Effect :=
  .put ⟨logsKey u.pre source.name ctx.runDt, .ndjson (recordsOf env source ctx parts)⟩ ::
    .setOffsets source.name (offsetsToCommit env parts) (env.clock (.setOffsets source.name)) ::
      deletes

section Commits

variable {Q : List Part → World → World → Prop} (hcommit : ∀ parts path w,
  Ensures (Ship.commit env source gcDays parts path) w fun r w' => r = .ok () → Q parts w w')

include hcommit

/-- A delivery that goes well has uploaded, and done what a commit does. -/
lemma deliver_of_commit {parts : List Part} {path : Path} (hreal : ctx.dryRun = false) :
    Ensures (Ship.deliver lib env source u ctx gcDays parts path) w fun r w' => ∀ res, r = .ok res →
      res.status ≠ .failed → ∃ w₁, Wrote w w₁ [.put ⟨logsKey u.pre source.name ctx.runDt,
        .ndjson (recordsOf env source ctx parts)⟩] ∧ Q parts w₁ w' := by
  unfold Ship.deliver
  simp only [writeRows_eq]
  refine ensures_filled (fun e w₁ _ res hr => by cases hr) fun result w₁ h₁ hspool => ?_
  simp only [spooled, List.nil_append] at hspool
  rw [if_neg (by rw [hreal]; exact Bool.false_ne_true)]
  refine Ensures.bind (tryUpload_ensures hspool) (fun e w₂ _ res hr => by cases hr) ?_
  rintro (e | uploaded) w₂ h₂
  · refine Ensures.bind (quiet_abort path w₂) (fun e w₃ _ res hr => by cases hr) ?_
    intro _ w₃ _ res hr hgood
    obtain rfl := Except.ok.inj hr
    exact absurd rfl hgood
  · -- the upload returned, so the object is there
    have hput := h₂.resolve_left fun h => h.1 uploaded rfl
    refine Ensures.bind (hcommit parts path w₂) (fun e w₃ _ res hr => by cases hr) ?_
    intro _ w₃ h₃ res _ _
    exact ⟨w₂, h₁.trans hput, h₃ rfl⟩

/-- A run of the source that goes well has nothing to upload, or has uploaded, and done what a
commit does. -/
lemma ship_of_commit {res : UnitResult} (hreal : ctx.dryRun = false)
    (h : exec (shipSource lib env source u ctx gcDays) w = (.ok res, w'))
    (hgood : res.status ≠ .failed) :
    ∃ parts, drainPlans lib env source (discover lib env source
        (w.store.fileOffsets source.name)) = .ok parts ∧
      (recordsOf env source ctx parts = [] ∧ res.status = .empty ∧ Wrote w w' [] ∨
        ∃ w₁, Wrote w w₁ [.put ⟨logsKey u.pre source.name ctx.runDt,
          .ndjson (recordsOf env source ctx parts)⟩] ∧ Q parts w₁ w') := by
  have hends : Ensures (shipSource lib env source u ctx gcDays) w fun r w' => ∀ res, r = .ok res →
      res.status ≠ .failed → ∃ parts, drainPlans lib env source (discover lib env source
        (w.store.fileOffsets source.name)) = .ok parts ∧
      (recordsOf env source ctx parts = [] ∧ res.status = .empty ∧ Wrote w w' [] ∨
        ∃ w₁, Wrote w w₁ [.put ⟨logsKey u.pre source.name ctx.runDt,
          .ndjson (recordsOf env source ctx parts)⟩] ∧ Q parts w₁ w') := by
    refine ensures_shipSource (fun e _ res hr => by cases hr) (fun _ e _ res hr => by cases hr) ?_
    intro _ parts hparts
    split_ifs with hnone
    · intro res hr _
      obtain rfl := Except.ok.inj hr
      exact ⟨parts, hparts, .inl ⟨hnone, rfl, .nil⟩⟩
    · exact (deliver_of_commit hcommit hreal).mono fun r w' hr res hres hgood =>
        ⟨parts, hparts, .inr (hr res hres hgood)⟩
  unfold Ensures at hends
  rw [h] at hends
  exact hends res rfl hgood

end Commits

/-- **A run of the source that goes well** has nothing to upload, or uploads and commits. -/
lemma ship_commits {res : UnitResult} (hreal : ctx.dryRun = false)
    (h : exec (shipSource lib env source u ctx gcDays) w = (.ok res, w'))
    (hgood : res.status ≠ .failed) :
    ∃ parts, drainPlans lib env source (discover lib env source
        (w.store.fileOffsets source.name)) = .ok parts ∧
      (recordsOf env source ctx parts = [] ∧ Wrote w w' [] ∨
        ∃ deletes, Deletions source.name (currentKeys parts) deletes ∧
          Wrote w w' (commitJournal env source u ctx parts deletes)) := by
  obtain ⟨parts, hparts, ⟨hnone, -, hw⟩ | ⟨w₁, hput, deletes, hdel, hw⟩⟩ :=
    ship_of_commit (fun _ _ _ => commit_stores) hreal h hgood
  · exact ⟨parts, hparts, .inl ⟨hnone, hw⟩⟩
  · exact ⟨parts, hparts, .inr ⟨deletes, hdel, hput.trans hw⟩⟩

/-- A read never stalls: where a line is complete after a boundary, a window from there ends at
one that has a line before it. -/
def Readable (source : LogSourceConfig) (data : Bytes) : Prop :=
  ∀ x z, Boundary source.encoding data x → Boundary source.encoding data z →
    linesBetween source.encoding data x z ≠ [] →
      ∃ e, CanRead source.encoding source.maxBytesPerPoll data x e

/-- A reading stops where nothing more can be read. -/
lemma reading_stops {encoding : String} {maxBytes : ℤ} {data : Bytes} {start : ℕ}
    {chunks : List Tailer.TailChunk}
    (h : Reading encoding maxBytes data (fun _ => some data) start chunks) :
    ∀ e, ¬ CanRead encoding maxBytes data
      (chunks.foldl (fun _ chunk => chunk.newOffset) start) e := by
  induction h with
  | nil hstop => exact hstop.resolve_left (by simp)
  | cons _ _ _ _ ih => exact ih

/-- Where nothing is uploaded, no part has a chunk. -/
lemma chunks_nil {parts : List Part} (hsees : Sees env source fs) (hpart : part ∈ parts)
    (hof : PartOf lib source env fs (store.fileOffsets source.name) part node)
    (hb : Boundary source.encoding node.data part.plan.startOffset)
    (hnone : recordsOf env source ctx parts = []) : part.chunks = [] := by
  by_contra hne
  refine records_ne_nil hpart (fun c hc => ?_) hne hnone
  exact ((Drain.drainFile_ends (hof.static hsees) hb hof.drained).2 c hc).1

/-- **A run of the source that goes well**, over files that can be read and are, leaves every
complete line uploaded. -/
lemma ship_delivers {res : UnitResult} (hsup : Supported source.encoding)
    (hsha : Function.Injective lib.sha256) (hd : DistinctPrefixes fs) (hsees : Sees env source fs)
    (hos : ∀ c, env.osError c = false) (hreal : ctx.dryRun = false)
    (h : exec (shipSource lib env source u ctx gcDays) w = (.ok res, w'))
    (hgood : res.status ≠ .failed) :
    ∃ j, Wrote w w' j ∧ ∀ uploads, Settled lib u.pre source fs ⟨w.store, uploads⟩ →
      ∀ p node, fs.lookup p = some node → node.regular → Readable source node.data →
        ∀ line, CompleteLine source.encoding node.data line →
          LineUploaded u.pre source.name (uploads ++ puts j) p line := by
  obtain ⟨parts, hparts, hup⟩ := ship_commits hreal h hgood
  let records := recordsOf env source ctx parts
  obtain ⟨j, hw, hput⟩ : ∃ j, Wrote w w' j ∧
      (records = [] ∨ ⟨logsKey u.pre source.name ctx.runDt, .ndjson records⟩ ∈ puts j) := by
    rcases hup with ⟨hnone, hw⟩ | ⟨deletes, -, hw⟩
    · exact ⟨_, hw, .inl hnone⟩
    · exact ⟨_, hw, .inr List.mem_cons_self⟩
  refine ⟨j, hw, fun uploads hs p node hn hreg hread line ⟨n, hb, hline⟩ => ?_⟩
  obtain ⟨part, hpart, rfl, hof, -⟩ := exists_part hsees hos hn hreg hparts
  have hstart := (part_paid hsha hd hs hof).mono (List.subset_append_left uploads (puts j))
  have hmem : ∀ r ∈ part.records env source ctx, r ∈ recordsOf env source ctx parts :=
    fun r hr => List.mem_flatMap.mpr ⟨part, hpart, hr⟩
  have hend : PaidUpTo u.pre source (uploads ++ puts j) part.plan.path node part.endOffset := by
    rcases hput with hnone | hput
    · -- a part without records has no chunks, and ends where it starts
      rw [Part.endOffset, chunks_nil hsees hpart hof hstart.boundary hnone]
      exact hstart
    · exact part_paid_end hsup hsees hof hstart (List.mem_append_right _ hput) hmem
  rcases Nat.le_total n part.endOffset with hle | hle
  · refine hend.lines line ?_
    rw [lines_take hsup hb hle]
    exact List.mem_append_left _ hline
  · rw [lines_take hsup hend.boundary hle, List.mem_append] at hline
    refine hend.lines line (hline.resolve_right fun hafter => ?_)
    obtain ⟨e, he⟩ := hread _ n hend.boundary hb (List.ne_nil_of_mem hafter)
    have hstop := reading_stops (part_reading hsees hos hsup hof hstart.boundary)
    exact hstop e he

/-! ### Metrics -/

/-- **Metrics whose shipping goes well** are uploaded, if there are any. -/
lemma metrics_deliver {records : List MetricRecord} {res : UnitResult}
    (hreal : ctx.dryRun = false)
    (h : exec (Cycle.shipMetrics lib u ctx env records) w = (.ok res, w'))
    (hgood : res.status ≠ .failed) :
    ∃ j, Wrote w w' j ∧
      (records ≠ [] → ⟨hostmetricsKey u.pre ctx.runDt, .metrics records⟩ ∈ puts j) := by
  have hends : Ensures (Cycle.shipMetrics lib u ctx env records) w _ := shipMetrics_ensures
  unfold Ensures at hends
  rw [h] at hends
  rcases hends with ⟨hw, hfail⟩ | ⟨hne, hw⟩
  · refine ⟨_, hw, fun hne => ?_⟩
    rcases hfail res rfl with hfailed | hnone | hdry
    · exact absurd hfailed hgood
    · exact absurd hnone hne
    · rw [hreal] at hdry
      cases hdry
  · exact ⟨_, hw, fun _ => List.mem_cons_self⟩

end MongoSyncAgent.Obligations
