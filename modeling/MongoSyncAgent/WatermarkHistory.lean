import MongoSyncAgent.MutableCursor
import MongoSyncAgent.AppendOnly
import MongoSyncAgent.TextOrder
import Mathlib.Data.List.Chain

/-!
The watermarks that runs of a collection store one after the other.

A run stores the greatest value of what it happened to read, whatever was stored before, and it
reads a window behind the stored value again. If the documents from the stored value on are gone
while an older one of the window is left, the next value is less.
-/

namespace MongoSyncAgent.WatermarkHistory

open MongoSyncAgent.Py MongoSyncAgent.Bson MongoSyncAgent.Config MongoSyncAgent.State
open MongoSyncAgent.Runtime MongoSyncAgent.Sinks MongoSyncAgent.Watermarks MongoSyncAgent.Timestamps
open MongoSyncAgent.Extract MongoSyncAgent.Systems MongoSyncAgent.CollectionRuns
open MongoSyncAgent.AppendOnly MongoSyncAgent.MutableCursor
open MongoSyncAgent.Mutable hiding sampleCollection filterFor_stored

structure History where
  mongo : MongoState
  /-- The tracked values of all the versions of documents that were ever there. -/
  written : List (Option Value)
  /-- What was stored, the last first. -/
  committed : List State.Watermark

def watermarksOf (journal : List Effect) : List State.Watermark :=
  journal.filterMap fun
    | .setWatermark _ wm => some wm
    | _ => none

variable (lib : Libs) (cfg : CollectionConfig) (u : S3Uploader) (dbName : String)

/-- The value of the field that the strategy tracks. -/
def tracked (doc : Doc) : Option Value := (makeStrategy cfg).tracks.bind (get doc)

/-- Documents are inserted in the order of their tracked values, and updates raise these. -/
def Orderly (written : List (Option Value)) : MongoEvent → Prop
  | .insert doc => ∀ v ∈ written, bsonLe v (tracked cfg doc)
  | .update old new => bsonLe (tracked cfg old) (tracked cfg new)
  | _ => True

def writes (event : MongoEvent) : List (Option Value) :=
  match event with
  | .insert doc | .update _ doc => [tracked cfg doc]
  | _ => []

/-- What a step stores, the last first. -/
def stores (m : MongoState) (event : MongoEvent) : List State.Watermark :=
  match event with
  | .run env ctx => (watermarksOf (extraction lib cfg u dbName env ctx m.store).2.journal).reverse
  | _ => []

inductive HistoryStep : History → MongoEvent → History → Prop
  | move {s event mongo} (h : MongoStep lib cfg u dbName s.mongo event mongo)
    (ho : Orderly cfg s.written event) : HistoryStep s event
      ⟨mongo, writes cfg event ++ s.written, stores lib cfg u dbName s.mongo event ++ s.committed⟩

def histories : System History MongoEvent where
  init s := s.mongo.stored cfg dbName = none ∧ s.written = s.mongo.docs.map (tracked cfg) ∧
    s.committed = []
  step := HistoryStep lib cfg u dbName

/-! ### The orders -/

/-- A watermark is not below an earlier one, as a string and as an ObjectId or a time. -/
def NotBelow (old new : String) : Prop :=
  old ≤ new ∧
    match cfg.mode with
    | .appendOnly => ∀ o o', ObjectId.ofStr old = .ok o → ObjectId.ofStr new = .ok o' →
        o.val ≤ o'.val
    | .mutable => ∀ t t', strptime old = .ok t → strptime new = .ok t' → t.wall ≤ t'.wall
    | .fullRefresh => True

/-- Each watermark that was stored is not below the one before. -/
def NeverBack (s : History) : Prop :=
  s.committed.IsChain fun new old => NotBelow cfg old.value new.value

/-- The watermark that a document would make. -/
def Carries (doc : Doc) (value : String) : Prop :=
  match cfg.mode with
  | .appendOnly => ∃ o, get doc "_id" = some (.oid o) ∧ o.str = value
  | .mutable => ∃ field d, cfg.watermarkField = some field ∧ get doc field = some (.date d) ∧
      formatTs d = .ok value
  | .fullRefresh => False

/-- If the filter of the stored watermark finds a document that would make a watermark, it finds
one that would make a watermark not below the stored one. -/
def KeepsNewest (m : MongoState) : Prop :=
  ∀ wm filter, m.stored cfg dbName = some wm → filterFor cfg (some wm) = .ok filter →
    (∃ doc ∈ m.docs, filter.matches doc ∧ ∃ value, Carries cfg doc value) →
    ∃ doc ∈ m.docs, filter.matches doc ∧ ∃ value, Carries cfg doc value ∧
      NotBelow cfg wm.value value

/-- Every run finds the newest documents kept. -/
def keepsNewest (s : History) : MongoEvent → Prop
  | .run _ _ => KeepsNewest cfg dbName s.mongo
  | _ => True

variable {lib cfg u dbName} {env : Env} {ctx : RunContext} {text : Value → String}

/-! ### What a run that has a watermark stores -/

/-- One of the documents has this ObjectId, and none of them a greater one. -/
def Greatest (docs : List Doc) (o : ObjectId) : Prop :=
  (∃ doc ∈ docs, get doc "_id" = some (.oid o)) ∧
    ∀ doc ∈ docs, ∀ o', get doc "_id" = some (.oid o') → o'.val ≤ o.val

/-- **All observations** of ObjectIds: the watermark is the greatest, in whatever order. -/
theorem observeAll_greatest {docs : List Doc} {strategy : Strategy}
    (hids : ∀ doc ∈ docs, ∃ o, get doc "_id" = some (.oid o))
    (h : Strategy.observeAll text docs (.objectId cfg none) = .ok strategy) :
    ∃ maxId, strategy = .objectId cfg maxId ∧
      (maxId = none ∧ docs = [] ∨ ∃ o, maxId = some (.oid o) ∧ Greatest docs o) := by
  revert hids
  refine observeAll_invariant ?_ ?_ h
  · exact fun _ => ⟨none, rfl, .inl ⟨rfl, rfl⟩⟩
  clear h strategy docs
  intro docs doc before strategy _ ih hlast hids
  obtain ⟨maxId, rfl, hmax⟩ := ih fun d hd => hids d (by simp [hd])
  obtain ⟨o, ho⟩ := hids doc (by simp)
  simp only [Strategy.observe, ho] at hlast
  rcases hmax with ⟨rfl, rfl⟩ | ⟨m, rfl, ⟨top, htop, hm⟩, hle⟩
  · obtain rfl := Except.ok.inj hlast
    refine ⟨_, rfl, .inr ⟨o, rfl, ⟨doc, by simp, ho⟩, fun d hd o' ho' => ?_⟩⟩
    obtain rfl := List.mem_singleton.mp hd
    rw [ho] at ho'
    cases ho'
    exact le_rfl
  · have hstep : ∀ {o'}, get doc "_id" = some (.oid o') → o' = o := by
      intro o' ho'
      rw [ho] at ho'
      cases ho'
      rfl
    simp only [Strategy.observeId, pyGt, ok_bind] at hlast
    obtain rfl := Except.ok.inj hlast
    by_cases hlt : m.val < o.val
    · refine ⟨_, rfl, .inr ⟨o, by simp [hlt], ⟨doc, by simp, ho⟩, fun d hd o' ho' => ?_⟩⟩
      rcases List.mem_append.mp hd with hd | hd
      · exact (hle d hd o' ho').trans hlt.le
      · rw [List.mem_singleton.mp hd] at ho'
        rw [hstep ho']
    · refine ⟨_, rfl, .inr ⟨m, by simp [hlt], ⟨top, by simp [htop], hm⟩, fun d hd o' ho' => ?_⟩⟩
      rcases List.mem_append.mp hd with hd | hd
      · exact hle d hd o' ho'
      · rw [List.mem_singleton.mp hd] at ho'
        rw [hstep ho']
        exact not_lt.mp hlt

/-- The watermark is the string of a document that was read, and the strings of the others are
not above it. -/
lemma newWatermark_carried {docs : List Doc} {strategy : Strategy} {filter : Filter}
    {wm : State.Watermark} {value : String} (hf : filterFor cfg (some wm) = .ok filter)
    (hdocs : ∀ doc ∈ docs, filter.matches doc)
    (hobs : (makeStrategy cfg).observeAll text docs = .ok strategy)
    (hwm : strategy.newWatermark text = .ok (some value)) :
    (∃ doc ∈ docs, Carries cfg doc value) ∧ ∀ doc ∈ docs, ∀ carried old,
      Carries cfg doc carried → NotBelow cfg old carried → NotBelow cfg old value := by
  rcases hmode : cfg.mode
  · -- the filter only finds ObjectIds
    rw [makeStrategy_appendOnly hmode] at hobs
    rw [filterFor_stored hmode] at hf
    obtain ⟨lb, -, hf⟩ := bind_ok hf
    obtain rfl := Except.ok.inj hf
    have hids : ∀ doc ∈ docs, ∃ o, get doc "_id" = some (.oid o) := by
      intro doc hdoc
      have hm := hdocs doc hdoc
      simp only [Filter.matches, lookup_id] at hm
      split at hm
      · exact ⟨_, by assumption⟩
      · cases hm
    obtain ⟨maxId, rfl, ⟨rfl, -⟩ | ⟨o, rfl, ⟨top, htop, ho⟩, hle⟩⟩ := observeAll_greatest hids hobs
    · cases hwm
    obtain rfl : o.str = value := Option.some.inj (Except.ok.inj hwm)
    simp only [Carries, NotBelow, hmode]
    refine ⟨⟨top, htop, o, ho, rfl⟩, ?_⟩
    rintro doc hdoc _ old ⟨o', ho', rfl⟩ ⟨hstr, hval⟩
    have hval' := hle doc hdoc o' ho'
    refine ⟨String.le_trans hstr (String.not_lt.mp fun hlt => ?_), fun a b ha hb => ?_⟩
    · exact absurd (ObjectId.str_lt_iff.mp hlt) hval'.not_gt
    · rw [ObjectId.ofStr_str] at hb
      obtain rfl := Except.ok.inj hb
      exact (hval a o' ha (ObjectId.ofStr_str o')).trans hval'
  · obtain ⟨field, hfield⟩ := Option.isSome_iff_exists.mp (cfg.field_of_mutable hmode)
    rw [makeStrategy_mutable hmode hfield] at hobs
    obtain ⟨maxVal, rfl, ⟨rfl, -⟩ | ⟨d, rfl, ⟨top, htop, hd⟩, hle⟩⟩ := observeAll_latest hobs
    · cases hwm
    obtain ⟨string, hformat, hwm⟩ := bind_ok hwm
    obtain rfl := Option.some.inj (Except.ok.inj hwm)
    simp only [Carries, NotBelow, hmode]
    refine ⟨⟨top, htop, field, d, hfield, hd, hformat⟩, ?_⟩
    rintro doc hdoc carried old ⟨field', e, hfield', he, hcarried⟩ ⟨hstr, hval⟩
    obtain rfl := Option.some.inj (hfield.symm.trans hfield')
    have hinstant := hle doc hdoc e he
    refine ⟨String.le_trans hstr (formatTs_le hcarried hformat hinstant), fun a b ha hb => ?_⟩
    obtain ⟨t, ht, -, hwall⟩ := strptime_formatTs hcarried
    obtain ⟨t', ht', -, hwall'⟩ := strptime_formatTs hformat
    obtain rfl := Except.ok.inj (ht'.symm.trans hb)
    have hat := hval a t ha ht
    omega
  · rw [newWatermark_fullRefresh hmode hobs] at hwm
    cases hwm

/-- What a run stores: nothing, or the new watermark of a strategy that has observed what the run
asked for. -/
lemma watermarksOf_run (m : MongoState) (env : Env) (ctx : RunContext) :
    watermarksOf (extraction lib cfg u dbName env ctx m.store).2.journal = [] ∧
        (m.run lib cfg u dbName env ctx).stored cfg dbName = m.stored cfg dbName ∨
      ∃ wm filter strategy, filterFor cfg (m.stored cfg dbName) = .ok filter ∧
        (makeStrategy cfg).observeAll lib.text (env.find filter (makeStrategy cfg).sortSpec) =
          .ok strategy ∧
        strategy.newWatermark lib.text = .ok (some wm.value) ∧
        watermarksOf (extraction lib cfg u dbName env ctx m.store).2.journal = [wm] ∧
        (m.run lib cfg u dbName env ctx).stored cfg dbName = some wm := by
  have hran := extraction_cases lib cfg u dbName m env ctx
  simp only [MongoState.run, MongoState.after, MongoState.stored]
  generalize extraction lib cfg u dbName env ctx m.store = out at hran ⊢
  rcases hran with ⟨-, hj⟩ | ⟨filter, hf, hex⟩
  · rw [hj]
    exact .inl ⟨rfl, rfl⟩
  generalize out.1 = r at hex
  generalize out.2.journal = j at hex ⊢
  cases hex with
  | nothing => exact .inl ⟨rfl, rfl⟩
  | empty => exact .inl ⟨rfl, rfl⟩
  | uploaded => exact .inl ⟨rfl, rfl⟩
  | @committed _ _ strategy value hdry hrows hobs hwm =>
    refine .inr ⟨⟨(makeStrategy cfg).kind, value,
      env.clock (.setWatermark (namespaceOf cfg dbName)), ctx.runId⟩, filter, strategy,
      hf, hobs, hwm, rfl, ?_⟩
    simp [apply, StateStore.setWatermark]

/-! ### Histories -/

/-- What is stored is the last of what was stored. -/
lemma stored_committed {ok : History → MongoEvent → Prop} {s : History}
    (h : ((histories lib cfg u dbName).restrict ok).Reachable s) :
    s.mongo.stored cfg dbName = s.committed.head? := by
  refine h.of_restrict.invariant (P := fun s => s.mongo.stored cfg dbName = s.committed.head?)
    (fun s hs => ?_) fun s e s' _ ih hstep => ?_
  · rw [hs.1, hs.2.2]
    rfl
  obtain ⟨hmove, -⟩ := hstep
  cases hmove with
  | insert => exact ih
  | update => exact ih
  | delete => exact ih
  | @run env ctx =>
    simp only [stores]
    rcases watermarksOf_run s.mongo env ctx with ⟨hnil, hkept⟩ | ⟨wm, -, -, -, -, -, hone, hnew⟩
    · rw [hnil, hkept]
      exact ih
    · rw [hone, hnew]
      rfl

/-- **One run**: what it stores is not below what was stored if and only if the newest documents
were kept. -/
lemma committed_notBelow {m : MongoState} (hreads : ReadsAtOnce env m.docs)
    {old wm : State.Watermark} (hold : m.stored cfg dbName = some old)
    (hwm : wm ∈ watermarksOf (extraction lib cfg u dbName env ctx m.store).2.journal) :
    NotBelow cfg old.value wm.value ↔ KeepsNewest cfg dbName m := by
  rcases watermarksOf_run m env ctx with
    ⟨hnil, -⟩ | ⟨wm', filter, strategy, hf, hobs, hnew, hone, -⟩
  · rw [hnil] at hwm
    cases hwm
  rw [hone] at hwm
  obtain rfl := List.mem_singleton.mp hwm
  have hread : ∀ {doc}, doc ∈ env.find filter (makeStrategy cfg).sortSpec ↔
      doc ∈ m.docs ∧ filter.matches doc := by
    intro doc
    rw [(hreads _ _).mem_iff, List.mem_filter]
  rw [hold] at hf
  obtain ⟨⟨top, htop, hcarries⟩, hmax⟩ :=
    newWatermark_carried hf (fun doc hdoc => (hread.mp hdoc).2) hobs hnew
  constructor
  · rintro hbelow old' filter' hold' hf' -
    obtain rfl := Option.some.inj (hold.symm.trans hold')
    obtain rfl := Except.ok.inj (hf.symm.trans hf')
    exact ⟨top, (hread.mp htop).1, (hread.mp htop).2, _, hcarries, hbelow⟩
  · intro hkeeps
    obtain ⟨doc, hdoc, hm, carried, hcarried, hbelow⟩ :=
      hkeeps old filter hold hf ⟨top, (hread.mp htop).1, (hread.mp htop).2, _, hcarries⟩
    exact hmax doc (hread.mpr ⟨hdoc, hm⟩) carried old.value hcarried hbelow

/-- **One step.** -/
lemma neverBack_step {s s' : History} {event : MongoEvent}
    (hhead : s.mongo.stored cfg dbName = s.committed.head?) (h : NeverBack cfg s)
    (hok : keepsNewest cfg dbName s event)
    (hstep : HistoryStep lib cfg u dbName s event s') : NeverBack cfg s' := by
  obtain ⟨hmove, -⟩ := hstep
  cases hmove with
  | insert => exact h
  | update => exact h
  | delete => exact h
  | @run env ctx hreads =>
    unfold NeverBack
    simp only [stores]
    rcases watermarksOf_run s.mongo env ctx with ⟨hnil, -⟩ | ⟨wm, -, -, -, -, -, hone, -⟩
    · rw [hnil]
      exact h
    rw [hone, List.reverse_singleton, List.singleton_append, List.isChain_cons]
    refine ⟨fun old hold => ?_, h⟩
    rw [Option.mem_def, ← hhead] at hold
    have hmem : wm ∈ watermarksOf
        (extraction lib cfg u dbName env ctx s.mongo.store).2.journal := by
      rw [hone]
      exact List.mem_singleton_self _
    exact (committed_notBelow hreads hold hmem).mpr hok

/-- **The stored watermark never moves backwards** in a run of steps whose extractions all find
the newest documents kept; and an extraction that does not, if it stores a watermark, stores one
that is below. -/
theorem watermark_never_back {s : History}
    (h : ((histories lib cfg u dbName).restrict (keepsNewest cfg dbName)).Reachable s) :
    NeverBack cfg s ∧ ∀ env ctx, ReadsAtOnce env s.mongo.docs → ∀ old wm,
      s.mongo.stored cfg dbName = some old →
      Commits (extraction lib cfg u dbName env ctx s.mongo.store).2.journal cfg dbName wm →
      (NotBelow cfg old.value wm.value ↔ KeepsNewest cfg dbName s.mongo) := by
  refine ⟨?_, fun env ctx hreads old wm hold hwm => ?_⟩
  · refine h.invariant (P := NeverBack cfg) (fun s hs => ?_) fun s e s' hr ih hstep => ?_
    · rw [NeverBack, hs.2.2]
      exact .nil
    · exact neverBack_step (stored_committed hr) ih hstep.1 hstep.2
  · have hmem : wm ∈ watermarksOf
        (extraction lib cfg u dbName env ctx s.mongo.store).2.journal :=
      List.mem_filterMap.mpr ⟨_, hwm, rfl⟩
    exact committed_notBelow hreads hold hmem

/-! ### A document that is deleted between two runs -/

/-- Ten seconds before the sample ObjectId. -/
def earlierId : ObjectId := ⟨1699999990 * 2 ^ 64 + 1, by decide⟩

def earlierDoc : Doc := [("_id", .oid earlierId)]

def sampleHistory : History where
  mongo := .start [earlierDoc, sampleDoc]
  written := [some (.oid earlierId), some (.oid sampleId)]
  committed := []

/-- The state after a run with nothing going on. -/
def History.calmRun (s : History) : History where
  mongo := s.mongo.run plainLibs sampleCollection sampleUploader "db"
    (calmReads s.mongo.docs sampleNow) sampleCtx
  written := s.written
  committed := stores plainLibs sampleCollection sampleUploader "db" s.mongo
    (.run (calmReads s.mongo.docs sampleNow) sampleCtx) ++ s.committed

def History.without (s : History) (docs : List Doc) : History :=
  { s with mongo := { s.mongo with docs } }

lemma sampleHistory_reachable : ((histories plainLibs sampleCollection sampleUploader
    "db").restrict (keepsNewest sampleCollection "db")).Reachable sampleHistory.calmRun := by
  have hstart : ((histories plainLibs sampleCollection sampleUploader
      "db").restrict (keepsNewest sampleCollection "db")).Reachable sampleHistory :=
    .init ⟨rfl, rfl, rfl⟩
  have hkeeps : keepsNewest sampleCollection "db" sampleHistory
      (.run (calmReads sampleHistory.mongo.docs sampleNow) sampleCtx) := by
    intro wm filter hwm
    cases hwm
  have hrun : HistoryStep plainLibs sampleCollection sampleUploader "db" sampleHistory
      (.run (calmReads sampleHistory.mongo.docs sampleNow) sampleCtx) sampleHistory.calmRun :=
    .move (.run (calmReads_reads _ _)) trivial
  exact .step hstart (And.intro hkeeps hrun)

/-- A minute after the sample ObjectId. -/
def laterId : ObjectId := ⟨1700000060 * 2 ^ 64 + 1, by decide⟩

def laterDoc : Doc := [("_id", .oid laterId)]

/-- The state after the first run, with one more document. -/
def sampleGrown : History where
  mongo := { sampleHistory.calmRun.mongo with docs := [laterDoc, earlierDoc, sampleDoc] }
  written := some (.oid laterId) :: sampleHistory.written
  committed := sampleHistory.calmRun.committed

lemma sampleGrown_keeps : KeepsNewest sampleCollection "db" sampleGrown.mongo := by
  intro wm filter hwm hf _
  have hstored : sampleGrown.mongo.stored sampleCollection "db" =
      some ⟨"objectid", sampleId.str, sampleNow, "r1"⟩ := rfl
  obtain rfl := Option.some.inj (hstored.symm.trans hwm)
  have hfilter : filterFor sampleCollection (some ⟨"objectid", sampleId.str, sampleNow, "r1"⟩) =
      .ok (.idGt ⟨1699999970 * 2 ^ 64, by decide⟩) := by decide +kernel
  obtain rfl := Except.ok.inj (hfilter.symm.trans hf)
  have hlt : sampleId.str < laterId.str := ObjectId.str_lt (by decide)
  refine ⟨laterDoc, List.mem_cons_self, by decide +kernel, laterId.str, ⟨laterId, rfl, rfl⟩,
    String.not_lt.mp (String.lt_asymm hlt), fun o o' ho ho' => ?_⟩
  rw [ObjectId.ofStr_str] at ho ho'
  obtain rfl := Except.ok.inj ho
  obtain rfl := Except.ok.inj ho'
  decide

/-- The second run moves the watermark on. -/
theorem watermark_never_back_sample :
    sampleGrown.calmRun.committed.map (·.value) = [laterId.str, sampleId.str] ∧
    NeverBack sampleCollection sampleGrown.calmRun := by
  refine ⟨rfl, ?_⟩
  have hinsert : HistoryStep plainLibs sampleCollection sampleUploader "db"
      sampleHistory.calmRun (.insert laterDoc) sampleGrown :=
    .move .insert fun v hv => by
      rcases List.mem_cons.mp hv with rfl | hv
      · decide +kernel
      · obtain rfl := List.mem_singleton.mp hv
        decide +kernel
  have hrun : HistoryStep plainLibs sampleCollection sampleUploader "db" sampleGrown
      (.run (calmReads sampleGrown.mongo.docs sampleNow) sampleCtx) sampleGrown.calmRun :=
    .move (.run (calmReads_reads _ _)) trivial
  have hany : keepsNewest sampleCollection "db" sampleHistory.calmRun (.insert laterDoc) := trivial
  have hkeeps : keepsNewest sampleCollection "db" sampleGrown
      (.run (calmReads sampleGrown.mongo.docs sampleNow) sampleCtx) := sampleGrown_keeps
  exact (watermark_never_back
    ((sampleHistory_reachable.step ⟨hany, hinsert⟩).step ⟨hkeeps, hrun⟩)).1

/-- The later document is deleted after the first run, and the second run reads the earlier one
again. -/
theorem watermark_set_back :
    (histories plainLibs sampleCollection sampleUploader "db").Reachable
      (sampleHistory.calmRun.without [earlierDoc]).calmRun ∧
    (sampleHistory.calmRun.without [earlierDoc]).calmRun.committed.map (·.value) =
      [earlierId.str, sampleId.str] ∧
    earlierId.str < sampleId.str ∧
    ¬ NeverBack sampleCollection (sampleHistory.calmRun.without [earlierDoc]).calmRun := by
  have hlt : earlierId.str < sampleId.str := ObjectId.str_lt (by decide)
  have hcommitted : (sampleHistory.calmRun.without [earlierDoc]).calmRun.committed =
      [⟨"objectid", earlierId.str, sampleNow, "r1"⟩, ⟨"objectid", sampleId.str, sampleNow, "r1"⟩] :=
    rfl
  refine ⟨?_, by rw [hcommitted]; rfl, hlt, fun h => ?_⟩
  · have hdelete : HistoryStep plainLibs sampleCollection sampleUploader "db"
        sampleHistory.calmRun (.delete sampleDoc) (sampleHistory.calmRun.without [earlierDoc]) :=
      .move (.delete (show sampleHistory.calmRun.mongo.docs = [earlierDoc] ++ sampleDoc :: [] from
        rfl)) trivial
    have hrun : HistoryStep plainLibs sampleCollection sampleUploader "db"
        (sampleHistory.calmRun.without [earlierDoc])
        (.run (calmReads [earlierDoc] sampleNow) sampleCtx)
        (sampleHistory.calmRun.without [earlierDoc]).calmRun :=
      .move (.run (calmReads_reads _ _)) trivial
    exact .step (.step sampleHistory_reachable.of_restrict hdelete) hrun
  · rw [NeverBack, hcommitted, List.isChain_cons_cons] at h
    exact absurd h.1.1 (String.not_le.mpr hlt)

end MongoSyncAgent.WatermarkHistory
