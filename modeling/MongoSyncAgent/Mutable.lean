import MongoSyncAgent.CollectionRuns

/-!
Mutable collections: runs lose no version as long as the clock of a write is no further behind
the stored watermark than the overlap.
-/

namespace MongoSyncAgent.Mutable

open MongoSyncAgent.Py MongoSyncAgent.Bson MongoSyncAgent.Config MongoSyncAgent.State
open MongoSyncAgent.Runtime MongoSyncAgent.Sinks MongoSyncAgent.Watermarks MongoSyncAgent.Timestamps
open MongoSyncAgent.Extract MongoSyncAgent.Systems MongoSyncAgent.CollectionRuns

variable {lib : Libs} {cfg : CollectionConfig} {u : S3Uploader} {dbName field : String}

/-! ### What the filter finds -/

lemma makeStrategy_mutable (h : cfg.mode = .mutable) (hfield : cfg.watermarkField = some field) :
    makeStrategy cfg = .timestamp cfg field none := by
  unfold makeStrategy
  split
  · rename_i h'
    rw [h] at h'
    cases h'
  · simp [hfield]
  · rename_i h'
    rw [h] at h'
    cases h'

/-- The filter of a stored watermark. -/
lemma filterFor_stored (h : cfg.mode = .mutable) (hfield : cfg.watermarkField = some field)
    (wm : State.Watermark) : filterFor cfg (some wm) =
      (do return .fieldGte field (← timestampBound cfg wm.value)) := by
  unfold filterFor
  rw [makeStrategy_mutable h hfield]
  rfl

/-- The comparison takes in whatever is not before the bound. -/
lemma matches_of_instant {lb d : Datetime} (hle : lb.instant ≤ d.instant) {doc : Doc}
    (hdate : lookup field doc = some (.date d)) : (Filter.fieldGte field lb).matches doc := by
  have hmillis : millis lb ≤ millis d := Int.ediv_le_ediv (by decide) hle
  simp [Filter.matches, hdate, hmillis]

/-! ### The watermark string -/

/-- The text is the timestamp string of an instant; it keeps milliseconds. -/
def Denotes (text : String) (instant : ℤ) : Prop :=
  ∃ d, formatTs d = .ok text ∧ d.instant / 1000 * 1000 = instant

/-- The bound of a timestamp string: the overlap before the instant that it denotes. -/
lemma timestampBound_denotes {text : String} {instant : ℤ} (h : Denotes text instant)
    {lb : Datetime} (hlb : timestampBound cfg text = .ok lb) :
    lb.instant = instant - cfg.overlapSeconds * 1000000 := by
  obtain ⟨d, hd, rfl⟩ := h
  obtain ⟨t, ht, hinst⟩ := timestampBound_ok hlb
  obtain ⟨t', ht', -, hwall⟩ := strptime_formatTs hd
  rw [ht] at ht'
  obtain rfl := Except.ok.inj ht'
  rw [hinst, hwall]

lemma newWatermark_denotes {s : Strategy} {text : Value → String} {value : String}
    (hs : SameObject (.timestamp cfg field none) s)
    (h : s.newWatermark text = .ok (some value)) : ∃ instant, Denotes value instant := by
  cases s with
  | objectId => exact hs.elim
  | fullRefresh => exact hs.elim
  | timestamp cfg' field' maxVal =>
    cases maxVal with
    | none => cases h
    | some d =>
      obtain ⟨text, htext, hval⟩ := bind_ok h
      obtain rfl := Option.some.inj (Except.ok.inj hval)
      exact ⟨_, d, htext, rfl⟩

/-- **Every stored watermark is the string of an instant.** -/
lemma stored_denotes (hmode : cfg.mode = .mutable) (hfield : cfg.watermarkField = some field)
    {ok : MongoState → MongoEvent → Prop} {s : MongoState}
    (h : ((mongoRuns lib cfg u dbName).restrict ok).Reachable s) {wm : State.Watermark}
    (hwm : s.stored cfg dbName = some wm) : ∃ instant, Denotes wm.value instant := by
  revert wm
  refine h.invariant (P := fun s => ∀ {wm}, s.stored cfg dbName = some wm →
    ∃ instant, Denotes wm.value instant) (fun s hs wm hwm => ?_) fun s e s' _ ih hstep => ?_
  · rw [hs.1] at hwm
    cases hwm
  intro wm hwm
  cases hstep.2 with
  | insert => exact ih hwm
  | update => exact ih hwm
  | delete => exact ih hwm
  | @run env ctx =>
    have hran := run_cases lib cfg u dbName s env ctx
    generalize s.run lib cfg u dbName env ctx = s' at hran hwm
    cases hran with
    | nothing => exact ih hwm
    | empty => exact ih hwm
    | uploaded => exact ih hwm
    | committed hf hrows hobs hnew =>
      have hsame := observeAll_same hobs
      rw [makeStrategy_mutable hmode hfield] at hsame
      have hvalue := newWatermark_denotes hsame hnew
      simp only [MongoState.stored, StateStore.setWatermark, if_true, Option.some.injEq] at hwm
      rw [← hwm]
      exact hvalue

/-! ### Bounded lateness -/

/-- The instant is at most the overlap before that of the stored watermark. -/
def Timely (cfg : CollectionConfig) (stored : Option State.Watermark) (d : Datetime) : Prop :=
  ∀ wm instant, stored = some wm → Denotes wm.value instant →
    instant - cfg.overlapSeconds * 1000000 ≤ d.instant

/-- Every write gives the document a timely datetime as its watermark field. -/
def writesInTime (cfg : CollectionConfig) (dbName field : String) (s : MongoState) :
    MongoEvent → Prop
  | .insert doc | .update _ doc => ∃ d, lookup field doc = some (.date d) ∧
      Timely cfg (s.stored cfg dbName) d
  | _ => True

lemma awaited_of_timely (hmode : cfg.mode = .mutable) (hfield : cfg.watermarkField = some field)
    {ok : MongoState → MongoEvent → Prop} {s : MongoState}
    (h : ((mongoRuns lib cfg u dbName).restrict ok).Reachable s) {doc : Doc} {d : Datetime}
    (hdate : lookup field doc = some (.date d)) (ht : Timely cfg (s.stored cfg dbName) d) :
    Awaited cfg dbName s doc := by
  intro filter hf
  rcases hs : s.stored cfg dbName with _ | wm
  · rw [hs, filterFor_none (initialWatermark_none h)] at hf
    obtain rfl := Except.ok.inj hf
    rfl
  · rw [hs, filterFor_stored hmode hfield] at hf
    obtain ⟨lb, hlb, hf⟩ := bind_ok hf
    obtain rfl := Except.ok.inj hf
    obtain ⟨instant, hinstant⟩ := stored_denotes hmode hfield h hs
    refine matches_of_instant ?_ hdate
    rw [timestampBound_denotes hinstant hlb]
    exact ht wm instant hs hinstant

/-- **Mutable extraction is lossless under bounded lateness.** After a run that ends well, the
version of every document that was in the collection when the run read it is in an uploaded
object. -/
theorem mutable_lossless (hmode : cfg.mode = .mutable) (hfield : cfg.watermarkField = some field)
    {s : MongoState}
    (h : ((mongoRuns lib cfg u dbName).restrict (writesInTime cfg dbName field)).Reachable s)
    {env : Env} (hreads : ReadsAtOnce env s.docs) {ctx : RunContext}
    (hend : EndedWell ctx (extraction lib cfg u dbName env ctx s.store).1) :
    ∀ doc ∈ s.docs, Uploaded lib (s.run lib cfg u dbName env ctx) doc := by
  refine fun doc hd => uploaded_of_endedWell (fun s e hr hok => ?_) h hreads hend hd
  cases e with
  | insert doc =>
    obtain ⟨d, hdate, ht⟩ := hok
    exact awaited_of_timely hmode hfield hr hdate ht
  | update old new =>
    obtain ⟨d, hdate, ht⟩ := hok
    exact awaited_of_timely hmode hfield hr hdate ht
  | delete doc => trivial
  | run env ctx => trivial

/-! ### A job that is changed late -/

def sampleCollection : CollectionConfig where
  name := "AS_Jobs"
  mode := .mutable
  watermarkField := some "dtModified"
  field_of_mutable := by decide

/-- A job that was modified at this time. -/
def job (id : ℤ) (modified : Datetime) : Doc := [("_id", .int id), ("dtModified", .date modified)]

/-- The relaxed Extended JSON of a sample job. -/
def jobJson (doc : Doc) : String :=
  match get doc "_id", get doc "dtModified" with
  | some (.int id), some (.date d) => "\x7b\"_id\": " ++ toString id ++
      ", \"dtModified\": \x7b\"$date\": \"" ++ String.ofList ((tsChars d).take 19) ++ "Z\"\x7d\x7d"
  | _, _ => ""

def jobLibs : Libs := { plainLibs with dumps := jobJson }

/-- So many seconds before the sample time. -/
def earlier (seconds : ℕ) : Datetime :=
  ⟨63000000000000000 - seconds * 1000000, some 0, by unfold wallLimit; omega⟩

def sampleJobs : List Doc := [job 1 sampleNow, job 2 (earlier 40)]

def changedJobs : List Doc := [job 1 sampleNow, job 2 (earlier 20)]

/-- What a run leaves that finds these documents. -/
def jobsRun (s : MongoState) (docs : List Doc) : MongoState :=
  s.run jobLibs sampleCollection sampleUploader "db" (calmReads docs sampleNow) sampleCtx

/-- The jobs are uploaded, and the time of the first one stored, when the second one is changed, by
a clock that is behind. -/
def jobsState : MongoState := { jobsRun (.start sampleJobs) sampleJobs with docs := changedJobs }

lemma jobsState_stored : ∃ value, formatTs sampleNow = .ok value ∧
    jobsState.stored sampleCollection "db" = some ⟨"timestamp", value, sampleNow, "r1"⟩ :=
  ⟨_, rfl, rfl⟩

/-- One text denotes one instant. -/
lemma Denotes.unique {text : String} {a b : ℤ} (ha : Denotes text a) (hb : Denotes text b) :
    a = b := by
  obtain ⟨d, hd, rfl⟩ := ha
  obtain ⟨d', hd', rfl⟩ := hb
  obtain ⟨t, ht, -, hwall⟩ := strptime_formatTs hd
  obtain ⟨t', ht', -, hwall'⟩ := strptime_formatTs hd'
  obtain rfl := Except.ok.inj (ht.symm.trans ht')
  exact hwall.symm.trans hwall'

lemma jobsState_reachable : ((mongoRuns jobLibs sampleCollection sampleUploader "db").restrict
    (writesInTime sampleCollection "db" "dtModified")).Reachable jobsState := by
  have hinsert : ∀ docs doc d, lookup "dtModified" doc = some (.date d) →
      writesInTime sampleCollection "db" "dtModified" (.start docs) (.insert doc) :=
    fun docs doc d hd => ⟨d, hd, fun wm _ hwm => by cases hwm⟩
  have hrun : writesInTime sampleCollection "db" "dtModified" (.start sampleJobs)
      (.run (calmReads sampleJobs sampleNow) sampleCtx) := trivial
  have hlate : writesInTime sampleCollection "db" "dtModified" (jobsRun (.start sampleJobs)
      sampleJobs) (.update (job 2 (earlier 40)) (job 2 (earlier 20))) := by
    refine ⟨_, lookup_eq_get (by decide) _, fun wm instant hwm hinstant => ?_⟩
    obtain ⟨value, hvalue, hstored⟩ := jobsState_stored
    obtain rfl := Option.some.inj (hstored.symm.trans hwm)
    rw [hinstant.unique ⟨sampleNow, hvalue, rfl⟩]
    decide
  have hstart : ((mongoRuns jobLibs sampleCollection sampleUploader "db").restrict
      (writesInTime sampleCollection "db" "dtModified")).Reachable (.start []) := .init ⟨rfl, rfl⟩
  have hsecond := hstart.step
    ⟨hinsert [] (job 2 (earlier 40)) _ (lookup_eq_get (by decide) _), .insert⟩
  have hfirst := hsecond.step
    ⟨hinsert [job 2 (earlier 40)] (job 1 sampleNow) _ (lookup_eq_get (by decide) _), .insert⟩
  exact .step (.step hfirst ⟨hrun, .run (calmReads_reads _ _)⟩)
    ⟨hlate, .update (a := [job 1 sampleNow]) (b := []) rfl⟩

/-- The next run goes back behind the stored time, and uploads the version that came late. -/
theorem mutable_lossless_sample :
    (∃ value, formatTs sampleNow = .ok value ∧
      jobsState.stored sampleCollection "db" = some ⟨"timestamp", value, sampleNow, "r1"⟩) ∧
    ¬ Uploaded jobLibs jobsState (job 2 (earlier 20)) ∧
    Uploaded jobLibs (jobsRun jobsState changedJobs) (job 2 (earlier 20)) := by
  refine ⟨jobsState_stored, ?_, ?_⟩
  · rintro ⟨p, hp, groups, hgroups, row, hrow, hpayload, -⟩
    obtain rfl := List.mem_singleton.mp hp
    obtain rfl := Content.parquet.inj hgroups
    rcases List.mem_cons.mp hrow with rfl | hrow
    · exact absurd hpayload (by decide +kernel)
    · obtain rfl := List.mem_singleton.mp hrow
      exact absurd hpayload (by decide +kernel)
  refine mutable_lossless rfl rfl jobsState_reachable (calmReads_reads _ _) ?_ _
    (List.mem_cons_of_mem _ List.mem_cons_self)
  exact ⟨rfl, _, rfl, .inl rfl⟩

end MongoSyncAgent.Mutable
