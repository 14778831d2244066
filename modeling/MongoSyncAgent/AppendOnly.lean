import MongoSyncAgent.CollectionRuns

/-!
Append-only collections: runs lose nothing as long as documents are inserted no later than the
overlap allows.
-/

namespace MongoSyncAgent.AppendOnly

open MongoSyncAgent.Py MongoSyncAgent.Bson MongoSyncAgent.Config MongoSyncAgent.State
open MongoSyncAgent.Runtime MongoSyncAgent.Sinks MongoSyncAgent.Watermarks
open MongoSyncAgent.Extract MongoSyncAgent.Systems MongoSyncAgent.CollectionRuns

variable {lib : Libs} {cfg : CollectionConfig} {u : S3Uploader} {dbName : String}

/-! ### What the filter finds -/

lemma makeStrategy_appendOnly (h : cfg.mode = .appendOnly) :
    makeStrategy cfg = .objectId cfg none := by
  unfold makeStrategy
  split
  · rfl
  · rename_i h'
    rw [h] at h'
    cases h'
  · rename_i h'
    rw [h] at h'
    cases h'

/-- The filter of a stored watermark. -/
lemma filterFor_stored (h : cfg.mode = .appendOnly) (wm : State.Watermark) :
    filterFor cfg (some wm) = (do return .idGt (← objectIdBound cfg wm.value)) := by
  unfold filterFor
  rw [makeStrategy_appendOnly h]
  rfl

lemma lookup_id (doc : Doc) : lookup "_id" doc = get doc "_id" := lookup_eq_get (by decide) doc

/-- The bound has a zero tail: whatever has not is above it from the second of the bound on. -/
lemma matches_of_seconds {lb o : ObjectId} {secs : ℤ} (hlb : (lb.val : ℤ) = secs * 2 ^ 64)
    (hlow : o.low ≠ 0) (hsecs : secs ≤ o.seconds) {doc : Doc}
    (hid : get doc "_id" = some (.oid o)) : (Filter.idGt lb).matches doc := by
  have hlt : lb.val < o.val := by
    have := o.val_eq
    omega
  simp [Filter.matches, lookup_id, hid, hlt]

/-! ### Bounded lateness -/

/-- The generation second is at most the overlap before that of the stored watermark. -/
def Timely (cfg : CollectionConfig) (stored : Option State.Watermark) (o : ObjectId) : Prop :=
  ∀ wm o', stored = some wm → ObjectId.ofStr wm.value = .ok o' →
    (o'.seconds : ℤ) - cfg.overlapSeconds ≤ o.seconds

/-- Documents are only inserted and deleted; an inserted one has an ObjectId that is timely and
whose low bytes are not all zero. -/
def appendsInTime (cfg : CollectionConfig) (dbName : String) (s : MongoState) : MongoEvent → Prop
  | .insert doc => ∃ o, get doc "_id" = some (.oid o) ∧ o.low ≠ 0 ∧
      Timely cfg (s.stored cfg dbName) o
  | .update .. => False
  | _ => True

lemma awaited_of_timely (hmode : cfg.mode = .appendOnly) (hinit : cfg.initialWatermark = none)
    {s : MongoState} {doc : Doc} {o : ObjectId} (hid : get doc "_id" = some (.oid o))
    (hlow : o.low ≠ 0) (ht : Timely cfg (s.stored cfg dbName) o) :
    Awaited cfg dbName s doc := by
  intro filter hf
  rcases hs : s.stored cfg dbName with _ | wm
  · rw [hs, filterFor_none hinit] at hf
    obtain rfl := Except.ok.inj hf
    rfl
  · rw [hs, filterFor_stored hmode] at hf
    obtain ⟨lb, hlb, hf⟩ := bind_ok hf
    obtain rfl := Except.ok.inj hf
    obtain ⟨o', ho', hval⟩ := objectIdBound_ok hlb
    exact matches_of_seconds hval hlow (ht wm o' hs ho') hid

/-- **Append-only extraction is lossless under bounded lateness.** After a run that ends well,
every document that was in the collection when the run read it is in an uploaded object. -/
theorem append_only_lossless (hmode : cfg.mode = .appendOnly) {s : MongoState}
    (h : ((mongoRuns lib cfg u dbName).restrict (appendsInTime cfg dbName)).Reachable s)
    {env : Env} (hreads : ReadsAtOnce env s.docs) {ctx : RunContext}
    (hend : EndedWell ctx (extraction lib cfg u dbName env ctx s.store).1) :
    ∀ doc ∈ s.docs, Uploaded lib (s.run lib cfg u dbName env ctx) doc := by
  have hinit := initialWatermark_none h
  refine fun doc hd => uploaded_of_endedWell (fun s e _ hok => ?_) h hreads hend hd
  cases e with
  | insert doc =>
    obtain ⟨o, hid, hlow, ht⟩ := hok
    exact awaited_of_timely hmode hinit hid hlow ht
  | update old new => exact hok.elim
  | delete doc => trivial
  | run env ctx => trivial

/-! ### A document that comes late -/

def sampleCollection : CollectionConfig where
  name := "AS_Queue"
  mode := .appendOnly
  field_of_mutable := by decide

def sampleId : ObjectId := ⟨1700000000 * 2 ^ 64 + 1, by decide⟩

def sampleDoc : Doc := [("_id", .oid sampleId)]

/-- Its `_id` is of 20 seconds before. -/
def lateDoc : Doc := [("_id", .oid ⟨1699999980 * 2 ^ 64 + 1, by decide⟩)]

/-- What a run leaves that finds these documents. -/
def sampleRun (s : MongoState) (docs : List Doc) : MongoState :=
  s.run plainLibs sampleCollection sampleUploader "db" (calmReads docs sampleNow) sampleCtx

/-- The first document is uploaded, and its `_id` stored, when the late one is inserted. -/
def sampleState : MongoState :=
  { sampleRun (.start [sampleDoc]) [sampleDoc] with docs := [lateDoc, sampleDoc] }

lemma sampleState_stored : sampleState.stored sampleCollection "db" =
    some ⟨"objectid", sampleId.str, sampleNow, "r1"⟩ := rfl

lemma sampleState_reachable : ((mongoRuns plainLibs sampleCollection sampleUploader "db").restrict
    (appendsInTime sampleCollection "db")).Reachable sampleState := by
  have hstart : ((mongoRuns plainLibs sampleCollection sampleUploader "db").restrict
      (appendsInTime sampleCollection "db")).Reachable (.start []) := .init ⟨rfl, rfl⟩
  have hinsert : appendsInTime sampleCollection "db" (.start []) (.insert sampleDoc) :=
    ⟨sampleId, rfl, by decide +kernel, fun wm o' hwm => by cases hwm⟩
  have hrun : appendsInTime sampleCollection "db" (.start [sampleDoc])
      (.run (calmReads [sampleDoc] sampleNow) sampleCtx) := trivial
  have hlate : appendsInTime sampleCollection "db" (sampleRun (.start [sampleDoc]) [sampleDoc])
      (.insert lateDoc) := by
    refine ⟨_, rfl, by decide +kernel, fun wm o' hwm ho' => ?_⟩
    obtain rfl := Option.some.inj (sampleState_stored.symm.trans hwm)
    obtain rfl : sampleId = o' := Except.ok.inj (.trans (by decide +kernel) ho')
    decide +kernel
  exact .step (.step (.step hstart ⟨hinsert, .insert⟩) ⟨hrun, .run (calmReads_reads _ _)⟩)
    ⟨hlate, .insert⟩

/-- The next run goes back behind the stored `_id`, and uploads the late document. -/
theorem append_only_lossless_sample :
    sampleState.stored sampleCollection "db" = some ⟨"objectid", sampleId.str, sampleNow, "r1"⟩ ∧
    sampleState.bucket.length = 1 ∧ ¬ Uploaded plainLibs sampleState lateDoc ∧
    Uploaded plainLibs (sampleRun sampleState [lateDoc, sampleDoc]) lateDoc := by
  refine ⟨sampleState_stored, rfl, ?_, ?_⟩
  · rintro ⟨p, hp, groups, hgroups, row, hrow, -, hid⟩
    obtain rfl := List.mem_singleton.mp hp
    obtain rfl := Content.parquet.inj hgroups
    obtain rfl := List.mem_singleton.mp hrow
    exact absurd hid (by decide +kernel)
  refine append_only_lossless rfl sampleState_reachable (calmReads_reads _ _) ?_ lateDoc
    List.mem_cons_self
  exact ⟨rfl, _, rfl, .inl rfl⟩

end MongoSyncAgent.AppendOnly
