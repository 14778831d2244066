import MongoSyncAgent.CollectionRuns
import MongoSyncAgent.LoadConfig
import MongoSyncAgent.Mutable

/-!
Runs of one namespace under configurations that change from run to run.

The store keeps the kind of a watermark, and a run refuses a watermark of another kind. Which
field of the documents the watermark was measured on is kept beside the store.
-/

namespace MongoSyncAgent.TrackedField

open MongoSyncAgent.Py MongoSyncAgent.Bson MongoSyncAgent.Config MongoSyncAgent.State
open MongoSyncAgent.Runtime MongoSyncAgent.Sinks MongoSyncAgent.Watermarks MongoSyncAgent.Outcomes
open MongoSyncAgent.Extract MongoSyncAgent.Systems MongoSyncAgent.CollectionRuns
open MongoSyncAgent.LoadConfig MongoSyncAgent.Timestamps MongoSyncAgent.Mutable

/-- The document field that a filter constrains. -/
def constrains : Filter → Option String
  | .all => none
  | .idGt _ => some "_id"
  | .fieldGte field _ => some field

structure FieldState where
  store : StateStore
  /-- What the strategy of the run that stored the watermark tracked. -/
  measured : Option String

inductive FieldEvent
  | run (cfg : CollectionConfig) (env : Env) (ctx : RunContext)

def isWatermark : Effect → Bool
  | .setWatermark .. => true
  | _ => false

variable (lib : Libs) (u : S3Uploader) (dbName name : String)

def FieldState.run (s : FieldState) (cfg : CollectionConfig) (env : Env) (ctx : RunContext) :
    FieldState :=
  let j := (extraction lib cfg u dbName env ctx s.store).2.journal
  ⟨replay s.store j, if j.any isWatermark then (makeStrategy cfg).tracks else s.measured⟩

/-- The configuration of a run is one of the collection that `load_config` accepts. -/
inductive FieldStep : FieldState → FieldEvent → FieldState → Prop
  | run {s cfg env ctx} (hname : cfg.name = name) (hvalid : ValidCollection cfg) :
    FieldStep s (.run cfg env ctx) (s.run lib u dbName cfg env ctx)

/-- The namespace of the collection, which is the same in all its configurations. -/
def nameSpace : String := "mongo:" ++ dbName ++ "." ++ name

def fieldRuns : System FieldState FieldEvent where
  init s := s.store.watermarks (nameSpace dbName name) = none
  step := FieldStep lib u dbName name

/-- While a timestamp is stored, mutable runs go by the field that it was measured on. -/
def sameField (s : FieldState) : FieldEvent → Prop
  | .run cfg _ _ => ∀ wm, s.store.watermarks (nameSpace dbName name) = some wm →
      wm.kind = "timestamp" → cfg.mode = .mutable → cfg.watermarkField = s.measured

/-! ### What a run does with a stored watermark -/

/-- The filter that a run sends when it goes by a stored watermark. -/
def sent (cfg : CollectionConfig) (wm : State.Watermark) : Option Filter :=
  if wm.kind = (makeStrategy cfg).kind then (filterFor cfg (some wm)).toOption else none

/-- The part of `extract_collection` from `coll.find` on. -/
def extractWith (env : Env) (cfg : CollectionConfig) (ctx : RunContext) (filter : Filter) :
    M UnitResult := do
  call env (.find (namespaceOf cfg dbName))
  let docs := env.find filter (makeStrategy cfg).sortSpec
  let path := spoolPath ctx.spoolDir (spoolUnit cfg) "parquet"
  let p ← readCursor lib env cfg ctx docs (makeStrategy cfg) path
  if p.sink.rows = 0 then
    abort env path
    return { unit := cfg.name, status := .empty }
  else deliver lib env cfg u ctx dbName p

/-- The run ended with a `ConfigError`, and nothing of it lasts. -/
def Refused (out : Except Exc UnitResult × World) : Prop :=
  (∃ e, out.1 = .error e ∧ e.cls = .configError) ∧ out.2.journal = []

/-- A run applies a stored watermark to the field it was measured on, or refuses it. -/
def AppliesToMeasured (s : FieldState) (cfg : CollectionConfig) (env : Env) (ctx : RunContext) :
    Prop :=
  ∀ wm, s.store.watermarks (nameSpace dbName name) = some wm →
    (∀ filter, sent cfg wm = some filter → constrains filter = s.measured) ∧
    (s.measured ≠ (makeStrategy cfg).tracks →
      Refused (extraction lib cfg u dbName env ctx s.store))

variable {lib u dbName name} {s : FieldState} {cfg : CollectionConfig} {env : Env}
  {ctx : RunContext} {wm : State.Watermark}

lemma namespaceOf_eq (h : cfg.name = name) : namespaceOf cfg dbName = nameSpace dbName name := by
  rw [namespaceOf, nameSpace, h]

/-- **A run with a stored watermark** compares the kinds, builds the filter and sends it. -/
lemma extraction_stored (hget : env.fault (.getWatermark (namespaceOf cfg dbName)) = none)
    {store : StateStore} (h : store.watermarks (namespaceOf cfg dbName) = some wm) :
    extraction lib cfg u dbName env ctx store =
      exec (do
        lift (validateWatermarkKind wm (makeStrategy cfg))
        let filter ← lift (filterFor cfg (some wm))
        extractWith lib u dbName env cfg ctx filter) (World.start store) := by
  have hstore : (World.start store).store.watermarks (namespaceOf cfg dbName) = some wm := h
  unfold extraction extractCollection
  rw [exec_bind, exec_call, hget]
  simp only
  rw [exec_bind, exec_get]
  simp only [hstore]
  rfl

lemma extraction_mismatch (hget : env.fault (.getWatermark (namespaceOf cfg dbName)) = none)
    {store : StateStore} (h : store.watermarks (namespaceOf cfg dbName) = some wm)
    (hkind : wm.kind ≠ (makeStrategy cfg).kind) :
    Refused (extraction lib cfg u dbName env ctx store) := by
  rw [extraction_stored hget h, exec_bind, exec_lift, validateWatermarkKind, if_pos hkind]
  exact ⟨⟨_, rfl, rfl⟩, rfl⟩

/-- A filter that cannot be built ends the run with the error of building it. -/
lemma extraction_unbuilt (hget : env.fault (.getWatermark (namespaceOf cfg dbName)) = none)
    {store : StateStore} (h : store.watermarks (namespaceOf cfg dbName) = some wm)
    (hkind : wm.kind = (makeStrategy cfg).kind) {e : Exc}
    (hf : filterFor cfg (some wm) = .error e) :
    (extraction lib cfg u dbName env ctx store).1 = .error e := by
  rw [extraction_stored hget h, exec_bind, exec_lift, validateWatermarkKind,
    if_neg (not_not_intro hkind)]
  simp only
  rw [exec_bind, exec_lift, hf]

/-! ### Building a filter never raises a `ConfigError` -/

/-- Whatever it raises is no `ConfigError`. -/
def NoConfigError {α : Type} (x : Except Exc α) : Prop := ∀ e, x = .error e → e.cls ≠ .configError

lemma NoConfigError.ok {α : Type} (a : α) : NoConfigError (.ok a) := fun _ h => by cases h

lemma NoConfigError.raise {α : Type} {cls : ExcClass} {text : String} (h : cls ≠ .configError) :
    NoConfigError (raise cls text : Except Exc α) := by
  intro e he
  obtain rfl := Except.error.inj he
  exact h

lemma NoConfigError.bind {α β : Type} {x : Except Exc α} {f : α → Except Exc β}
    (hx : NoConfigError x) (hf : ∀ a, NoConfigError (f a)) : NoConfigError (x >>= f) := by
  cases x with
  | error e => exact fun e' h => hx e' (by rw [← Except.error.inj h])
  | ok a => exact hf a

lemma noConfigError_ofMicros (t : ℤ) (tz : Option ℤ) : NoConfigError (Datetime.ofMicros t tz) := by
  unfold Datetime.ofMicros
  split_ifs
  · exact .ok _
  · exact .raise (by decide)

lemma noConfigError_timedelta (seconds : ℤ) : NoConfigError (Datetime.timedelta seconds) := by
  unfold Datetime.timedelta
  split_ifs
  · exact .ok _
  · exact .raise (by decide)

lemma noConfigError_strptime (text : String) : NoConfigError (strptime text) := by
  unfold strptime
  split
  · exact .raise (by decide)
  · exact .raise (by decide)
  · split
    · unfold Datetime.mk?
      split
      · exact .raise (by decide)
      · dsimp only
        split_ifs
        · exact .raise (by decide)
        · exact .ok _
        · exact .raise (by decide)
    · exact .raise (by decide)

lemma noConfigError_ofStr (text : String) : NoConfigError (ObjectId.ofStr text) := by
  unfold ObjectId.ofStr
  split_ifs
  · split
    · exact .ok _
    · exact .raise (by decide)
  · exact .raise (by decide)

lemma noConfigError_fromDatetime (d : Datetime) : NoConfigError (ObjectId.fromDatetime d) := by
  unfold ObjectId.fromDatetime
  dsimp only
  split_ifs
  · exact .ok _
  · exact .raise (by decide)

lemma noConfigError_filterFor (stored : Option State.Watermark) :
    NoConfigError (filterFor cfg stored) := by
  have hid : ∀ cfg text, NoConfigError (objectIdBound cfg text) := fun cfg text =>
    (noConfigError_ofStr text).bind fun _ => (noConfigError_timedelta _).bind fun _ =>
      (noConfigError_ofMicros _ _).bind noConfigError_fromDatetime
  have hts : ∀ cfg text, NoConfigError (timestampBound cfg text) := fun cfg text =>
    (noConfigError_strptime text).bind fun _ => (noConfigError_timedelta _).bind fun _ =>
      noConfigError_ofMicros _ _
  unfold filterFor Strategy.buildFilter
  split
  · split
    · exact .ok _
    · exact (hid _ _).bind fun _ => .ok _
  · split
    · exact .ok _
    · exact (hts _ _).bind fun _ => .ok _
  · exact .ok _

/-! ### The kinds and the fields -/

/-- A filter that goes by a stored watermark constrains what the strategy tracks. -/
lemma constrains_filterFor {filter : Filter} (h : filterFor cfg (some wm) = .ok filter) :
    constrains filter = (makeStrategy cfg).tracks := by
  unfold filterFor Strategy.buildFilter at h
  generalize makeStrategy cfg = strategy at h ⊢
  cases strategy with
  | objectId =>
    obtain ⟨lb, -, h⟩ := bind_ok h
    obtain rfl := Except.ok.inj h
    rfl
  | timestamp =>
    obtain ⟨lb, -, h⟩ := bind_ok h
    obtain rfl := Except.ok.inj h
    rfl
  | fullRefresh =>
    obtain rfl := Except.ok.inj h
    rfl

lemma constrains_sent {filter : Filter} (h : sent cfg wm = some filter) :
    constrains filter = (makeStrategy cfg).tracks := by
  unfold sent at h
  split_ifs at h
  rcases hf : filterFor cfg (some wm) with e | f
  · rw [hf] at h
    cases h
  · rw [hf] at h
    obtain rfl := Option.some.inj h
    exact constrains_filterFor hf

/-- The stored watermark is of the kind of the field it was measured on. -/
def KindOfField (dbName name : String) (s : FieldState) : Prop :=
  ∀ wm, s.store.watermarks (nameSpace dbName name) = some wm →
    wm.kind = "objectid" ∧ s.measured = some "_id" ∨
      wm.kind = "timestamp" ∧ s.measured.isSome

lemma kindOfField_step {s' : FieldState} {e : FieldEvent} (h : KindOfField dbName name s)
    (hstep : FieldStep lib u dbName name s e s') : KindOfField dbName name s' := by
  cases hstep with
  | @run cfg env ctx hname =>
    have hran := extraction_cases lib cfg u dbName ⟨[], s.store, [], []⟩ env ctx
    unfold FieldState.run
    generalize extraction lib cfg u dbName env ctx s.store = out at hran ⊢
    rcases hran with ⟨-, hj⟩ | ⟨filter, -, hex⟩
    · rw [hj]
      exact h
    generalize out.1 = r at hex
    generalize out.2.journal = j at hex ⊢
    cases hex with
    | nothing => exact h
    | empty => exact h
    | uploaded => exact h
    | @committed _ _ strategy value hdry hrows hobs hwm =>
      intro wm hwm'
      simp only [replay_cons, replay_nil, apply, StateStore.setWatermark, namespaceOf_eq hname,
        if_true, Option.some.injEq] at hwm'
      subst hwm'
      rcases tracks_makeStrategy cfg with ⟨-, hkind, htracks⟩ | ⟨-, hkind, htracks, hsome⟩ |
        ⟨hmode, -, -⟩
      · exact .inl ⟨hkind, htracks⟩
      · exact .inr ⟨hkind, by rw [← htracks] at hsome; exact hsome⟩
      · rw [newWatermark_fullRefresh hmode hobs] at hwm
        cases hwm

lemma kindOfField {ok : FieldState → FieldEvent → Prop}
    (h : ((fieldRuns lib u dbName name).restrict ok).Reachable s) : KindOfField dbName name s := by
  refine h.of_restrict.invariant (fun s hs => ?_) fun s e s' _ hinv hstep => ?_
  swap
  · exact kindOfField_step (s := s) (e := e) hinv hstep
  intro wm hwm
  have hnone : s.store.watermarks (nameSpace dbName name) = none := hs
  rw [hnone] at hwm
  cases hwm

/-- **A stored watermark is applied to the field it was measured on, or refused**, in every run
whose steps keep the field while a timestamp is stored; and a run that does not keep it applies
the watermark to another field. -/
theorem watermark_field_kept
    (h : ((fieldRuns lib u dbName name).restrict (sameField dbName name)).Reachable s)
    (hname : cfg.name = name)
    (hget : env.fault (.getWatermark (nameSpace dbName name)) = none) :
    AppliesToMeasured lib u dbName name s cfg env ctx ↔
      sameField dbName name s (.run cfg env ctx) := by
  have hinv := kindOfField h
  rw [← namespaceOf_eq hname] at hget
  have hns : namespaceOf cfg dbName = nameSpace dbName name := namespaceOf_eq hname
  constructor
  · rintro happ wm hwm hkind hmode
    obtain ⟨hsent, hrefused⟩ := happ wm hwm
    rcases tracks_makeStrategy cfg with ⟨hm, -⟩ | ⟨-, hk, htracks, -⟩ | ⟨hm, -⟩
    · rw [hm] at hmode
      cases hmode
    swap
    · rw [hm] at hmode
      cases hmode
    by_contra hne
    rw [← htracks] at hne
    rcases hf : filterFor cfg (some wm) with e | filter
    · obtain ⟨⟨e', he', hcls⟩, -⟩ := hrefused (Ne.symm hne)
      rw [extraction_unbuilt hget (hns ▸ hwm) (hkind.trans hk.symm) hf] at he'
      obtain rfl := Except.error.inj he'
      exact noConfigError_filterFor _ _ hf hcls
    · have hsent' : sent cfg wm = some filter := by
        rw [sent, if_pos (hkind.trans hk.symm), hf]
        rfl
      exact hne ((constrains_filterFor hf).symm.trans (hsent filter hsent'))
  · intro hsame wm hwm
    have hfield : wm.kind = (makeStrategy cfg).kind → s.measured = (makeStrategy cfg).tracks := by
      intro hkind
      rcases tracks_makeStrategy cfg with ⟨-, hk, htracks⟩ | ⟨hm, hk, htracks, -⟩ | ⟨-, hk, -⟩ <;>
        rcases hinv wm hwm with ⟨hw, hmeasured⟩ | ⟨hw, -⟩ <;> rw [hk, hw] at hkind
      · rw [htracks, hmeasured]
      · exact absurd hkind (by decide)
      · exact absurd hkind (by decide)
      · rw [htracks, hsame wm hwm hw hm]
      · exact absurd hkind (by decide)
      · exact absurd hkind (by decide)
    refine ⟨fun filter hf => ?_, fun hne => ?_⟩
    · rw [constrains_sent hf]
      unfold sent at hf
      split_ifs at hf with hkind
      exact (hfield hkind).symm
    · exact extraction_mismatch hget (hns ▸ hwm) fun hkind => hne (hfield hkind)

/-! ### A collection that changes its field -/

/-- A mutable collection that goes by a field. -/
def goingBy (field : String) : CollectionConfig where
  name := "AS_Jobs"
  mode := .mutable
  watermarkField := some field
  field_of_mutable _ := rfl

lemma goingBy_valid {field : String} (h : field ≠ "") : ValidCollection (goingBy field) :=
  ⟨by simp [goingBy], fun _ he => h (Option.some.inj he),
    fun hc => absurd hc (show ¬ isChunks "AS_Jobs" by decide)⟩

/-- The first run went by the time of the last change. -/
def sampleStored : FieldState :=
  FieldState.run plainLibs sampleUploader "db" ⟨StateStore.empty, none⟩ (goingBy "dtModified")
    (calmReads [job 1 sampleNow] sampleNow) sampleCtx

lemma sampleStored_reachable :
    ((fieldRuns plainLibs sampleUploader "db" "AS_Jobs").restrict
      (sameField "db" "AS_Jobs")).Reachable sampleStored := by
  have hstart : ((fieldRuns plainLibs sampleUploader "db" "AS_Jobs").restrict
      (sameField "db" "AS_Jobs")).Reachable ⟨StateStore.empty, none⟩ :=
    .init (show _ = none from rfl)
  have hsame : sameField "db" "AS_Jobs" ⟨StateStore.empty, none⟩
      (.run (goingBy "dtModified") (calmReads [job 1 sampleNow] sampleNow) sampleCtx) := by
    rintro wm hwm
    cases hwm
  have hrun : FieldStep plainLibs sampleUploader "db" "AS_Jobs" ⟨StateStore.empty, none⟩
      (.run (goingBy "dtModified") (calmReads [job 1 sampleNow] sampleNow) sampleCtx)
      sampleStored :=
    .run rfl (goingBy_valid (by decide))
  exact .step hstart (And.intro hsame hrun)

theorem watermark_field_kept_sample :
    AppliesToMeasured plainLibs sampleUploader "db" "AS_Jobs" sampleStored (goingBy "dtModified")
      (calmReads [] sampleNow) sampleCtx :=
  (watermark_field_kept sampleStored_reachable rfl rfl).mpr fun _ _ _ _ => rfl

/-- Both configurations are accepted, and the second run asks for the jobs that were created
from the time on at which one was last changed. -/
theorem watermark_applied_elsewhere :
    (fieldRuns plainLibs sampleUploader "db" "AS_Jobs").Reachable sampleStored ∧
    ValidCollection (goingBy "dtCreated") ∧
    ∃ wm filter, sampleStored.store.watermarks (nameSpace "db" "AS_Jobs") = some wm ∧
      sent (goingBy "dtCreated") wm = some filter ∧
      sampleStored.measured = some "dtModified" ∧ constrains filter = some "dtCreated" := by
  have hsent : ((sampleStored.store.watermarks (nameSpace "db" "AS_Jobs")).bind
      (sent (goingBy "dtCreated"))).isSome := by decide +kernel
  obtain ⟨filter, hfilter⟩ := Option.isSome_iff_exists.mp hsent
  obtain ⟨wm, hwm, hfilter⟩ := Option.bind_eq_some_iff.mp hfilter
  refine ⟨sampleStored_reachable.of_restrict, goingBy_valid (by decide), wm, filter, hwm, hfilter,
    rfl, ?_⟩
  exact constrains_sent hfilter

end MongoSyncAgent.TrackedField
