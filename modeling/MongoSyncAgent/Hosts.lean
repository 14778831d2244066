import MongoSyncAgent.CollectionRuns
import MongoSyncAgent.LogRuns
import Mathlib.Logic.Function.Basic

/-!
Hosts that share a bucket.

Each host has its own files and its own state store, and at most one run going on. What a run
does to the store and to the bucket is done one effect at a time, in any order with what the
other hosts do. A PUT replaces what was under its key.

Which run an object is from, and which runs have committed, is kept beside the bucket.
-/

namespace MongoSyncAgent.Hosts

open MongoSyncAgent.Config MongoSyncAgent.State MongoSyncAgent.Runtime MongoSyncAgent.Outcomes
open MongoSyncAgent.Sinks MongoSyncAgent.Ship MongoSyncAgent.Sources MongoSyncAgent.Extract
open MongoSyncAgent.LogRuns MongoSyncAgent.CollectionRuns MongoSyncAgent.Systems
open MongoSyncAgent.Bson MongoSyncAgent.Keys

/-- The log sources of a host, by their names. -/
structure HostSources where
  config : String → LogSourceConfig
  name_config : ∀ name, (config name).name = name

/-- What a run is a run of. -/
inductive Job
  | ship (name : String) (gcDays : ℤ)
  | extract (cfg : CollectionConfig) (dbName : String)

structure Run (H : Type) where
  id : ℕ
  host : H
  job : Job
  env : Env
  ctx : RunContext
  /-- The state store and the files of the host when the run started. -/
  store : StateStore
  fs : FS

structure Object where
  content : Content
  run : ℕ

structure Cluster (H : Type) where
  fs : H → FS
  store : H → StateStore
  /-- The runs that are going on, and what is left of their journals. -/
  running : H → Option (Run H × List Effect)
  bucket : String → Option Object
  started : ℕ
  committed : List (Run H)

inductive ClusterEvent (H : Type)
  | files (h : H) (fs : FS)
  | start (h : H) (job : Job) (env : Env) (ctx : RunContext)
  | perform (h : H)
  /-- The run is over, or the host goes down. -/
  | stop (h : H)

/-- The effects that advance the state. -/
def commits : Effect → Bool
  | .setWatermark .. | .setOffsets .. => true
  | _ => false

variable {H : Type} (lib : Libs) (u : S3Uploader) (sources : H → HostSources)

/-- What a run does. -/
def Run.journal (r : Run H) : List Effect :=
  match r.job with
  | .ship name gcDays =>
    (shipRun lib ((sources r.host).config name) u r.env r.ctx gcDays r.store).journal
  | .extract cfg dbName => (extraction lib cfg u dbName r.env r.ctx r.store).2.journal

section Steps

variable [DecidableEq H]

namespace Cluster

/-- Nothing is stored or uploaded. -/
def empty (fs : H → FS) : Cluster H where
  fs := fs
  store _ := StateStore.empty
  running _ := none
  bucket _ := none
  started := 0
  committed := []

variable (s : Cluster H)

def newRun (h : H) (job : Job) (env : Env) (ctx : RunContext) : Run H :=
  ⟨s.started, h, job, env, ctx, s.store h, s.fs h⟩

def start (h : H) (job : Job) (env : Env) (ctx : RunContext) : Cluster H :=
  let r := s.newRun h job env ctx
  { s with
    running := Function.update s.running h (some (r, r.journal lib u sources))
    started := s.started + 1 }

def perform (h : H) (r : Run H) (e : Effect) (left : List Effect) : Cluster H :=
  { s with
    store := Function.update s.store h (apply (s.store h) e)
    running := Function.update s.running h (some (r, left))
    bucket :=
      match e with
      | .put p => Function.update s.bucket p.key (some ⟨p.content, r.id⟩)
      | _ => s.bucket
    committed := if commits e then r :: s.committed else s.committed }

end Cluster

inductive ClusterStep : Cluster H → ClusterEvent H → Cluster H → Prop
  | files {s h fs} : ClusterStep s (.files h fs) { s with fs := Function.update s.fs h fs }
  | start {s h job env ctx} (hidle : s.running h = none) :
    ClusterStep s (.start h job env ctx) (s.start lib u sources h job env ctx)
  | perform {s h r e left} (hrun : s.running h = some (r, e :: left)) :
    ClusterStep s (.perform h) (s.perform h r e left)
  | stop {s h} :
    ClusterStep s (.stop h) { s with running := Function.update s.running h none }

def clusters : System (Cluster H) (ClusterEvent H) where
  init s := s = .empty s.fs
  step := ClusterStep lib u sources

variable {lib u sources} {s : Cluster H} {h h' : H} {r r' : Run H} {left left' : List Effect}

lemma running_start {job : Job} {env : Env} {ctx : RunContext}
    (hrun : (s.start lib u sources h job env ctx).running h' = some (r, left)) :
    r = s.newRun h job env ctx ∧ left = r.journal lib u sources ∨
      s.running h' = some (r, left) := by
  by_cases hh : h' = h
  · subst hh
    simp only [Cluster.start, Function.update_self, Option.some.injEq, Prod.mk.injEq] at hrun
    obtain ⟨rfl, rfl⟩ := hrun
    exact .inl ⟨rfl, rfl⟩
  · simp only [Cluster.start, Function.update_of_ne hh] at hrun
    exact .inr hrun

lemma running_perform {e : Effect}
    (hrun : (s.perform h r e left).running h' = some (r', left')) :
    r' = r ∧ left' = left ∨ s.running h' = some (r', left') := by
  by_cases hh : h' = h
  · subst hh
    simp only [Cluster.perform, Function.update_self, Option.some.injEq, Prod.mk.injEq] at hrun
    exact .inl ⟨hrun.1.symm, hrun.2.symm⟩
  · simp only [Cluster.perform, Function.update_of_ne hh] at hrun
    exact .inr hrun

lemma running_stop (hrun : Function.update s.running h none h' = some (r, left)) :
    s.running h' = some (r, left) := by
  by_cases hh : h' = h
  · subst hh
    simp at hrun
  · rwa [Function.update_of_ne hh] at hrun

lemma mem_committed_perform {e : Effect} : r' ∈ (s.perform h r e left).committed ↔
    commits e ∧ r' = r ∨ r' ∈ s.committed := by
  simp only [Cluster.perform]
  split_ifs with hc <;> simp [hc]

end Steps

/-! ### The journal of a run -/

/-- A run uploads at most once, and commits at most once, after that. -/
inductive Shape : List Effect → Prop
  | nothing : Shape []
  | uploaded (p : Put) : Shape [.put p]
  | committed {p c rest} (hc : commits c) (hrest : ∀ e ∈ rest, ∃ source key,
    e = .deleteOffset source key) : Shape (.put p :: c :: rest)

lemma Shape.of_ship {env : Env} {source : LogSourceConfig} {ctx : RunContext} {parts : List Part}
    {j : List Effect} (h : ShipJournal env source u ctx parts j) : Shape j := by
  cases h with
  | nothing => exact .nothing
  | uploaded => exact .uploaded _
  | committed hne hdry hdel =>
    refine .committed rfl fun e he => ?_
    obtain ⟨key, rfl, -⟩ := hdel e he
    exact ⟨_, _, rfl⟩

lemma journal_ship {r : Run H} {name : String} {gcDays : ℤ} (hjob : r.job = .ship name gcDays) :
    r.journal lib u sources = [] ∨
      ShipJournal r.env ((sources r.host).config name) u r.ctx
        (collected lib ((sources r.host).config name) r.env r.store) (r.journal lib u sources) := by
  have hjournal : r.journal lib u sources =
      (shipRun lib ((sources r.host).config name) u r.env r.ctx gcDays r.store).journal := by
    rw [Run.journal, hjob]
  rw [hjournal]
  have hend : Wrote _ _ _ ∨ _ := @shipSource_ensures lib r.env ((sources r.host).config name)
    (World.start r.store) u r.ctx gcDays
  rcases hend with h | ⟨parts, j, hparts, hj, hship⟩
  · exact .inl h.2
  · right
    have hcollected : collected lib ((sources r.host).config name) r.env r.store = parts := by
      unfold collected
      rw [show r.store = (World.start r.store).store from rfl, hparts]
    have hj' : (shipRun lib ((sources r.host).config name) u r.env r.ctx gcDays r.store).journal =
        j := hj.2
    rw [hcollected, hj']
    exact hship

/-- The documents that a run gets from its cursor. -/
def docsOf (cfg : CollectionConfig) (dbName : String) (r : Run H) : List Doc :=
  (MongoState.mk [] r.store [] []).asked cfg dbName r.env

lemma journal_extract {r : Run H} {cfg : CollectionConfig} {dbName : String}
    (hjob : r.job = .extract cfg dbName) : r.journal lib u sources = [] ∨ ∃ res,
      Extracted lib r.env cfg u r.ctx dbName (docsOf cfg dbName r) res
        (r.journal lib u sources) := by
  have hjournal : r.journal lib u sources =
      (extraction lib cfg u dbName r.env r.ctx r.store).2.journal := by
    rw [Run.journal, hjob]
  rw [hjournal]
  rcases extraction_cases lib cfg u dbName (MongoState.mk [] r.store [] []) r.env r.ctx with
    ⟨-, hj⟩ | ⟨filter, hf, hex⟩
  · exact .inl hj
  · right
    have hdocs : docsOf cfg dbName r =
        r.env.find filter (Watermarks.makeStrategy cfg).sortSpec := by
      simp only [docsOf, MongoState.asked, hf]
    rw [hdocs]
    exact ⟨_, hex⟩

lemma journal_shape (r : Run H) : Shape (r.journal lib u sources) := by
  rcases hjob : r.job with ⟨name, gcDays⟩ | ⟨cfg, dbName⟩
  · rcases journal_ship lib u sources hjob with h | h
    · rw [h]
      exact .nothing
    · exact .of_ship u h
  · rcases journal_extract lib u sources hjob with h | ⟨res, h⟩
    · rw [h]
      exact .nothing
    · generalize r.journal lib u sources = j at h
      cases h with
      | nothing => exact .nothing
      | empty => exact .nothing
      | uploaded => exact .uploaded _
      | committed => exact .committed rfl fun e he => by cases he

lemma Shape.commit_second {done left : List Effect} {c : Effect} (hc : commits c)
    (h : Shape (done ++ c :: left)) :
    (∃ p, done = [.put p]) ∧ ∀ e ∈ left, ∃ source key, e = .deleteOffset source key := by
  generalize hj : done ++ c :: left = j at h
  have hmem : c ∈ j := by rw [← hj]; simp
  cases h with
  | nothing => cases hmem
  | uploaded q =>
    obtain rfl := List.mem_singleton.mp hmem
    cases hc
  | @committed q d rest hd hrest =>
    rcases done with _ | ⟨a, done⟩
    · obtain ⟨rfl, -⟩ := List.cons.inj hj
      cases hc
    rw [List.cons_append] at hj
    obtain ⟨rfl, htail⟩ := List.cons.inj hj
    clear hj
    rcases done with _ | ⟨b, done⟩
    · rw [List.nil_append] at htail
      obtain ⟨-, rfl⟩ := List.cons.inj htail
      exact ⟨⟨q, rfl⟩, hrest⟩
    · rw [List.cons_append] at htail
      obtain ⟨-, hdel⟩ := List.cons.inj htail
      obtain ⟨_, _, rfl⟩ := hrest c (by rw [← hdel]; simp)
      cases hc

/-! ### Objects that are kept -/

variable {lib u sources}

section Kept

variable [DecidableEq H]

/-- The run has committed, or it goes on and is still to commit. -/
def Lives (s : Cluster H) (run : ℕ) : Prop :=
  (∃ r ∈ s.committed, r.id = run) ∨
    ∃ h r left, s.running h = some (r, left) ∧ r.id = run ∧ left.any commits

/-- An upload only replaces the object of a run that has not committed and is not to. -/
def sparesObjects (s : Cluster H) : ClusterEvent H → Prop
  | .perform h => ∀ r p left, s.running h = some (r, .put p :: left) →
      ∀ o, s.bucket p.key = some o → ¬ Lives s o.run
  | _ => True

/-- The object of the run is under the key that it was uploaded under. -/
def Stands (s : Cluster H) (r : Run H) (p : Put) : Prop :=
  s.bucket p.key = some ⟨p.content, r.id⟩

variable (lib u sources) in
structure Kept (s : Cluster H) : Prop where
  committed : ∀ r ∈ s.committed, ∃ p, .put p ∈ r.journal lib u sources ∧ Stands s r p
  running : ∀ h r left, s.running h = some (r, left) → ∃ done,
    r.journal lib u sources = done ++ left ∧
      (left.any commits → ∀ p, .put p ∈ done → Stands s r p)

/-- A run that lives keeps its object, whatever another one uploads. -/
lemma Stands.perform {s : Cluster H} {h : H} {r r' : Run H} {e : Effect} {left : List Effect}
    {p : Put} (hrun : s.running h = some (r, e :: left)) (hok : sparesObjects s (.perform h))
    (hlives : Lives s r'.id) (hs : Stands s r' p) : Stands (s.perform h r e left) r' p := by
  cases e with
  | put q =>
    have hne : p.key ≠ q.key := by
      intro heq
      unfold Stands at hs
      rw [heq] at hs
      exact hok r q left hrun _ hs hlives
    unfold Stands Cluster.perform
    simp only [Function.update_of_ne hne]
    exact hs
  | setWatermark => exact hs
  | setOffsets => exact hs
  | deleteOffset => exact hs

lemma kept_perform {s : Cluster H} {h : H} {r : Run H} {e : Effect} {left : List Effect}
    (hk : Kept lib u sources s) (hrun : s.running h = some (r, e :: left))
    (hok : sparesObjects s (.perform h)) : Kept lib u sources (s.perform h r e left) := by
  obtain ⟨done, hjournal, hdone⟩ := hk.running h r _ hrun
  have hshape := journal_shape lib u sources r
  rw [hjournal] at hshape
  refine ⟨fun r' hr' => ?_, fun h' r' left' hrun' => ?_⟩
  · rcases mem_committed_perform.mp hr' with ⟨hc, rfl⟩ | hmem
    · -- the run has uploaded before it commits
      obtain ⟨⟨p, rfl⟩, -⟩ := hshape.commit_second hc
      have hs := hdone (by simp [hc]) p List.mem_cons_self
      refine ⟨p, by rw [hjournal]; simp, ?_⟩
      exact hs.perform hrun hok (.inr ⟨h, r', _, hrun, rfl, by simp [hc]⟩)
    · obtain ⟨p, hp, hs⟩ := hk.committed r' hmem
      exact ⟨p, hp, hs.perform hrun hok (.inl ⟨r', hmem, rfl⟩)⟩
  · rcases running_perform hrun' with ⟨rfl, rfl⟩ | hrun'
    · refine ⟨done ++ [e], by rw [hjournal]; simp, fun hc p hp => ?_⟩
      rcases List.mem_append.mp hp with hp | hp
      · have hc' : (e :: left').any commits := by simp [hc]
        exact (hdone hc' p hp).perform hrun hok (.inr ⟨h, r', _, hrun, rfl, hc'⟩)
      · obtain rfl := List.mem_singleton.mp hp
        simp [Stands, Cluster.perform]
    · obtain ⟨done', hjournal', hdone'⟩ := hk.running h' r' left' hrun'
      refine ⟨done', hjournal', fun hc p hp => ?_⟩
      exact (hdone' hc p hp).perform hrun hok (.inr ⟨h', r', _, hrun', rfl, hc⟩)

/-- **Objects are kept**, where uploads spare them: that of every run that has committed, and
that of every run that is still to commit. -/
theorem kept {s : Cluster H}
    (h : ((clusters lib u sources).restrict sparesObjects).Reachable s) :
    Kept lib u sources s := by
  refine h.invariant (fun s hs => ?_) fun s e s' _ hk hstep => ?_
  · rw [hs]
    exact ⟨fun r hr => (by cases hr), fun h r left hrun => by cases hrun⟩
  obtain ⟨hok, hstep⟩ := hstep
  cases hstep with
  | files => exact ⟨hk.committed, hk.running⟩
  | start =>
    refine ⟨hk.committed, fun h' r left hrun => ?_⟩
    rcases running_start hrun with ⟨-, rfl⟩ | hrun
    · exact ⟨[], rfl, fun _ p hp => by cases hp⟩
    · exact hk.running h' r left hrun
  | perform hrun => exact kept_perform hk hrun hok
  | stop => exact ⟨hk.committed, fun h' r left hrun => hk.running h' r left (running_stop hrun)⟩

end Kept

/-! ### What the objects hold -/

/-- The record is in an object. -/
def HasRecord (s : Cluster H) (rec : LogRecord) : Prop :=
  ∃ key o records, s.bucket key = some o ∧ o.content = .ndjson records ∧ rec ∈ records

/-- A row of the document is in an object. -/
def HasDoc (lib : Libs) (s : Cluster H) (doc : Doc) : Prop :=
  ∃ key o, s.bucket key = some o ∧ HasRow lib doc ⟨key, o.content⟩

variable {s : Cluster H} {r : Run H}

/-- What a committed run shipped is in the bucket. -/
lemma record_of_committed (hk : Kept lib u sources s) (hr : r ∈ s.committed) {name : String}
    {gcDays : ℤ} (hjob : r.job = .ship name gcDays) {rec : LogRecord}
    (hrec : rec ∈ recordsOf r.env ((sources r.host).config name) r.ctx
      (collected lib ((sources r.host).config name) r.env r.store)) : HasRecord s rec := by
  obtain ⟨p, hp, hs⟩ := hk.committed r hr
  rcases journal_ship lib u sources hjob with hj | hj
  · rw [hj] at hp
    cases hp
  have hput : p = ⟨logsKey u.pre ((sources r.host).config name).name r.ctx.runDt,
      .ndjson (recordsOf r.env ((sources r.host).config name) r.ctx
        (collected lib ((sources r.host).config name) r.env r.store))⟩ := by
    generalize r.journal lib u sources = j at hp hj
    cases hj with
    | nothing => cases hp
    | uploaded => exact Effect.put.inj (List.mem_singleton.mp hp)
    | committed hne hdry hdel =>
      rcases List.mem_cons.mp hp with hp | hp
      · exact Effect.put.inj hp
      · rcases List.mem_cons.mp hp with hp | hp
        · cases hp
        · obtain ⟨_, h, -⟩ := hdel _ hp
          cases h
  exact ⟨p.key, _, _, hs, by rw [hput], hrec⟩

/-- What a committed extraction read is in the bucket. -/
lemma doc_of_committed (hk : Kept lib u sources s) (hr : r ∈ s.committed)
    {cfg : CollectionConfig} {dbName : String} (hjob : r.job = .extract cfg dbName) {doc : Doc}
    (hdoc : doc ∈ docsOf cfg dbName r) : HasDoc lib s doc := by
  obtain ⟨p, hp, hs⟩ := hk.committed r hr
  refine ⟨p.key, _, hs, ?_⟩
  rcases journal_extract lib u sources hjob with hj | ⟨res, hj⟩
  · rw [hj] at hp
    cases hp
  generalize r.journal lib u sources = j at hp hj
  cases hj with
  | nothing => cases hp
  | empty => cases hp
  | uploaded hdry hrows =>
    obtain rfl := Effect.put.inj (List.mem_singleton.mp hp)
    exact hasRow_of_rowsOf hrows hdoc
  | committed hdry hrows =>
    rcases List.mem_cons.mp hp with hp | hp
    · obtain rfl := Effect.put.inj hp
      exact hasRow_of_rowsOf hrows hdoc
    · cases List.mem_singleton.mp hp

end MongoSyncAgent.Hosts
