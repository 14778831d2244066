import MongoSyncAgent.Independence
import MongoSyncAgent.SourceIsolation
import MongoSyncAgent.UnitKeys

/-!
A cycle is the sum of its units.

A unit of a cycle, whether a collection, a log source or the metrics of the host, reads and writes
the state store under its own key alone. So it ends as it does alone, whatever runs before it, and
the units of one cycle can be run by several cycles, in any order: one after the other, those
leave the same state store and the same uploads.
-/

namespace MongoSyncAgent.WholeCycle

open MongoSyncAgent.Config MongoSyncAgent.State MongoSyncAgent.Runtime MongoSyncAgent.Sinks
open MongoSyncAgent.Extract MongoSyncAgent.Ship MongoSyncAgent.Keys MongoSyncAgent.Outcomes
open MongoSyncAgent.Py MongoSyncAgent.SideBySide MongoSyncAgent.Exceptions MongoSyncAgent.Cycle
open MongoSyncAgent.Isolation MongoSyncAgent.SourceIsolation MongoSyncAgent.UnitKeys
open MongoSyncAgent.Independence

/-! ### Effects and their keys -/

/-- The stores hold the same under a key. -/
def Agree (key : Option StateKey) (s t : StateStore) : Prop :=
  match key with
  | none => True
  | some (.watermark ns) => s.watermarks ns = t.watermarks ns
  | some (.offsets source) => s.fileOffsets source = t.fileOffsets source

variable {key key' : Option StateKey} {s t : StateStore} {j k : List Effect}

lemma agree_refl : Agree key s s := by
  rcases key with _ | _ | _ <;> trivial

lemma Agree.symm (h : Agree key s t) : Agree key t s := by
  rcases key with _ | _ | _
  · trivial
  · exact Eq.symm h
  · exact Eq.symm h

lemma Agree.trans {r : StateStore} (h : Agree key s t) (h' : Agree key t r) : Agree key s r := by
  rcases key with _ | _ | _
  · trivial
  · exact Eq.trans h h'
  · exact Eq.trans h h'

lemma eq_of_agree (h : ∀ key, Agree key s t) : s = t := by
  obtain ⟨wms, os⟩ := s
  obtain ⟨wms', os'⟩ := t
  obtain rfl : wms = wms' := funext fun ns => h (some (.watermark ns))
  obtain rfl : os = os' := funext fun source => h (some (.offsets source))
  rfl

lemma agree_apply {e : Effect} (h : stateKeyOf e = none ∨ stateKeyOf e ≠ key) :
    Agree key (apply s e) s := by
  rcases key with _ | ns | source
  · trivial
  · cases e with
    | setWatermark ns' wm => exact if_neg fun heq => by simp [stateKeyOf, heq] at h
    | _ => rfl
  · cases e with
    | setOffsets source' offsets at_ => exact if_neg fun heq => by simp [stateKeyOf, heq] at h
    | deleteOffset source' fingerprint => exact if_neg fun heq => by simp [stateKeyOf, heq] at h
    | _ => rfl

/-- What is written under one key leaves what is stored under another. -/
lemma agree_replay (hj : Owned key j) (hne : key ≠ key') : Agree key' (replay s j) s := by
  induction j generalizing s with
  | nil => exact agree_refl
  | cons e j ih =>
    refine (ih fun e he => hj e (List.mem_cons_of_mem _ he)).trans (agree_apply ?_)
    exact (hj e List.mem_cons_self).imp_right fun h => by rw [h]; exact hne

/-- Stores that agree still agree after the same effects. -/
lemma Agree.replay (h : Agree key s t) : Agree key (replay s j) (replay t j) := by
  rcases key with _ | ns | source
  · trivial
  · exact replay_watermark_congr h j
  · exact replay_offsets_congr h j

/-- Journals under different keys commute. -/
lemma replay_comm (hj : Owned key j) (hk : Owned key' k) (hne : key ≠ key') :
    replay (replay s j) k = replay (replay s k) j := by
  refine eq_of_agree fun κ => ?_
  by_cases hκ : κ = key
  · subst hκ
    exact (agree_replay hk hne.symm).trans (agree_replay hk hne.symm).symm.replay
  · have hκ' : key ≠ κ := fun h => hκ h.symm
    exact (agree_replay hj hκ').replay.trans (agree_replay hj hκ').symm

/-! ### Units on their own -/

variable (lib : Libs) (ctx : RunContext)

/-- A unit of a cycle, with all that it meets. -/
inductive Task
  | collection (u : S3Uploader) (conn : Connection) (dbName : String)
    (c : CollectionConfig × Env)
  | source (u : S3Uploader) (gcDays : ℤ) (x : LogSourceConfig × Env)
  | host (u : S3Uploader) (env : Env) (records : List MetricRecord)

namespace Task

/-- What its module does for a unit alone. -/
def run : Task → M (List UnitResult)
  | .collection u conn dbName c => extractAll lib u ctx conn dbName [c]
  | .source u gcDays x => shipUnits lib u ctx gcDays [x]
  | .host u env records => do return [← shipMetrics lib u ctx env records]

def stateKey : Task → Option StateKey
  | .collection _ _ dbName c => some (.watermark (namespaceOf c.1 dbName))
  | .source _ _ x => some (.offsets x.1.name)
  | .host _ _ _ => none

/-- No call of the unit meets the end of the process. -/
def Ready : Task → Prop
  | .collection _ conn _ c => Usable conn ∧ Unkilled c.2
  | .source _ _ x => Unkilled x.2
  | .host _ env _ => Unkilled env

/-- A unit on its own, from a stored state. -/
def alone (s : StateStore) (x : Task) : Except Exc (List UnitResult) × World :=
  exec (x.run lib ctx) (World.start s)

end Task

variable {lib ctx} {u : S3Uploader} {conn : Connection} {dbName : String} {w : World} {x : Task}

lemma closingClient_calm (h : conn.close = none) (body : M (List UnitResult)) :
    closingClient conn body = body := by
  funext w
  show exec (closingClient conn body) w = exec body w
  unfold closingClient
  rw [h, exec_bind, exec_tryCatch]
  rcases hbody : exec body w with ⟨e | results, w'⟩ <;> rfl

variable (lib ctx) in
/-- **A unit depends only on what is stored under its key**, and only the metrics raise. -/
theorem same_run {s₀ t₀ : World} (hready : x.Ready) (h : Agree x.stateKey s₀.store t₀.store) :
    Same (x.run lib ctx) (x.run lib ctx) s₀ t₀ (fun _ => Along s₀ t₀)
      fun e s t => x.stateKey = none ∧ Failed s₀ t₀ e s t := by
  have hstart : Along s₀ t₀ s₀ t₀ := ⟨[], .nil, .nil⟩
  cases x with
  | collection u conn dbName c =>
    show Same (extractAll lib u ctx conn dbName [c]) (extractAll lib u ctx conn dbName [c]) _ _ _ _
    unfold extractAll
    rcases hc : conn.connect with e | _ | _
    · simp only [hready.1.connect e hc, if_true]
      exact same_pure hstart
    · exact same_pure hstart
    · simp only [closingClient_calm hready.1.close]
      have hunit := same_extractUnit lib u ctx hready.1 hready.2 h
      exact Same.bind (hunit.mono (fun _ _ _ h => h.2) fun _ _ _ h => h.elim) fun _ s t h =>
        same_pure h
  | source u gcDays x =>
    have hbody : Same (isolating x.1.name (shipSource lib x.2 x.1 u ctx gcDays))
        (isolating x.1.name (shipSource lib x.2 x.1 u ctx gcDays)) s₀ t₀ (fun _ => Along s₀ t₀)
        fun _ _ _ => False := by
      refine (same_shipSource hready h).tryCatch (fun _ _ _ h => h) fun e s t ⟨he, h⟩ => ?_
      rw [if_pos he]
      exact same_pure h
    exact Same.bind (hbody.mono (fun _ _ _ h => h) fun _ _ _ h => h.elim) fun _ s t h =>
      same_pure h
  | host u env records =>
    refine Same.bind ((same_shipMetrics hready).mono (fun _ _ _ h => h) fun e s t h => ⟨rfl, h⟩) ?_
    exact fun _ s t h => same_pure h

/-- **A unit ends as it does alone**, in any world that agrees under its key. -/
theorem run_alone (hready : x.Ready) (h : Agree x.stateKey w.store s) :
    Ensures (x.run lib ctx) w fun r w' =>
      r = (x.alone lib ctx s).1 ∧ Wrote w w' (x.alone lib ctx s).2.journal := by
  have hagree : Agree x.stateKey (World.start s).store w.store := h.symm
  obtain ⟨heq, hok, herr⟩ := (same_run lib ctx hready hagree).ends
  have halong : Along (World.start s) w (x.alone lib ctx s).2 (exec (x.run lib ctx) w).2 := by
    rcases hr : (x.alone lib ctx s).1 with e | r
    · exact (herr e hr).2.2
    · exact hok r hr
  obtain ⟨j, hj, hw⟩ := halong
  have hjournal : (x.alone lib ctx s).2.journal = j := hj.2
  refine ⟨heq.symm, ?_⟩
  rw [hjournal]
  exact hw

/-- Only the metrics raise. -/
lemma alone_ok (hready : x.Ready) (hkey : x.stateKey ≠ none) :
    ∃ results, (x.alone lib ctx s).1 = .ok results := by
  obtain ⟨-, -, herr⟩ := (same_run lib ctx hready (agree_refl (s := (World.start s).store))).ends
  rcases hr : (x.alone lib ctx s).1 with e | r
  · exact absurd (herr e hr).1 hkey
  · exact ⟨r, rfl⟩

/-- An exception of the metrics is one that the cycle catches. -/
lemma alone_caught (hready : x.Ready) {e : Exc} (h : (x.alone lib ctx s).1 = .error e) :
    e.isException = true := by
  obtain ⟨-, -, herr⟩ := (same_run lib ctx hready (agree_refl (s := (World.start s).store))).ends
  exact (herr e h).2.1

/-! ### What a unit writes -/

/-- What was written to the journal is under a key. -/
def Owning (key : Option StateKey) (w w' : World) : Prop := ∃ j, Wrote w w' j ∧ Owned key j

lemma owning_quiet {w' : World} (h : Wrote w w' []) : Owning key w w' :=
  ⟨[], h, owned_nil⟩

lemma owning_put {w' : World} {p : Put} (h : Wrote w w' [.put p]) : Owning key w w' :=
  ⟨_, h, owned_put⟩

instance reflOwning : Std.Refl (Owning key) := ⟨fun _ => owning_quiet .nil⟩

instance transOwning : IsTrans World (Owning key) where
  trans := by
    rintro a b c ⟨j, h, hj⟩ ⟨k, h', hk⟩
    exact ⟨j ++ k, h.trans h', hj.append hk⟩

lemma owning_of_quiet {α : Type} {m : M α} (h : Quiet m) : Within (Owning key) m :=
  fun w => (h w).mono fun _ _ h => owning_quiet h

lemma owning_extractCollection {env : Env} {cfg : CollectionConfig} :
    Within (Owning (some (.watermark (namespaceOf cfg dbName))))
      (extractCollection lib env cfg u ctx dbName) := by
  refine fun w => extractCollection_ensures.mono fun r w' h => ?_
  rcases h with ⟨-, hw⟩ | ⟨filter, j, -, hw, hex⟩
  · exact owning_quiet hw
  cases hex with
  | nothing => exact owning_quiet hw
  | empty => exact owning_quiet hw
  | uploaded => exact owning_put hw
  | committed => exact ⟨_, hw, owned_put.append (owned_singleton rfl)⟩

lemma owning_shipSource {env : Env} {source : LogSourceConfig} {gcDays : ℤ} :
    Within (Owning (some (.offsets source.name))) (shipSource lib env source u ctx gcDays) := by
  refine fun w => shipSource_ensures.mono fun r w' h => ?_
  rcases h with hw | ⟨parts, j, -, hw, hship⟩
  · exact owning_quiet hw
  cases hship with
  | nothing => exact owning_quiet hw
  | uploaded => exact owning_put hw
  | committed _ _ hdel =>
    exact ⟨_, hw, owned_put.append ((owned_singleton rfl).append (owned_deletions hdel))⟩

lemma owning_upload {env : Env} {path : Path} {s3Key : String} :
    Within (Owning key) (upload lib env u path s3Key) := by
  have hput : Within (Owning key) (putObject env path s3Key) := by
    refine .bind (owning_of_quiet (quiet_call _ _)) fun _ => .bind within_get fun w => ?_
    split
    · exact within_throw _
    · refine .bind (fun w => owning_put (p := _) ⟨rfl, rfl⟩) fun _ => ?_
      exact .bind (owning_of_quiet (quiet_call _ _)) fun _ => within_pure _
  refine .bind (owning_of_quiet (quiet_call _ _)) fun _ => .bind (.tryCatch ?_ fun e => ?_)
    fun _ => within_pure _
  · exact hput.bind fun _ => .bind (owning_of_quiet (quiet_call _ _)) fun _ => within_pure _
  · exact .ite (within_throw _) (within_throw _)

lemma owning_shipMetrics {env : Env} {records : List MetricRecord} :
    Within (Owning key) (shipMetrics lib u ctx env records) := by
  refine .ite (within_pure _) (.bind ?_ fun sink => .bind ?_ fun sink => .bind ?_ fun _ =>
    .ite ?_ ?_)
  · exact .bind (owning_of_quiet (quiet_call _ _)) fun _ =>
      .bind (owning_of_quiet (quiet_writeFile _ _)) fun _ => within_pure _
  · refine within_cleaningUp (.bind (owning_of_quiet (quiet_call _ _)) fun _ =>
      .bind within_get fun _ => ?_) (owning_of_quiet (quiet_abort _))
    exact .bind (owning_of_quiet (quiet_writeFile _ _)) fun _ => within_pure _
  · exact .bind (owning_of_quiet (quiet_call _ _)) fun _ => .bind within_get fun _ => within_pure _
  · exact .bind (owning_of_quiet (quiet_unlink _)) fun _ => within_pure _
  · refine .bind (.tryCatch (owning_upload.bind fun _ => within_pure _) fun e =>
      .ite (within_pure _) (within_throw _)) fun outcome => ?_
    split
    · exact .bind (owning_of_quiet (quiet_abort _)) fun _ => within_pure _
    · exact .bind (owning_of_quiet (quiet_unlink _)) fun _ => within_pure _

/-- **A unit writes under its own key.** -/
theorem owning_run : Within (Owning x.stateKey) (x.run lib ctx) := by
  cases x with
  | collection u conn dbName c =>
    refine within_extractAll fun d hd => ?_
    obtain rfl := List.mem_singleton.mp hd
    exact owning_extractCollection
  | source u gcDays x =>
    refine within_shipUnits fun d hd => ?_
    obtain rfl := List.mem_singleton.mp hd
    exact owning_shipSource
  | host u env records => exact .bind owning_shipMetrics fun _ => within_pure _

lemma alone_owned : Owned x.stateKey (x.alone lib ctx s).2.journal := by
  have hwithin : Ensures (x.run lib ctx) (World.start s) fun _ w =>
    Owning x.stateKey (World.start s) w := owning_run _
  obtain ⟨j, hw, hj⟩ := hwithin
  have hjournal : (x.alone lib ctx s).2.journal = j := hw.2
  rw [hjournal]
  exact hj

/-! ### The units of a cycle, one after the other -/

/-- The results of lists of units, each run on its own. -/
def eachOf (lib : Libs) (ctx : RunContext) (xs : List Task) : M (List UnitResult) := do
  return (← each (Task.run lib ctx) xs).flatten

lemma eachOf_append (xs ys : List Task) :
    eachOf lib ctx (xs ++ ys) = do return (← eachOf lib ctx xs) ++ (← eachOf lib ctx ys) := by
  simp [eachOf, each_append]

lemma extractUnits_each (cs : Collections) : extractUnits lib u ctx conn dbName cs = do
    return (← each (fun c => extractUnits lib u ctx conn dbName [c]) cs).flatten := by
  induction cs with
  | nil => simp [each, extractUnits]
  | cons c cs ih =>
    rw [extractUnits, ih]
    simp [each, extractUnits]

lemma extractAll_each (hconn : Usable conn) (cs : Collections) :
    extractAll lib u ctx conn dbName cs =
      eachOf lib ctx (cs.map (.collection u conn dbName)) := by
  have hsingle : ∀ text, (cs.map fun c => [failedUnit c.1.name text]).flatten =
      cs.map fun c => failedUnit c.1.name text := fun text => by
    induction cs with
    | nil => rfl
    | cons c cs ih => simp [ih]
  unfold eachOf
  rw [each_map]
  simp only [Task.run, extractAll]
  rcases hc : conn.connect with e | _ | _
  · simp [hconn.connect e hc, each_pure, hsingle]
  · simp [each_pure, hsingle]
  · simp only [closingClient_calm hconn.close]
    exact extractUnits_each cs

lemma shipUnits_each {gcDays : ℤ} (xs : LogSources) :
    shipUnits lib u ctx gcDays xs = eachOf lib ctx (xs.map (.source u gcDays)) := by
  unfold eachOf
  rw [each_map]
  simp only [Task.run]
  induction xs with
  | nil => simp [each, shipUnits]
  | cons x xs ih =>
    rw [shipUnits, ih]
    simp [each, shipUnits]

/-! ### Cycles -/

/-- A run of a cycle, with all that it meets. -/
structure CycleRun where
  agent : AgentConfig
  out : Outside
  only : Option (List String)
  collection : Option String

namespace CycleRun

variable (r : CycleRun)

def run (lib : Libs) (ctx : RunContext) : M Report :=
  runCycle lib ctx r.agent r.out r.only r.collection

/-- The collections and the log sources of a cycle. -/
def isolated : List Task :=
  (collectionsOf r.agent r.out r.only r.collection).map
      (.collection (uploaderOf r.agent) r.out.conn (databaseOf r.agent)) ++
    (sourcesOf r.agent r.out r.only).map (.source (uploaderOf r.agent) r.agent.logs.gcDays)

def metrics : List Task :=
  if selected r.only "hostmetrics" ∧ r.agent.hostmetrics.enabled then
    [.host (uploaderOf r.agent) r.out.host r.out.metrics]
  else []

def tasks : List Task := r.isolated ++ r.metrics

/-- Nothing fails that is not in a unit. -/
structure Calm : Prop where
  setup : r.out.setup = none
  conn : Usable r.out.conn
  record : r.out.record = none

end CycleRun

/-- What a unit returned, if it did. -/
def valuesOf (ends : List (Except Exc (List UnitResult))) : List UnitResult :=
  ends.flatMap fun end_ => end_.toOption.getD []

/-- The report of a cycle whose units end in these ways. -/
def reportOf (ends : List (Except Exc (List UnitResult))) : Report :=
  if ends.all Except.isOk then ⟨exitCode (valuesOf ends), some (valuesOf ends)⟩ else ⟨2, none⟩

variable {r : CycleRun}

lemma mongoUnits_each (hconn : Usable r.out.conn) :
    mongoUnits lib (uploaderOf r.agent) ctx r.agent r.out r.only r.collection =
      eachOf lib ctx ((collectionsOf r.agent r.out r.only r.collection).map
        (.collection (uploaderOf r.agent) r.out.conn (databaseOf r.agent))) := by
  rw [← extractAll_each hconn, mongoUnits, collectionsOf, databaseOf]
  have hnil : ∀ u dbName, extractAll lib u ctx r.out.conn dbName [] = pure [] := fun u dbName => by
    rw [extractAll_each hconn]
    rfl
  by_cases hsel : selected r.only "mongo" ∧ r.agent.mongoEnabled
  · rw [if_pos hsel]
    rcases hm : r.agent.mongo with _ | mongo
    · simp [hnil]
    · simp [hsel]
  · rw [if_neg hsel, if_neg fun h => hsel h.1, hnil]

lemma logUnits_each : logUnits lib u ctx r.agent r.out r.only =
    eachOf lib ctx ((sourcesOf r.agent r.out r.only).map (.source u r.agent.logs.gcDays)) := by
  rw [← shipUnits_each]
  unfold logUnits shipAll sourcesOf
  split_ifs with hsel hon
  · rfl
  · exact absurd hsel.2 hon
  · rfl

lemma hostUnits_each : hostUnits lib (uploaderOf r.agent) ctx r.agent r.out r.only =
    eachOf lib ctx r.metrics := by
  unfold hostUnits eachOf CycleRun.metrics
  split_ifs
  · simp [each, Task.run]
  · simp [each]

/-- **A cycle is its units**, one after the other. -/
theorem run_each (h : r.Calm) : r.run lib ctx = tryCatch (do
      let units ← eachOf lib ctx r.tasks
      return ⟨exitCode units, some units⟩)
    fun e => if e.isException then return ⟨2, none⟩ else throw e := by
  unfold CycleRun.run runCycle CycleRun.tasks CycleRun.isolated
  rw [h.setup, h.record, eachOf_append, eachOf_append, ← mongoUnits_each h.conn, ← logUnits_each,
    ← hostUnits_each]
  simp [raising]

/-! ### Each unit ends in its own way -/

/-- How the units of a list end alone, from a stored state. -/
def endsOf (lib : Libs) (ctx : RunContext) (s : StateStore) (xs : List Task) :
    List (Except Exc (List UnitResult)) :=
  xs.map fun x => (x.alone lib ctx s).1

/-- What the units of a list write alone, from a stored state. -/
def journalOf (lib : Libs) (ctx : RunContext) (s : StateStore) (xs : List Task) : List Effect :=
  xs.flatMap fun x => (x.alone lib ctx s).2.journal

/-- The units have keys of their own, and a world has what is stored under each. -/
structure Prepared (s : StateStore) (w : World) (xs : List Task) : Prop where
  ready : ∀ x ∈ xs, x.Ready
  keys : (xs.map Task.stateKey).Nodup
  agree : ∀ x ∈ xs, Agree x.stateKey w.store s

lemma journaled_wrote : Journaled Wrote where
  refl _ := .nil
  trans h h' := h.trans h'

/-- What a unit writes leaves what is stored under another key. -/
lemma agree_wrote {y : Task} {w' : World} (hne : x.stateKey ≠ y.stateKey)
    (h : Wrote w w' (x.alone lib ctx s).2.journal) (hagree : Agree y.stateKey w.store s) :
    Agree y.stateKey w'.store s := by
  rw [h.store]
  exact (agree_replay alone_owned hne).trans hagree

variable (lib ctx) in
/-- Units that raise nothing. -/
lemma eachOf_ensures {xs : List Task} (h : Prepared s w xs)
    (hkeys : ∀ x ∈ xs, x.stateKey ≠ none) :
    Ensures (eachOf lib ctx xs) w fun r w' =>
      r = .ok (valuesOf (endsOf lib ctx s xs)) ∧ (endsOf lib ctx s xs).all Except.isOk = true ∧
        Wrote w w' (journalOf lib ctx s xs) := by
  have hok : ∀ x ∈ xs, (x.alone lib ctx s).1 =
      .ok ((x.alone lib ctx s).1.toOption.getD []) := fun x hx => by
    obtain ⟨results, hr⟩ := alone_ok (s := s) (h.ready x hx) (hkeys x hx)
    rw [hr]
    rfl
  have hall := ensures_each (m := Task.run lib ctx) (s := w) journaled_wrote
    (P := fun x w => Agree x.stateKey w.store s)
    (a := fun x => (x.alone lib ctx s).1.toOption.getD [])
    (J := fun x => (x.alone lib ctx s).2.journal)
    (fun x hx w hagree => (run_alone (h.ready x hx) hagree).mono
      fun r w' hr => ⟨hr.1.trans (hok x hx), hr.2⟩)
    (pairwise_of_keys h.keys fun x _ y _ hne w w' hw hagree => agree_wrote hne hw hagree) h.agree
  refine Ensures.bind hall (fun e w' h => by cases h.1) fun rss w' ⟨hrss, hw⟩ => ?_
  obtain rfl := Except.ok.inj hrss
  refine ⟨?_, ?_, hw⟩
  · simp [valuesOf, endsOf, List.flatMap]
    rfl
  · simp only [endsOf, List.all_map, List.all_eq_true]
    intro x hx
    rw [Function.comp, hok x hx]
    rfl

lemma isolated_stateKey : ∀ x ∈ r.isolated, x.stateKey ≠ none := by
  intro x hx h
  rcases List.mem_append.mp hx with hx | hx <;> obtain ⟨y, -, rfl⟩ := List.mem_map.mp hx <;> cases h

lemma metrics_cases : r.metrics = [] ∨ ∃ x, r.metrics = [x] ∧ x.stateKey = none := by
  unfold CycleRun.metrics
  split_ifs
  · exact .inr ⟨_, rfl, rfl⟩
  · exact .inl rfl

lemma agree_metrics (h : x ∈ r.metrics) : Agree x.stateKey s t := by
  rcases metrics_cases (r := r) with hnone | ⟨y, hy, hkey⟩
  · rw [hnone] at h
    cases h
  · rw [hy] at h
    rw [List.mem_singleton.mp h, hkey]
    trivial

lemma Prepared.left {xs ys : List Task} (h : Prepared s w (xs ++ ys)) : Prepared s w xs where
  ready x hx := h.ready x (List.mem_append_left _ hx)
  keys := by
    have := h.keys
    rw [List.map_append] at this
    exact this.of_append_left
  agree x hx := h.agree x (List.mem_append_left _ hx)

/-- What the units of a cycle come to: their results, unless one of them raised. -/
def Comes (ends : List (Except Exc (List UnitResult))) : Except Exc (List UnitResult) → Prop :=
  Asks (fun units => ends.all Except.isOk = true ∧ units = valuesOf ends)
    fun e => ends.all Except.isOk = false ∧ e.isException = true

variable (lib ctx) in
/-- The metrics of the host, if there are any, end as they do alone. -/
lemma eachOf_metrics (h : ∀ x ∈ r.metrics, x.Ready) :
    Ensures (eachOf lib ctx r.metrics) w fun end_ w' =>
      Comes (endsOf lib ctx s r.metrics) end_ ∧ Wrote w w' (journalOf lib ctx s r.metrics) := by
  rcases metrics_cases (r := r) with hnone | ⟨x, hx, -⟩
  · rw [hnone]
    exact ⟨⟨rfl, rfl⟩, .nil⟩
  have hagree : Agree x.stateKey w.store s := agree_metrics (by rw [hx]; exact List.mem_cons_self)
  rw [hx] at h ⊢
  have hready := h x List.mem_cons_self
  have hends : endsOf lib ctx s [x] = [(x.alone lib ctx s).1] := rfl
  have hjournal : journalOf lib ctx s [x] = (x.alone lib ctx s).2.journal := List.append_nil _
  rw [hends, hjournal]
  unfold eachOf each
  refine Ensures.bind (P := fun end_ w' => Comes [(x.alone lib ctx s).1]
      (end_.map List.flatten) ∧ Wrote w w' (x.alone lib ctx s).2.journal) ?_
    (fun e w' h => h) fun units w' h => h
  refine Ensures.bind (run_alone hready hagree) (fun e w' h => ?_) fun units w' h => ?_
  · refine ⟨⟨?_, alone_caught hready h.1.symm⟩, h.2⟩
    rw [← h.1]
    rfl
  · refine ⟨?_, h.2⟩
    rw [← h.1]
    exact ⟨rfl, rfl⟩

lemma valuesOf_append (a b : List (Except Exc (List UnitResult))) :
    valuesOf (a ++ b) = valuesOf a ++ valuesOf b := List.flatMap_append

variable (lib ctx) in
/-- **A cycle comes to what its units come to alone**, from any world that has what is stored under
their keys. -/
theorem run_ensures (hcalm : r.Calm) (h : Prepared s w r.tasks) :
    Ensures (r.run lib ctx) w fun end_ w' =>
      end_ = .ok (reportOf (endsOf lib ctx s r.tasks)) ∧
        Wrote w w' (journalOf lib ctx s r.tasks) := by
  have hiso := eachOf_ensures lib ctx h.left isolated_stateKey
  have hunits : Ensures (eachOf lib ctx r.tasks) w fun end_ w' =>
      Comes (endsOf lib ctx s r.tasks) end_ ∧ Wrote w w' (journalOf lib ctx s r.tasks) := by
    have hends : endsOf lib ctx s r.tasks =
        endsOf lib ctx s r.isolated ++ endsOf lib ctx s r.metrics := List.map_append
    have hjournal : journalOf lib ctx s r.tasks =
        journalOf lib ctx s r.isolated ++ journalOf lib ctx s r.metrics := List.flatMap_append
    rw [CycleRun.tasks, eachOf_append, ← CycleRun.tasks, hends, hjournal]
    refine Ensures.bind hiso (fun e w₁ h₁ => by cases h₁.1) fun units w₁ ⟨hval, hall, hw⟩ => ?_
    obtain rfl := Except.ok.inj hval
    have hmetrics := eachOf_metrics lib ctx (s := s) (w := w₁)
      fun x hx => h.ready x (List.mem_append_right _ hx)
    refine Ensures.bind hmetrics (fun e w₂ h₂ => ?_) fun units w₂ h₂ => ?_
    · refine ⟨⟨?_, h₂.1.2⟩, hw.trans h₂.2⟩
      rw [List.all_append, h₂.1.1, Bool.and_false]
    · refine ⟨⟨?_, ?_⟩, hw.trans h₂.2⟩
      · rw [List.all_append, hall, h₂.1.1, Bool.and_true]
      · rw [valuesOf_append, h₂.1.2]
  rw [run_each hcalm, ensures_tryCatch]
  refine Ensures.bind hunits (fun e w' h' => ?_) fun units w' h' => ?_
  · simp only [h'.1.2, if_true]
    refine ⟨?_, h'.2⟩
    rw [reportOf, if_neg (by simp [h'.1.1])]
    rfl
  · refine ⟨?_, h'.2⟩
    rw [reportOf, if_pos h'.1.1, h'.1.2]

/-! ### Several cycles -/

/-- The units of several cycles. -/
def tasksOf (parts : List CycleRun) : List Task := parts.flatMap CycleRun.tasks

/-- Cycles one after the other. -/
def runAll (lib : Libs) (ctx : RunContext) (parts : List CycleRun) : M (List Report) :=
  each (fun r => r.run lib ctx) parts

lemma agree_journalOf {xs : List Task} {y : Task} (h : ∀ x ∈ xs, x.stateKey ≠ y.stateKey)
    (s t : StateStore) : Agree y.stateKey (replay t (journalOf lib ctx s xs)) t := by
  induction xs generalizing t with
  | nil => exact agree_refl
  | cons x xs ih =>
    have hcons : journalOf lib ctx s (x :: xs) =
        (x.alone lib ctx s).2.journal ++ journalOf lib ctx s xs := List.flatMap_cons
    rw [hcons, replay_append]
    refine (ih (fun x hx => h x (List.mem_cons_of_mem _ hx)) _).trans ?_
    exact agree_replay alone_owned (h x List.mem_cons_self)

variable (lib ctx) in
/-- **Several cycles**, whose units have keys of their own, come to what their units come to
alone. -/
theorem runAll_ensures {parts : List CycleRun} (hcalm : ∀ r ∈ parts, r.Calm)
    (hready : ∀ x ∈ tasksOf parts, x.Ready) (hkeys : ((tasksOf parts).map Task.stateKey).Nodup) :
    Ensures (runAll lib ctx parts) w fun end_ w' =>
      end_ = .ok (parts.map fun r => reportOf (endsOf lib ctx w.store r.tasks)) ∧
        Wrote w w' (parts.flatMap fun r => journalOf lib ctx w.store r.tasks) := by
  rw [tasksOf, List.map_flatMap, List.nodup_flatMap] at hkeys
  refine ensures_each (P := fun r w' => ∀ x ∈ r.tasks, Agree x.stateKey w'.store w.store)
    journaled_wrote (fun r hr w' hagree => ?_) ?_ fun r _ x _ => agree_refl
  · refine run_ensures lib ctx (hcalm r hr) ⟨fun x hx => ?_, hkeys.1 r hr, hagree⟩
    exact hready x (List.mem_flatMap.mpr ⟨r, hr, hx⟩)
  · refine hkeys.2.imp fun {r p} hdisj w₁ w₂ hw hagree y hy => ?_
    rw [hw.store]
    refine (agree_journalOf (fun x hx heq => ?_) _ _).trans (hagree y hy)
    exact hdisj (List.mem_map_of_mem hx) (heq ▸ List.mem_map_of_mem hy)

/-- Units with keys of their own leave the same store in any order. -/
lemma replay_perm {xs ys : List Task} (hperm : xs.Perm ys) (hkeys : (xs.map Task.stateKey).Nodup)
    (s : StateStore) :
    replay s (journalOf lib ctx s xs) = replay s (journalOf lib ctx s ys) := by
  have hfold : ∀ (zs : List Task) (t : StateStore), replay t (journalOf lib ctx s zs) =
      zs.foldl (fun t x => replay t (x.alone lib ctx s).2.journal) t := by
    intro zs
    induction zs with
    | nil => exact fun t => rfl
    | cons x zs ih =>
      intro t
      rw [List.foldl_cons, ← ih, ← replay_append]
      rfl
  rw [hfold, hfold]
  exact foldl_perm hperm hkeys (fun x y hne t => replay_comm alone_owned alone_owned hne) s

/-! ### Reports -/

lemma exitCode_append (a b : List UnitResult) :
    exitCode (a ++ b) = max (exitCode a) (exitCode b) := by
  unfold exitCode
  rw [List.any_append]
  rcases a.any (·.status = .failed) <;> rcases b.any (·.status = .failed) <;> rfl

lemma exitCode_le (a : List UnitResult) : exitCode a ≤ 1 := by
  unfold exitCode
  split_ifs <;> omega

lemma reportOf_append (a b : List (Except Exc (List UnitResult))) :
    (reportOf (a ++ b)).exitCode = max (reportOf a).exitCode (reportOf b).exitCode := by
  have ha := exitCode_le (valuesOf a)
  have hb := exitCode_le (valuesOf b)
  unfold reportOf
  rw [List.all_append, valuesOf_append, exitCode_append]
  rcases a.all Except.isOk <;> rcases b.all Except.isOk <;> simp <;> omega

lemma reportOf_flatMap (parts : List CycleRun) (s : StateStore) :
    (reportOf (endsOf lib ctx s (tasksOf parts))).exitCode =
      (parts.map fun r => (reportOf (endsOf lib ctx s r.tasks)).exitCode).foldr max 0 := by
  induction parts with
  | nil => rfl
  | cons r parts ih =>
    have hcons : endsOf lib ctx s (tasksOf (r :: parts)) =
        endsOf lib ctx s r.tasks ++ endsOf lib ctx s (tasksOf parts) := List.map_append
    rw [hcons, reportOf_append, ih]
    rfl

lemma valuesOf_tasksOf (parts : List CycleRun) (s : StateStore) :
    valuesOf (endsOf lib ctx s (tasksOf parts)) =
      parts.flatMap fun r => valuesOf (endsOf lib ctx s r.tasks) := by
  unfold valuesOf endsOf tasksOf
  rw [List.map_flatMap, List.flatMap_assoc]

lemma reportOf_perm {a b : List (Except Exc (List UnitResult))} (h : a.Perm b) :
    (reportOf a).exitCode = (reportOf b).exitCode ∧ a.all Except.isOk = b.all Except.isOk ∧
      (valuesOf a).Perm (valuesOf b) := by
  have hall : a.all Except.isOk = b.all Except.isOk := h.all_eq
  have hvalues : (valuesOf a).Perm (valuesOf b) := h.flatMap_right _
  have hcode : exitCode (valuesOf a) = exitCode (valuesOf b) := by
    unfold exitCode
    rw [hvalues.any_eq]
  refine ⟨?_, hall, hvalues⟩
  unfold reportOf
  rw [hall, hcode]
  split_ifs <;> rfl

/-! ### Regrouping -/

/-- **The units of a cycle can be run by several cycles**, in any order. From one world, those leave
the same state store and the same uploads, their reports together list the same results, and the
greatest of their exit codes is that of the cycle. -/
theorem cycles_regroup {full : CycleRun} {parts : List CycleRun} (hfull : full.Calm)
    (hparts : ∀ r ∈ parts, r.Calm) (hready : ∀ x ∈ full.tasks, x.Ready)
    (hkeys : (full.tasks.map Task.stateKey).Nodup) (hperm : (tasksOf parts).Perm full.tasks)
    (w : World) :
    ∃ report w₁ reports w₂, exec (full.run lib ctx) w = (.ok report, w₁) ∧
      exec (runAll lib ctx parts) w = (.ok reports, w₂) ∧
      w₁.store = w₂.store ∧ (puts w₁.journal).Perm (puts w₂.journal) ∧
      report.exitCode = (reports.map (·.exitCode)).foldr max 0 ∧
      ∀ units, report.units = some units →
        units.Perm (reports.flatMap fun report => report.units.getD []) := by
  have hone := run_ensures lib ctx hfull
    ⟨hready, hkeys, fun x _ => agree_refl (s := w.store)⟩
  have hall := runAll_ensures lib ctx (w := w) hparts
    (fun x hx => hready x (hperm.mem_iff.mp hx)) ((hperm.map _).nodup_iff.mpr hkeys)
  have hends : (endsOf lib ctx w.store full.tasks).Perm (endsOf lib ctx w.store (tasksOf parts)) :=
    (hperm.map _).symm
  obtain ⟨hcode, hok, hvalues⟩ := reportOf_perm hends
  have hjournal : (parts.flatMap fun r => journalOf lib ctx w.store r.tasks) =
      journalOf lib ctx w.store (tasksOf parts) := List.flatMap_assoc.symm
  rw [hjournal] at hall
  refine ⟨_, _, _, _, Prod.ext hone.1 rfl, Prod.ext hall.1 rfl, ?_, ?_, ?_, fun units hunits => ?_⟩
  · rw [hone.2.store, hall.2.store]
    exact replay_perm hperm.symm hkeys w.store
  · rw [hone.2.2, hall.2.2]
    exact ((hperm.symm.flatMap_right _).append_left _).filterMap _
  · rw [hcode, reportOf_flatMap, List.map_map]
    rfl
  · -- no unit raised, in either order
    unfold reportOf at hunits
    split_ifs at hunits with h
    obtain rfl := Option.some.inj hunits
    have hparts_ok : ∀ r ∈ parts, (endsOf lib ctx w.store r.tasks).all Except.isOk = true := by
      rw [hok, List.all_eq_true] at h
      refine fun r hr => List.all_eq_true.mpr fun end_ hend => h end_ ?_
      obtain ⟨x, hx, rfl⟩ := List.mem_map.mp hend
      exact List.mem_map_of_mem (List.mem_flatMap.mpr ⟨r, hr, hx⟩)
    have hunits : ∀ r ∈ parts, (reportOf (endsOf lib ctx w.store r.tasks)).units.getD [] =
        valuesOf (endsOf lib ctx w.store r.tasks) := fun r hr => by
      rw [reportOf, if_pos (hparts_ok r hr), Option.getD_some]
    rw [List.flatMap_map, List.flatMap_congr hunits, ← valuesOf_tasksOf]
    exact hvalues

/-- Three cycles for one: the metrics first, then the logs, then the collections. -/
def sampleRun (only : Option (List String)) : CycleRun where
  agent := { sampleAgent ["AS_Jobs", "AS_Users"] with
    logs := { sources := [{ name := "web", pathGlob := "*.log" }] }
    hostmetrics := { enabled := true } }
  out := { sampleOutside with
    source := fun _ => calmEnv (AList.singleton "a.log" ⟨[97, 10], 0, true⟩) sampleNow
    metrics := [⟨[("cpu_pct", "1.5")]⟩] }
  only := only
  collection := none

def sampleParts : List CycleRun :=
  [sampleRun (some ["hostmetrics"]), sampleRun (some ["logs"]), sampleRun (some ["mongo"])]

lemma sampleRun_calm (only : Option (List String)) : (sampleRun only).Calm :=
  ⟨rfl, ⟨fun _ h => (by cases h), fun _ _ h => (by cases h), rfl⟩, rfl⟩

lemma sampleRun_ready : ∀ x ∈ (sampleRun none).tasks, x.Ready := by
  intro x hx
  rcases List.mem_append.mp hx with hx | hx
  · rcases List.mem_append.mp hx with hx | hx
    · obtain ⟨c, hc, rfl⟩ := List.mem_map.mp hx
      obtain ⟨d, -, rfl⟩ := List.mem_map.mp hc
      exact ⟨(sampleRun_calm none).conn, fun _ _ h => by cases h⟩
    · obtain ⟨c, hc, rfl⟩ := List.mem_map.mp hx
      obtain ⟨d, -, rfl⟩ := List.mem_map.mp hc
      exact fun _ _ h => by cases h
  · obtain rfl := List.mem_singleton.mp hx
    exact fun _ _ h => by cases h

theorem cycles_regroup_sample : ∃ report w₁ reports w₂,
    exec ((sampleRun none).run plainLibs sampleCtx) (World.start .empty) = (.ok report, w₁) ∧
    exec (runAll plainLibs sampleCtx sampleParts) (World.start .empty) = (.ok reports, w₂) ∧
    (reports.map fun report => (report.units.getD []).map (·.unit)) =
      [["hostmetrics"], ["web"], ["AS_Jobs", "AS_Users"]] ∧
    w₁.journal.length = 7 ∧ w₁.store = w₂.store ∧ (puts w₁.journal).Perm (puts w₂.journal) := by
  have hone : (exec ((sampleRun none).run plainLibs sampleCtx)
      (World.start .empty)).2.journal.length = 7 := by decide +kernel
  have hall : (exec (runAll plainLibs sampleCtx sampleParts) (World.start .empty)).1.toOption.map
      (·.map fun report => (report.units.getD []).map (·.unit)) =
        some [["hostmetrics"], ["web"], ["AS_Jobs", "AS_Users"]] := by decide +kernel
  have hparts : ∀ r ∈ sampleParts, r.Calm := by
    simp only [sampleParts, List.mem_cons, List.not_mem_nil, or_false]
    rintro r (rfl | rfl | rfl) <;> exact sampleRun_calm _
  have hswap : ∀ a b c : List Task, (c ++ (b ++ a)).Perm (a ++ b ++ c) := fun a b c =>
    List.perm_append_comm.trans (List.perm_append_comm.append_right c)
  have hperm : (tasksOf sampleParts).Perm (sampleRun none).tasks := hswap [_, _] [_] [_]
  obtain ⟨report, w₁, reports, w₂, h₁, h₂, hstore, hputs, -⟩ := cycles_regroup
    (sampleRun_calm none) hparts sampleRun_ready (by decide) hperm (World.start .empty)
  rw [h₁] at hone
  rw [h₂] at hall
  exact ⟨report, w₁, reports, w₂, h₁, h₂, Option.some.inj hall, hone, hstore, hputs⟩

end MongoSyncAgent.WholeCycle
