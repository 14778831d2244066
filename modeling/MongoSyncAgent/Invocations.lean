import MongoSyncAgent.RunCycle

/-!
Invocations of the agent: a whole run, with its lock and its modules, up to a point at which the
process may be gone.
-/

namespace MongoSyncAgent.Invocations

open MongoSyncAgent.Py MongoSyncAgent.Config MongoSyncAgent.Runtime MongoSyncAgent.Outcomes
open MongoSyncAgent.Sinks MongoSyncAgent.State MongoSyncAgent.RunCycle
open MongoSyncAgent.Cycle hiding runCycle

/-- One start of the agent. -/
structure Invocation where
  env : Surroundings
  ctx : RunContext
  agent : AgentConfig
  out : Outside
  only : Option (List String)
  collection : Option String
  /-- The spool directory that it finds. -/
  spoolDir : Option (Option String)
  /-- How many lasting effects it comes to before the process is gone. -/
  lifetime : ℕ

/-- What lasts of an invocation. -/
def Invocation.journal (lib : Libs) (i : Invocation) (store : StateStore) : List Effect :=
  (exec (runCycle i.env lib i.ctx i.agent i.out i.only i.collection)
    (.start (World.start store) i.spoolDir)).2.world.journal.take i.lifetime

/-- What lasts is the beginning of what the run writes. -/
lemma Invocation.journal_of_wrote {lib : Libs} {i : Invocation} {store : StateStore}
    {j : List Effect} (h : Wrote (World.start store) (exec (runCycle i.env lib i.ctx i.agent i.out
      i.only i.collection) (.start (World.start store) i.spoolDir)).2.world j) :
    i.journal lib store = j.take i.lifetime := by
  unfold Invocation.journal
  rw [h.2]
  rfl

/-- It comes to its end, with an exit code. -/
structure Invocation.Exits (lib : Libs) (i : Invocation) (store : StateStore) (code : ℕ) :
    Prop where
  code : (exec (runCycle i.env lib i.ctx i.agent i.out i.only i.collection)
    (.start (World.start store) i.spoolDir)).1 = .ok code
  lives : (exec (runCycle i.env lib i.ctx i.agent i.out i.only i.collection)
    (.start (World.start store) i.spoolDir)).2.world.journal.length ≤ i.lifetime

/-! ### What its units do, a whole run does -/

section Within

variable {R : World → World → Prop} {env : Surroundings} {lib : Libs} {ctx : RunContext}
  {a : AgentConfig} {out : Outside} {only : Option (List String)} {collection : Option String}
  {α : Type}

/-- The units of a run stay within a relation. -/
structure AllWithin (R : World → World → Prop) (lib : Libs) (ctx : RunContext) (a : AgentConfig)
    (out : Outside) (only : Option (List String)) (collection : Option String) : Prop where
  collections : ∀ c ∈ collectionsOf a out only collection, Within R
    (Extract.extractCollection lib c.2 c.1 (S3Uploader.make a.s3.bucket a.s3.pre) ctx
      (databaseOf a))
  sources : ∀ x ∈ sourcesOf a out only, Within R
    (Ship.shipSource lib x.2 x.1 (S3Uploader.make a.s3.bucket a.s3.pre) ctx a.logs.gcDays)
  metrics : Within R
    (shipMetrics lib (S3Uploader.make a.s3.bucket a.s3.pre) ctx out.host out.metrics)

/-- The world has moved along `R`, whatever else the machine has done. -/
def OnWorld (R : World → World → Prop) (s s' : Machine) : Prop := R s.world s'.world

lemma onWorld_inWorld {body : M α} (h : Within R body) : Within (OnWorld R) (inWorld body) :=
  fun s => h s.world

variable [Std.Refl R]

instance reflOnWorld : Std.Refl (OnWorld R) := ⟨fun s => Std.Refl.refl s.world⟩

lemma onWorld_step (x : Step) : Within (OnWorld R) (step env x) := by
  unfold step
  split
  · exact within_throw _
  · exact within_pure ()

/-- A change to the spool directory, or to what is remembered of the lock. -/
lemma onWorld_modify {f : Machine → Machine} (h : ∀ s, (f s).world = s.world) :
    Within (OnWorld R) (modify f : Run Unit) := by
  intro s
  show R s.world (f s).world
  rw [h]
  exact Std.Refl.refl s.world

variable [IsTrans World R]

instance transOnWorld : IsTrans Machine (OnWorld R) where
  trans s₁ s₂ s₃ h h' := by
    have htrans : R s₁.world s₃.world := IsTrans.trans _ s₂.world _ h h'
    exact htrans

lemma onWorld_acquire : Within (OnWorld R) (acquire env) := by
  have hread : ∀ text, Within (OnWorld R) (readPid env text) := fun text =>
    .tryCatch (.bind (onWorld_step _) fun _ => within_pure _) fun _ =>
      .ite (within_pure _) (within_throw _)
  have hprobe : ∀ pid, Within (OnWorld R) (pidExists env pid) := by
    intro pid
    unfold pidExists
    split
    · exact within_pure _
    · exact within_throw _
  have hlive : Within (OnWorld R) (livePid env) := by
    refine .bind (onWorld_step _) fun _ => .bind within_get fun s => ?_
    split
    · exact within_pure _
    · refine .bind (hread _) fun named => ?_
      split
      · exact within_pure _
      · exact .bind (hprobe _) fun _ => within_pure _
  have hwrite : Within (OnWorld R) (writeLock env) := by
    refine .bind (onWorld_step _) fun _ => .bind within_get fun s => ?_
    have hrest : ∀ _ : PUnit, Within (OnWorld R) (do
        modify fun s => { s with spoolDir := some (some ""), wrote := true }
        step env .writeLock
        modify fun s => { s with spoolDir := some (some (toString env.getpid)) } : Run Unit) :=
      fun _ => .bind (onWorld_modify fun _ => rfl) fun _ => .bind (onWorld_step _) fun _ =>
        onWorld_modify fun _ => rfl
    exact .ite (.bind (within_throw _) hrest) (hrest ())
  refine .bind hlive fun named => ?_
  split
  · exact within_pure _
  · exact .bind hwrite fun _ => within_pure _

lemma onWorld_release : Within (OnWorld R) (release env) := by
  refine .bind (onWorld_modify fun _ => rfl) fun _ => .bind within_get fun s => ?_
  exact .ite (within_pure _) (.bind (onWorld_step _) fun _ => onWorld_modify fun _ => rfl)

lemma onWorld_sampled {module : String} {units : Run (List UnitResult)}
    (h : Within (OnWorld R) units) : Within (OnWorld R) (sampled env module units) :=
  .bind (onWorld_step _) fun _ => .bind (onWorld_step _) fun _ => h.bind fun _ =>
    .bind (onWorld_step _) fun _ => within_pure _

lemma within_mongoUnits_of {u : S3Uploader} (h : ∀ c ∈ collectionsOf a out only collection,
    Within R (Extract.extractCollection lib c.2 c.1 u ctx (databaseOf a))) :
    Within R (mongoUnits lib u ctx a out only collection) := by
  unfold mongoUnits
  unfold collectionsOf databaseOf at h
  by_cases hsel : selected only "mongo" ∧ a.mongoEnabled
  · rw [if_pos hsel]
    rcases hm : a.mongo with _ | mongo
    · exact within_pure []
    · rw [hm, if_pos ⟨hsel, rfl⟩] at h
      exact within_extractAll h
  · rw [if_neg hsel]
    exact within_pure []

lemma within_logUnits_of {u : S3Uploader} (h : ∀ x ∈ sourcesOf a out only,
    Within R (Ship.shipSource lib x.2 x.1 u ctx a.logs.gcDays)) :
    Within R (logUnits lib u ctx a out only) := by
  unfold logUnits
  unfold sourcesOf at h
  by_cases hsel : selected only "logs" ∧ a.logs.enabled
  · rw [if_pos hsel] at h ⊢
    exact .ite (within_shipUnits h) (within_pure _)
  · rw [if_neg hsel]
    exact within_pure []

variable (hR : ∀ host, AllWithin R lib { ctx with host } a out only collection)

include hR

lemma onWorld_modules (host : String) :
    Within (OnWorld R) (modules env lib { ctx with host } a out only collection) := by
  have hspool : Within (OnWorld R) (setupSpool env) :=
    .bind (onWorld_step _) fun _ => onWorld_modify fun _ => rfl
  refine .bind (onWorld_inWorld (within_raising _)) fun _ => .bind hspool fun _ =>
    .bind (onWorld_step _) fun _ => .bind (onWorld_step _) fun _ => .bind ?_ fun mongo =>
      .bind ?_ fun logs => .bind ?_ fun host => .bind (onWorld_step _) fun _ =>
        .bind (onWorld_inWorld (within_raising _)) fun _ => within_pure _
  · exact .ite (onWorld_sampled (onWorld_inWorld (within_mongoUnits_of (hR host).collections)))
      (within_pure _)
  · exact .ite (onWorld_sampled (onWorld_inWorld (within_logUnits_of (hR host).sources)))
      (within_pure _)
  · refine .ite (onWorld_sampled (.bind (onWorld_step _) fun _ => onWorld_inWorld ?_))
      (within_pure _)
    exact .ite (.bind (hR host).metrics fun _ => within_pure _) (within_pure _)

/-- **What its units do, a whole run does.** -/
theorem onWorld_runCycle :
    Within (OnWorld R) (runCycle env lib ctx a out only collection) := by
  have hguarded : ∀ host,
      Within (OnWorld R) (guarded env lib { ctx with host } a out only collection) := fun host =>
    .tryCatch (.bind (onWorld_modules hR host) fun _ => within_pure _)
      fun _ => .ite (within_pure _) (within_throw _)
  have hname : Within (OnWorld R) (hostName env a) :=
    .ite (.bind (onWorld_step _) fun _ => within_pure _) (within_pure _)
  refine .bind hname fun host => .bind onWorld_acquire fun held => ?_
  split
  · exact within_pure _
  · refine .bind (onWorld_step _) fun _ => .bind (onWorld_step _) fun _ =>
      .bind (onWorld_step _) fun _ => .bind (.tryCatch (hguarded host) fun e => ?_) fun _ =>
        .bind onWorld_release fun _ => within_pure _
    exact .bind onWorld_release fun _ => within_throw e

end Within

end MongoSyncAgent.Invocations
