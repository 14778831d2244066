import MongoSyncAgent.DryRun
import MongoSyncAgent.RunCycle

/-!
The exit code of a cycle: what it promises, and when the promise is kept.
-/

namespace MongoSyncAgent.ExitCodes

open MongoSyncAgent.Py MongoSyncAgent.Config MongoSyncAgent.Runtime MongoSyncAgent.Outcomes
open MongoSyncAgent.Sinks MongoSyncAgent.Exceptions MongoSyncAgent.DryRun MongoSyncAgent.RunCycle
open MongoSyncAgent.Cycle hiding runCycle

variable (env : Surroundings) (lib : Libs) (ctx : RunContext) (a : AgentConfig) (out : Outside)
  (only : Option (List String)) (collection : Option String)

/-! ### The contract -/

/-- The lock file names another instance. -/
def HeldByOther (s : Machine) : Prop :=
  ∃ pid, namedPid env s = some pid ∧ env.otherInstance pid = true

/-- How the modules end that a cycle runs once it has the lock. -/
def course (s : Machine) : Except Exc (List UnitResult) :=
  (exec (modules env lib { ctx with host := hostOf env a } a out only collection)
    (s.take env.getpid)).1

/-- The run completed with some units. -/
def Completed (s : Machine) (units : List UnitResult) : Prop :=
  ¬ Refuses env s ∧ course env lib ctx a out only collection s = .ok units

/-- An error ended the run. -/
def Fatal (s : Machine) : Prop :=
  ¬ Refuses env s ∧ ∃ e, course env lib ctx a out only collection s = .error e

/-- What the exit code of a cycle promises, for the machine before it and the way it ends. -/
structure Honoured (s : Machine) (r : Except Exc ℕ) (s' : Machine) : Prop where
  returns : r = .ok 0 ∨ r = .ok 1 ∨ r = .ok 2
  one : r = .ok 1 ↔ ∃ units, Completed env lib ctx a out only collection s units ∧
    ∃ u ∈ units, u.status = .failed
  two : r = .ok 2 ↔ Fatal env lib ctx a out only collection s ∨ HeldByOther env s
  unlocked : s'.wrote = true → s'.lockFile = none

/-- No step outside the `try` around the modules raises what is not handled there. -/
structure Unraised (s : Machine) : Prop where
  hostname : a.hostId.getD "" = "" → env.fault .gethostname = none
  testable : Testable env s
  writable : ¬ Refuses env s → Writable env s
  between : ¬ Refuses env s →
    env.fault .now = none ∧ env.fault .peakTracker = none ∧ env.fault .startTimer = none
  removable : ¬ Refuses env s → Removable env

/-- Besides, a process that the lock file names is another instance. -/
structure Sheltered (s : Machine) : Prop extends Unraised env a s where
  named : Refuses env s → HeldByOther env s

/-- What the steps of a cycle raise are exceptions. -/
structure OnlyExceptions : Prop where
  units : Uncut out
  steps : ∀ s e, env.fault s = some e → e.isException = true

variable {env lib ctx a out only collection} {s s' : Machine}

/-! ### The modules -/

/-- The lock file is as it was, if there is a spool directory. -/
def Steady (s s' : Machine) : Prop :=
  s'.wrote = s.wrote ∧ (s.spoolDir ≠ none → s'.spoolDir = s.spoolDir)

instance reflSteady : Std.Refl Steady := ⟨fun _ => ⟨rfl, fun _ => rfl⟩⟩

instance transSteady : IsTrans Machine Steady := ⟨fun _ _ _ h h' =>
  ⟨h'.1.trans h.1, fun hdir => (h'.2 (by rw [h.2 hdir]; exact hdir)).trans (h.2 hdir)⟩⟩

lemma steady_step (x : Step) : Within Steady (step env x) := by
  unfold step
  split
  · exact within_throw _
  · exact within_pure ()

lemma steady_inWorld {α : Type} (body : M α) : Within Steady (inWorld body) :=
  fun _ => ⟨rfl, fun _ => rfl⟩

lemma steady_sampled {module : String} {units : Run (List UnitResult)}
    (h : Within Steady units) : Within Steady (sampled env module units) :=
  .bind (steady_step _) fun _ => .bind (steady_step _) fun _ => h.bind fun _ =>
    .bind (steady_step _) fun _ => within_pure _

lemma steady_modules : Within Steady (modules env lib ctx a out only collection) := by
  have hspool : Within Steady (setupSpool env) := by
    refine .bind (steady_step _) fun _ s => ⟨rfl, fun hdir => ?_⟩
    obtain ⟨lock, hlock⟩ := Option.ne_none_iff_exists'.mp hdir
    show some s.lockFile = s.spoolDir
    rw [Machine.lockFile, hlock, Option.join_some]
  refine .bind (steady_inWorld _) fun _ => .bind hspool fun _ => .bind (steady_step _) fun _ =>
    .bind (steady_step _) fun _ => .bind ?_ fun mongo => .bind ?_ fun logs => .bind ?_ fun host =>
      .bind (steady_step _) fun _ => .bind (steady_inWorld _) fun _ => within_pure _
  · exact .ite (steady_sampled (steady_inWorld _)) (within_pure _)
  · exact .ite (steady_sampled (steady_inWorld _)) (within_pure _)
  · refine .ite (steady_sampled ?_) (within_pure _)
    exact .bind (steady_step _) fun _ => steady_inWorld _

lemma spared_raising {x : Option Exc} (h : ∀ e, x = some e → e.isException = true) :
    Spared (raising x) := by
  rcases x with _ | e
  · exact spared_pure ()
  · exact spared_throw (h e rfl)

lemma spared_isolating {unit : String} {body : M UnitResult} (h : Spared body) :
    Spared (isolating unit body) :=
  h.tryCatch fun _ he => .ite (spared_pure _) (spared_throw he)

lemma spared_extractCollection {unit : Env} {cfg : CollectionConfig} {u : S3Uploader}
    {dbName : String} (h : Unkilled unit) :
    Spared (Extract.extractCollection lib unit cfg u ctx dbName) := by
  intro w e he
  have hsame := @Isolation.same_extractCollection lib unit cfg u ctx dbName w w h rfl
  unfold SideBySide.Same SideBySide.InStep at hsame
  generalize exec (Extract.extractCollection lib unit cfg u ctx dbName) w = end_ at hsame he
  obtain ⟨r, w'⟩ := end_
  obtain rfl : r = .error e := he
  exact hsame.2.1

lemma spared_mongoUnits {u : S3Uploader} (h : Uncut out) :
    Spared (mongoUnits lib u ctx a out only collection) := by
  have hunits : ∀ dbName (collections : Collections), (∀ c ∈ collections, Unkilled c.2) →
      Spared (extractUnits lib u ctx out.conn dbName collections) := by
    intro dbName collections hcollections
    induction collections with
    | nil => exact spared_pure []
    | cons c collections ih =>
      refine .bind (.ite (spared_pure _) (spared_isolating (.bind ?_ fun _ => ?_))) fun _ =>
        .bind (ih fun d hd => hcollections d (List.mem_cons_of_mem _ hd)) fun _ => spared_pure _
      · exact spared_raising (h.conn.collection _)
      · exact spared_extractCollection (hcollections c List.mem_cons_self)
  refine .ite ?_ (spared_pure _)
  rcases a.mongo with _ | mongo
  · exact spared_pure _
  unfold extractAll
  rcases hconnect : out.conn.connect with e | _ | _
  · exact .ite (spared_pure _) (spared_throw (h.conn.connect e hconnect))
  · exact spared_pure _
  · have hclose : Spared (raising out.conn.close) := spared_raising h.conn.close
    refine .bind (.tryCatch (hunits _ _ fun c hc => ?_) fun e he => hclose.bind fun _ =>
      spared_throw he) fun _ => hclose.bind fun _ => spared_pure _
    obtain ⟨d, -, rfl⟩ := List.mem_map.mp (mem_chosen hc)
    exact h.collection _

lemma spared_logUnits {u : S3Uploader} (h : Uncut out) :
    Spared (logUnits lib u ctx a out only) := by
  have hunits : ∀ sources : LogSources, (∀ x ∈ sources, Unkilled x.2) →
      Spared (shipUnits lib u ctx a.logs.gcDays sources) := by
    intro sources hsources
    induction sources with
    | nil => exact spared_pure []
    | cons x sources ih =>
      exact .bind (spared_isolating (spared_shipSource (hsources x List.mem_cons_self))) fun _ =>
        .bind (ih fun y hy => hsources y (List.mem_cons_of_mem _ hy)) fun _ => spared_pure _
  refine .ite (.ite (hunits _ fun x hx => ?_) (spared_pure _)) (spared_pure _)
  obtain ⟨d, -, rfl⟩ := List.mem_map.mp hx
  exact h.source _

lemma spared_hostUnits {u : S3Uploader} (h : Uncut out) :
    Spared (hostUnits lib u ctx a out only) := by
  refine .ite (.bind ?_ fun _ => spared_pure _) (spared_pure _)
  refine .ite (spared_pure _) ?_
  simp only [writeMetrics_eq]
  refine spared_spooled h.host fun result => .ite ?_ ?_
  · exact .bind (spared_unlink h.host) fun _ => spared_pure _
  · refine .bind (spared_caughtUpload h.host) fun outcome => ?_
    split
    · exact .bind (spared_abort h.host) fun _ => spared_pure _
    · exact .bind (spared_unlink h.host) fun _ => spared_pure _

lemma spared_step (h : ∀ x e, env.fault x = some e → e.isException = true) (x : Step) :
    Spared (step env x) := by
  unfold step
  rcases hf : env.fault x with _ | e
  · exact spared_pure ()
  · exact spared_throw (h x e hf)

lemma spared_inWorld {α : Type} {body : M α} (h : Spared body) : Spared (inWorld body) :=
  fun s => h s.world

lemma spared_sampled (h : ∀ x e, env.fault x = some e → e.isException = true) {module : String}
    {units : Run (List UnitResult)} (hunits : Spared units) :
    Spared (sampled env module units) :=
  .bind (spared_step h _) fun _ => .bind (spared_step h _) fun _ => hunits.bind fun _ =>
    .bind (spared_step h _) fun _ => spared_pure _

/-- **What the modules raise, the second `try` takes.** -/
theorem spared_modules (h : OnlyExceptions env out) :
    Spared (modules env lib ctx a out only collection) := by
  have hstep := spared_step h.steps
  refine .bind (spared_inWorld (spared_raising h.units.setup)) fun _ => .bind (.bind (hstep _)
    fun _ => spared_modify _) fun _ => .bind (hstep _) fun _ => .bind (hstep _) fun _ =>
      .bind ?_ fun mongo => .bind ?_ fun logs => .bind ?_ fun host => .bind (hstep _) fun _ =>
        .bind (spared_inWorld (spared_raising h.units.record)) fun _ => spared_pure _
  · exact .ite (spared_sampled h.steps (spared_inWorld (spared_mongoUnits h.units)))
      (spared_pure _)
  · exact .ite (spared_sampled h.steps (spared_inWorld (spared_logUnits h.units))) (spared_pure _)
  · exact .ite (spared_sampled h.steps (.bind (hstep _) fun _ =>
      spared_inWorld (spared_hostUnits h.units))) (spared_pure _)

/-! ### The end of a cycle -/

/-- The exit code for what the modules come to. -/
def codeOf : Except Exc (List UnitResult) → ℕ
  | .ok units => exitCode units
  | .error _ => 2

lemma codeOf_cases (r : Except Exc (List UnitResult)) :
    codeOf r = 0 ∨ codeOf r = 1 ∨ codeOf r = 2 := by
  rcases r with e | units
  · exact .inr (.inr rfl)
  · simp only [codeOf, exitCode]
    split_ifs <;> simp

lemma codeOf_one {r : Except Exc (List UnitResult)} :
    codeOf r = 1 ↔ ∃ units, r = .ok units ∧ ∃ u ∈ units, u.status = .failed := by
  rcases r with e | units
  · simp [codeOf]
  · simp [codeOf, exitCode]

lemma codeOf_two {r : Except Exc (List UnitResult)} : codeOf r = 2 ↔ ∃ e, r = .error e := by
  rcases r with e | units
  · simp [codeOf]
  · simp only [codeOf, exitCode, reduceCtorEq, exists_false, iff_false]
    split_ifs <;> simp

lemma guarded_ends (h : OnlyExceptions env out) :
    exec (guarded env lib ctx a out only collection) s =
      (.ok (codeOf (exec (modules env lib ctx a out only collection) s).1),
        (exec (modules env lib ctx a out only collection) s).2) := by
  have hspared := @spared_modules env lib ctx a out only collection h s
  unfold guarded
  rw [exec_tryCatch, exec_bind]
  unfold Ensures at hspared
  generalize exec (modules env lib ctx a out only collection) s = end_ at hspared ⊢
  obtain ⟨e | units, s₁⟩ := end_
  · simp only [hspared e rfl, if_true]
    rfl
  · rfl

/-- With the lock taken, a cycle ends with the code of its modules, unless the lock file cannot be
removed. -/
lemma releasing_ok (h : OnlyExceptions env out) {code : ℕ} :
    exec (releasing env (guarded env lib ctx a out only collection)) (s.take env.getpid) =
      (.ok code, s') ↔ Removable env ∧
        code = codeOf (exec (modules env lib ctx a out only collection) (s.take env.getpid)).1 ∧
        s' = ⟨(exec (modules env lib ctx a out only collection) (s.take env.getpid)).2.world,
          (env.others (some (some (toString env.getpid)))).map fun _ => none, true⟩ := by
  have hsteady := @steady_modules env lib ctx a out only collection (s.take env.getpid)
  unfold releasing
  rw [exec_bind, exec_tryCatch, guarded_ends h]
  simp only
  unfold Ensures at hsteady
  generalize exec (modules env lib ctx a out only collection) (s.take env.getpid) = end_
    at hsteady ⊢
  obtain ⟨r, w, dir, wrote⟩ := end_
  obtain ⟨hwrote, hdir⟩ := hsteady
  obtain rfl : wrote = true := hwrote
  obtain rfl : dir = some (some (toString env.getpid)) := hdir (by simp [Machine.take])
  constructor
  · intro hend
    obtain ⟨⟨⟩, s₂, hrelease, hend⟩ := ok_of_bind hend
    obtain ⟨hunlink, rfl⟩ := release_ok.mp hrelease
    cases hend
    exact ⟨hunlink, rfl, rfl⟩
  · rintro ⟨hunlink, rfl, rfl⟩
    exact (exec_bind_ok ((@release_ok env ⟨w, _, true⟩ _).mpr ⟨hunlink, rfl⟩)).trans rfl

/-- A cycle that returns has raised nothing outside its `try` blocks. -/
lemma unraised_of_ok (h : OnlyExceptions env out) {code : ℕ}
    (hrun : exec (runCycle env lib ctx a out only collection) s = (.ok code, s')) :
    Unraised env a s := by
  unfold runCycle at hrun
  obtain ⟨host, s₁, hhost, hend⟩ := ok_of_bind hrun
  obtain ⟨hname, rfl, rfl⟩ := hostName_ok.mp hhost
  clear hrun
  obtain ⟨r, s₂, hacquire, hend⟩ := ok_of_bind hend
  rcases r with _ | pid
  · obtain ⟨htest, hfree, hwrite, rfl⟩ := acquire_taken.mp hacquire
    obtain ⟨hnow, hend⟩ := step_bind_ok.mp hend
    obtain ⟨hpeak, hend⟩ := step_bind_ok.mp hend
    obtain ⟨htimer, hend⟩ := step_bind_ok.mp hend
    exact ⟨hname, htest, fun _ => hwrite, fun _ => ⟨hnow, hpeak, htimer⟩, fun _ =>
      ((releasing_ok h).mp hend).1⟩
  · obtain ⟨htest, hliving, rfl⟩ := acquire_refused.mp hacquire
    have hrefuses : Refuses env s₂ := ⟨pid, living_some.mp hliving⟩
    exact ⟨hname, htest, fun hfree => absurd hrefuses hfree, fun hfree => absurd hrefuses hfree,
      fun hfree => absurd hrefuses hfree⟩

lemma runCycle_refused (h : Unraised env a s) (hrefuses : Refuses env s) :
    exec (runCycle env lib ctx a out only collection) s = (.ok 2, s) := by
  obtain ⟨pid, hpid⟩ := hrefuses
  unfold runCycle
  rw [exec_bind_ok (hostName_ok.mpr ⟨h.hostname, rfl, rfl⟩),
    exec_bind_ok (acquire_refused.mpr ⟨h.testable, living_some.mpr hpid, rfl⟩)]
  rfl

lemma runCycle_taken (hexc : OnlyExceptions env out) (h : Unraised env a s)
    (hfree : ¬ Refuses env s) :
    ∃ s', exec (runCycle env lib ctx a out only collection) s =
      (.ok (codeOf (course env lib ctx a out only collection s)), s') ∧ s'.lockFile = none := by
  obtain ⟨hnow, hpeak, htimer⟩ := h.between hfree
  refine ⟨⟨(exec (modules env lib { ctx with host := hostOf env a } a out only collection)
    (s.take env.getpid)).2.world,
    (env.others (some (some (toString env.getpid)))).map fun _ => none, true⟩, ?_, ?_⟩
  · unfold runCycle
    rw [exec_bind_ok (hostName_ok.mpr ⟨h.hostname, rfl, rfl⟩),
      exec_bind_ok (acquire_taken.mpr ⟨h.testable, hfree, h.writable hfree, rfl⟩)]
    refine step_bind_ok.mpr ⟨hnow, step_bind_ok.mpr ⟨hpeak, step_bind_ok.mpr ⟨htimer, ?_⟩⟩⟩
    exact (releasing_ok hexc).mpr ⟨h.removable hfree, rfl, rfl⟩
  · unfold Machine.lockFile
    cases env.others (some (some (toString env.getpid))) <;> rfl

/-- **The exit code of a cycle keeps its contract** exactly where no step outside the `try` around
the modules raises what is not handled there, and where a process that the lock file names is
another instance. -/
theorem exit_code_iff (hexc : OnlyExceptions env out) (w : World) (dir : Option (Option String)) :
    Honoured env lib ctx a out only collection (.start w dir)
        (exec (runCycle env lib ctx a out only collection) (.start w dir)).1
        (exec (runCycle env lib ctx a out only collection) (.start w dir)).2 ↔
      Sheltered env a (.start w dir) := by
  constructor
  · intro h
    obtain ⟨code, hcode⟩ : ∃ code, (exec (runCycle env lib ctx a out only collection)
        (.start w dir)).1 = .ok code := by
      rcases h.returns with hr | hr | hr <;> exact ⟨_, hr⟩
    have hun : Unraised env a (.start w dir) := unraised_of_ok hexc (Prod.ext hcode rfl)
    refine ⟨hun, fun hrefuses => ?_⟩
    rw [runCycle_refused hun hrefuses] at h
    exact (h.two.mp rfl).resolve_left fun hfatal => hfatal.1 hrefuses
  · rintro ⟨hun, hnamed⟩
    by_cases hrefuses : Refuses env (.start w dir)
    · rw [runCycle_refused hun hrefuses]
      refine ⟨.inr (.inr rfl), iff_of_false (fun h => by cases h) ?_,
        iff_of_true rfl (.inr (hnamed hrefuses)), fun h => by cases h⟩
      rintro ⟨_, hcompleted, _⟩
      exact hcompleted.1 hrefuses
    · obtain ⟨s', hend, hlock⟩ := @runCycle_taken env lib ctx a out only collection _ hexc hun
        hrefuses
      rw [hend]
      have hother : ¬ HeldByOther env (.start w dir) := by
        rintro ⟨pid, hpid, hother⟩
        obtain ⟨found, hfound⟩ := hun.testable.pidExists pid hpid
        refine hrefuses ⟨pid, hpid, ?_⟩
        rcases found with _ | _
        · exact absurd hfound (env.found pid hother)
        · exact hfound
      refine ⟨?_, ?_, ?_, fun _ => hlock⟩
      · simpa using codeOf_cases _
      · simp only [Except.ok.injEq, codeOf_one, Completed, hrefuses, not_false_eq_true, true_and]
      · simp only [Except.ok.injEq, codeOf_two, Fatal, hrefuses, hother, not_false_eq_true,
          true_and, or_false]

/-! ### A machine without a spool directory -/

/-- Nothing fails, and there are no other processes. -/
def calmSurroundings : Surroundings where
  fault _ := none
  hostname := "web01"
  getpid := 7
  pidExists _ := .ok false
  otherInstance _ := false
  found _ h := by cases h
  others := id

lemma calm_onlyExceptions : OnlyExceptions calmSurroundings sampleOutside :=
  ⟨sampleOutside_uncut, fun _ _ h => by cases h⟩

lemma calm_refuses_nobody (s : Machine) : ¬ Refuses calmSurroundings s := by
  rintro ⟨_, _, h⟩
  cases h

/-- On a first run whose spool directory is still to be made, writing the lock file fails, and
that is raised. -/
theorem first_run_raises : OnlyExceptions calmSurroundings sampleOutside ∧
    (exec (runCycle calmSurroundings plainLibs sampleCtx (sampleAgent 30) sampleOutside none none)
      (.start (World.start .empty) none)).1 =
        .error ⟨.osError, "[Errno 2] No such file or directory"⟩ ∧
    ¬ Honoured calmSurroundings plainLibs sampleCtx (sampleAgent 30) sampleOutside none none
      (.start (World.start .empty) none)
      (exec (runCycle calmSurroundings plainLibs sampleCtx (sampleAgent 30) sampleOutside none none)
        (.start (World.start .empty) none)).1
      (exec (runCycle calmSurroundings plainLibs sampleCtx (sampleAgent 30) sampleOutside none none)
        (.start (World.start .empty) none)).2 := by
  have hraised : (exec (runCycle calmSurroundings plainLibs sampleCtx (sampleAgent 30)
      sampleOutside none none) (.start (World.start .empty) none)).1 =
        .error ⟨.osError, "[Errno 2] No such file or directory"⟩ := rfl
  refine ⟨calm_onlyExceptions, hraised, fun h => ?_⟩
  rcases h.returns with hr | hr | hr <;> cases hraised.symm.trans hr

/-- With a stale lock file in the directory, the same run keeps the contract. -/
theorem exit_code_stale_lock : Sheltered calmSurroundings (sampleAgent 30)
      (.start (World.start .empty) (some (some "4242"))) ∧
    Honoured calmSurroundings plainLibs sampleCtx (sampleAgent 30) sampleOutside none none
      (.start (World.start .empty) (some (some "4242")))
      (exec (runCycle calmSurroundings plainLibs sampleCtx (sampleAgent 30) sampleOutside none none)
        (.start (World.start .empty) (some (some "4242")))).1
      (exec (runCycle calmSurroundings plainLibs sampleCtx (sampleAgent 30) sampleOutside none none)
        (.start (World.start .empty) (some (some "4242")))).2 := by
  have h : Sheltered calmSurroundings (sampleAgent 30)
      (.start (World.start .empty) (some (some "4242"))) := by
    refine ⟨⟨fun _ => rfl, ⟨rfl, fun _ _ h => (by cases h), fun _ _ => ⟨false, rfl⟩⟩,
      fun _ => ⟨?_, rfl, rfl⟩, fun _ => ⟨rfl, rfl, rfl⟩, fun _ _ => rfl⟩, fun h => ?_⟩
    · exact fun h => by cases h
    · exact absurd h (calm_refuses_nobody _)
  exact ⟨h, (exit_code_iff calm_onlyExceptions _ _).mpr h⟩

end MongoSyncAgent.ExitCodes
