import MongoSyncAgent.ExitCodes

/-!
The command line: from the configuration file to the exit status of the process.

`main` has the outermost `try`, which takes what `load_config` raises and what `run_cycle` raises
outside its own blocks. `sys.exit` is called inside it, but `SystemExit` is no `Exception`. An
exception that nobody takes would end the process with the status 1, that of a failed unit.
-/

namespace MongoSyncAgent.Cli

open MongoSyncAgent.Py MongoSyncAgent.Config MongoSyncAgent.Runtime MongoSyncAgent.Outcomes
open MongoSyncAgent.LoadConfig MongoSyncAgent.Exceptions MongoSyncAgent.RunCycle
open MongoSyncAgent.ExitCodes
open MongoSyncAgent.Cycle hiding runCycle

/-! ### The configuration file -/

/-- **A configuration file says all of a configuration**: those that are ever loaded are the valid
ones, and a valid one, written to a file, is what the file loads to. -/
theorem config_round_trip (defaultLogDir path : String) (a : AgentConfig) :
    ((∃ file, loadConfig defaultLogDir path file = .ok a) ↔ ValidAgent a) ∧
      (loadConfig defaultLogDir path (.ok (toToml a)) = .ok a ↔ ValidAgent a) :=
  ⟨⟨fun ⟨_, h⟩ => loadConfig_valid h, fun h => ⟨_, loadConfig_toToml h⟩⟩,
    loadConfig_valid, loadConfig_toToml⟩

section Caught

variable {α : Type} {raw : Toml} {key fieldName : String}

lemma caught_configError (text : String) : Caught (configError text : Except Exc α) :=
  caught_raise (by decide) _

lemma caught_contains : Caught (raw.contains key) := by
  unfold Toml.contains
  split
  · exact caught_ok _
  · exact caught_ok _
  · exact caught_ok _
  · exact caught_raise (by decide) _

lemma caught_item : Caught (raw.item key) := by
  unfold Toml.item
  split
  · split
    · exact caught_ok _
    · exact caught_raise (by decide) _
  all_goals exact caught_raise (by decide) _

lemma caught_get : Caught (raw.get key) := by
  unfold Toml.get
  split
  · exact caught_ok _
  · exact caught_raise (by decide) _

lemma caught_require : Caught (require raw key fieldName) := by
  refine .bind caught_contains fun found => ?_
  split
  · exact caught_configError _
  · refine .bind caught_item fun v => ?_
    split
    · split
      · exact caught_configError _
      · exact caught_ok _
    · exact caught_configError _

lemma caught_optional {type : FieldType α} {default : α} :
    Caught (optional type raw key fieldName default) := by
  refine .bind caught_contains fun found => ?_
  split
  · exact caught_ok _
  · refine .bind caught_item fun v => ?_
    split
    · exact caught_ok _
    · exact caught_configError _

lemma caught_parseArray {parse : Toml → ℕ → Except Exc α}
    (h : ∀ entry idx, Caught (parse entry idx)) :
    Caught (parseArray parse raw key fieldName) := by
  have heach : ∀ entries idx, Caught (parseEach parse idx entries) := by
    intro entries
    induction entries with
    | nil => exact fun idx => caught_ok _
    | cons entry rest ih =>
      exact fun idx => .bind (h entry idx) fun _ => .bind (ih (idx + 1)) fun _ => caught_ok _
  refine .bind caught_get fun v => ?_
  split
  · exact heach _ _
  · exact caught_configError _

lemma caught_parseCollection (idx : ℕ) : Caught (parseCollection raw idx) := by
  unfold parseCollection
  simp only
  split
  · exact caught_configError _
  refine .bind caught_require fun name => .bind caught_require fun modeName => ?_
  split
  · exact caught_configError _
  refine .bind caught_optional fun field => ?_
  split
  · refine .bind caught_optional fun _ => .bind caught_optional fun _ =>
      .bind caught_optional fun _ => .bind caught_optional fun _ => ?_
    split
    · exact caught_configError _
    · exact caught_ok _
  · exact caught_configError _

lemma caught_parseLogSource (idx : ℕ) : Caught (parseLogSource raw idx) := by
  unfold parseLogSource
  simp only
  split
  · exact caught_configError _
  · exact .bind caught_require fun _ => .bind caught_require fun _ => .bind caught_optional fun _ =>
      .bind caught_optional fun _ => caught_ok _

/-- What `load_config` raises, `main` takes. -/
theorem caught_loadConfig {defaultLogDir path : String} {file : Except LoadFailure Table}
    (h : ∀ e, file = .error (.raised e) → e.isException = true) :
    Caught (loadConfig defaultLogDir path file) := by
  have hmongo : ∀ mongo, Caught (parseMongo mongo) := by
    rintro (_ | mongo)
    · exact caught_ok _
    refine .bind caught_optional fun on => ?_
    split
    · exact caught_ok _
    · exact .bind caught_require fun _ => .bind caught_optional fun _ => .bind caught_optional
        fun _ => .bind caught_optional fun _ => .bind caught_optional fun _ => .bind
          caught_optional fun _ => .bind caught_optional fun _ => .bind caught_optional fun _ =>
            .bind caught_optional fun _ => .bind caught_optional fun _ =>
              .bind (caught_parseArray fun _ => caught_parseCollection) fun _ => caught_ok _
  have hs3 : ∀ s3, Caught (parseS3 s3) := by
    rintro (_ | s3)
    · exact caught_configError _
    · exact .bind caught_require fun _ => .bind caught_optional fun _ =>
        .bind caught_optional fun _ => caught_ok _
  have hlogs : ∀ logs, Caught (parseLogs logs) := by
    rintro (_ | logs)
    · exact caught_ok _
    · exact .bind caught_optional fun _ => .bind caught_optional fun _ =>
        .bind (caught_parseArray fun _ => caught_parseLogSource) fun _ => caught_ok _
  have hmetrics : ∀ metrics, Caught (parseHostmetrics metrics) := by
    rintro (_ | metrics)
    · exact caught_ok _
    refine .bind caught_optional fun _ => .bind caught_get fun v => ?_
    split
    · split
      · exact caught_ok _
      · exact caught_configError _
    · exact caught_configError _
  rcases file with (_ | _ | e) | raw
  · exact caught_configError _
  · exact caught_configError _
  · intro e' he
    obtain rfl := Except.error.inj he
    exact h e rfl
  simp only [loadConfig]
  split
  · exact caught_configError _
  · exact .bind caught_require fun _ => .bind caught_require fun _ => .bind caught_optional fun _ =>
      .bind caught_optional fun _ => .bind caught_optional fun _ => .bind (hmongo _) fun _ =>
        .bind (hs3 _) fun _ => .bind (hlogs _) fun _ => .bind (hmetrics _) fun _ => caught_ok _

end Caught

/-! ### The process -/

/-- What `parse_args` gives. -/
structure Args where
  config : String
  only : Option (List String)
  collection : Option String
  dryRun : Bool

/-- `set(args.only) if args.only else None`. -/
def Args.modules (args : Args) : Option (List String) :=
  match args.only with
  | some (module :: rest) => some (module :: rest)
  | _ => none

/-- What a process meets, besides what its cycle meets. -/
structure Process where
  defaultLogDir : String
  /-- What reading and decoding the configuration file gives. -/
  file : Except LoadFailure Table
  /-- What `configure_logging` raises, if it does. -/
  logging : Option Exc
  surroundings : Surroundings
  outside : Outside

variable (p : Process) (lib : Libs) (ctx : RunContext) (args : Args)

/-- `run_cycle`, from its first line on. -/
def cycle (a : AgentConfig) : Run ℕ := do
  inWorld (raising p.logging)
  runCycle p.surroundings lib { ctx with dryRun := args.dryRun } a p.outside args.modules
    args.collection

/-- `main`, after `parse_args`: the exit status. -/
def main : Run ℕ :=
  tryCatch
    (do
      let a ← inWorld (lift (loadConfig p.defaultLogDir args.config p.file))
      cycle p lib ctx args a)
    fun e => if e.isException then return 2 else throw e

/-- The process is not ended from outside. -/
structure LeftAlone : Prop extends OnlyExceptions p.surroundings p.outside where
  file : ∀ e, p.file = .error (.raised e) → e.isException = true
  logging : ∀ e, p.logging = some e → e.isException = true
  pidExists : ∀ pid e, p.surroundings.pidExists pid = .error e → e.isException = true

/-- The run went to its end with these units, and gave the lock back. -/
def Finished (s : Machine) (units : List UnitResult) : Prop :=
  ∃ a, loadConfig p.defaultLogDir args.config p.file = .ok a ∧ p.logging = none ∧
    Unraised p.surroundings a s ∧
    Completed p.surroundings lib { ctx with dryRun := args.dryRun } a p.outside args.modules
      args.collection s units

variable {p lib ctx args} {s : Machine}

lemma Finished.unique {units units' : List UnitResult} (h : Finished p lib ctx args s units)
    (h' : Finished p lib ctx args s units') : units = units' := by
  obtain ⟨a, ha, -, -, -, hunits⟩ := h
  obtain ⟨a', ha', -, -, -, hunits'⟩ := h'
  obtain rfl := Except.ok.inj (ha.symm.trans ha')
  exact Except.ok.inj (hunits.symm.trans hunits')

/-- **What `run_cycle` raises, `main` takes.** -/
theorem spared_runCycle (h : LeftAlone p) (ctx : RunContext) (a : AgentConfig) :
    Spared (runCycle p.surroundings lib ctx a p.outside args.modules args.collection) := by
  have hstep := spared_step h.steps
  have hread : ∀ text, Spared (readPid p.surroundings text) := fun text =>
    .tryCatch (.bind (hstep _) fun _ => spared_pure _) fun e he =>
      .ite (spared_pure _) (spared_throw he)
  have hprobe : ∀ pid, Spared (pidExists p.surroundings pid) := by
    intro pid
    unfold pidExists
    rcases hpid : p.surroundings.pidExists pid with e | found
    · exact spared_throw (h.pidExists pid e hpid)
    · exact spared_pure _
  have hlive : Spared (livePid p.surroundings) := by
    refine .bind (hstep _) fun _ => .bind spared_get fun s => ?_
    split
    · exact spared_pure _
    · refine .bind (hread _) fun named => ?_
      split
      · exact spared_pure _
      · exact .bind (hprobe _) fun _ => spared_pure _
  have hwrite : Spared (writeLock p.surroundings) := by
    refine .bind (hstep _) fun _ => .bind spared_get fun s => ?_
    have hrest : ∀ _ : PUnit, Spared (do
        modify fun s => { s with spoolDir := some (some ""), wrote := true }
        step p.surroundings .writeLock
        modify fun s => { s with
          spoolDir := some (some (toString p.surroundings.getpid)) } : Run Unit) :=
      fun _ => .bind (spared_modify _) fun _ => .bind (hstep _) fun _ => spared_modify _
    exact .ite (.bind (spared_throw rfl) hrest) (hrest ())
  have hrelease : Spared (release p.surroundings) :=
    .bind (spared_modify _) fun _ => .bind spared_get fun s =>
      .ite (spared_pure _) (.bind (hstep _) fun _ => spared_modify _)
  have hguarded : ∀ ctx, Spared (guarded p.surroundings lib ctx a p.outside args.modules
      args.collection) := fun ctx =>
    .tryCatch (.bind (spared_modules h.toOnlyExceptions) fun _ => spared_pure _) fun e he =>
      .ite (spared_pure _) (spared_throw he)
  refine .bind (.ite (.bind (hstep _) fun _ => spared_pure _) (spared_pure _)) fun host =>
    .bind (.bind hlive fun named => ?_) fun held => ?_
  · split
    · exact spared_pure _
    · exact .bind hwrite fun _ => spared_pure _
  · split
    · exact spared_pure _
    · refine .bind (hstep _) fun _ => .bind (hstep _) fun _ => .bind (hstep _) fun _ =>
        .bind (.tryCatch (hguarded _) fun e he => ?_) fun _ => .bind hrelease fun _ => spared_pure _
      exact .bind hrelease fun _ => spared_throw he

/-- The exit status of a process whose run went to its end. -/
lemma main_finished (h : LeftAlone p) {units : List UnitResult}
    (hfin : Finished p lib ctx args s units) :
    (exec (main p lib ctx args) s).1 = .ok (exitCode units) := by
  obtain ⟨a, ha, hlog, hun, hfree, hcourse⟩ := hfin
  obtain ⟨s', hrun, -⟩ := runCycle_taken h.toOnlyExceptions hun hfree
  rw [hcourse] at hrun
  have hload : exec (inWorld (lift (loadConfig p.defaultLogDir args.config p.file))) s =
      (.ok a, s) := by
    rw [exec_inWorld, ha]
    rfl
  have hlogging : exec (inWorld (raising p.logging)) s = (.ok (), s) := by
    rw [exec_inWorld, hlog]
    rfl
  unfold main cycle
  rw [exec_tryCatch, exec_bind_ok hload, exec_bind_ok hlogging, hrun]
  rfl

/-- And of every other. -/
lemma main_unfinished (h : LeftAlone p) (hfin : ∀ units, ¬ Finished p lib ctx args s units) :
    (exec (main p lib ctx args) s).1 = .ok 2 := by
  have hspared : Spared (do
      let a ← inWorld (lift (loadConfig p.defaultLogDir args.config p.file))
      cycle p lib ctx args a : Run ℕ) :=
    .bind (spared_inWorld (spared_lift (caught_loadConfig h.file))) fun a =>
      .bind (spared_inWorld (spared_raising h.logging)) fun _ => spared_runCycle h _ a
  have hcaught := hspared s
  unfold main
  rw [exec_tryCatch]
  unfold Ensures at hcaught
  rcases hend : exec (do
      let a ← inWorld (lift (loadConfig p.defaultLogDir args.config p.file))
      cycle p lib ctx args a : Run ℕ) s with ⟨e | code, s'⟩
  · rw [hend] at hcaught
    simp only [hcaught e rfl, if_true]
    rfl
  -- it returned, so it refused, or an error ended its modules
  simp only
  obtain ⟨a, s₁, hload, hcycle⟩ := ok_of_bind hend
  rw [exec_inWorld, exec_lift] at hload
  obtain ⟨ha, rfl⟩ := Prod.mk.inj hload
  obtain ⟨⟨⟩, s₂, hlog, hrun⟩ := ok_of_bind hcycle
  rw [exec_inWorld] at hlog
  have hnone : p.logging = none ∧ s₂ = s := by
    rcases hl : p.logging with _ | e
    · rw [hl] at hlog
      exact ⟨rfl, (Prod.mk.inj hlog).2.symm⟩
    · rw [hl] at hlog
      cases hlog
  obtain ⟨hnone, rfl⟩ := hnone
  have hun := unraised_of_ok h.toOnlyExceptions hrun
  by_cases hrefuses : Refuses p.surroundings s₂
  · rw [runCycle_refused hun hrefuses] at hrun
    exact congrArg Except.ok (Except.ok.inj (Prod.mk.inj hrun).1).symm
  · obtain ⟨s₃, htaken, -⟩ := runCycle_taken h.toOnlyExceptions hun hrefuses
    rw [htaken] at hrun
    obtain rfl := Except.ok.inj (Prod.mk.inj hrun).1
    have htwo : codeOf (course p.surroundings lib { ctx with dryRun := args.dryRun } a p.outside
        args.modules args.collection s₂) = 2 := by
      rw [codeOf_two]
      rcases hcourse : course p.surroundings lib { ctx with dryRun := args.dryRun } a p.outside
        args.modules args.collection s₂ with e | units
      · exact ⟨e, rfl⟩
      · exact absurd ⟨a, ha, hnone, hun, hrefuses, hcourse⟩ (hfin units)
    rw [htwo]

/-- **The exit status of the process** is that of a run that went to its end, `1` if a unit failed
and `0` if none did; whatever else happens, with the configuration, the log, the lock or the run, it
is `2`. -/
theorem exit_status (h : LeftAlone p) :
    ((exec (main p lib ctx args) s).1 = .ok 0 ↔
      ∃ units, Finished p lib ctx args s units ∧ ∀ u ∈ units, u.status ≠ .failed) ∧
    ((exec (main p lib ctx args) s).1 = .ok 1 ↔
      ∃ units, Finished p lib ctx args s units ∧ ∃ u ∈ units, u.status = .failed) ∧
    ((exec (main p lib ctx args) s).1 = .ok 2 ↔ ∀ units, ¬ Finished p lib ctx args s units) := by
  by_cases hfin : ∃ units, Finished p lib ctx args s units
  · obtain ⟨units, hfin⟩ := hfin
    have hunits : ∀ {P : List UnitResult → Prop},
        (∃ units', Finished p lib ctx args s units' ∧ P units') ↔ P units := by
      intro P
      constructor
      · rintro ⟨units', hfin', hP⟩
        rwa [hfin.unique hfin']
      · exact fun hP => ⟨units, hfin, hP⟩
    rw [main_finished h hfin, hunits, hunits]
    by_cases hfailed : ∃ u ∈ units, u.status = .failed
    · have hcode : exitCode units = 1 := by simpa [exitCode] using hfailed
      rw [hcode]
      refine ⟨iff_of_false (by simp) ?_, iff_of_true rfl hfailed, iff_of_false (by simp) ?_⟩
      · push Not
        exact hfailed
      · exact fun hno => hno units hfin
    · have hcode : exitCode units = 0 := by simpa [exitCode] using hfailed
      rw [hcode]
      refine ⟨iff_of_true rfl ?_, iff_of_false (by simp) hfailed, iff_of_false (by simp) ?_⟩
      · push Not at hfailed
        exact hfailed
      · exact fun hno => hno units hfin
  · rw [not_exists] at hfin
    rw [main_unfinished h hfin]
    refine ⟨iff_of_false (by simp) ?_, iff_of_false (by simp) ?_, iff_of_true rfl hfin⟩
    · rintro ⟨units, hunits, -⟩
      exact hfin units hunits
    · rintro ⟨units, hunits, -⟩
      exact hfin units hunits

/-- One log source with one line, on a machine on which nothing fails. -/
def sampleProcess : Process where
  defaultLogDir := "logs"
  file := .ok (DryRun.sampleToml 30)
  logging := none
  surroundings := calmSurroundings
  outside := DryRun.sampleOutside

def sampleArgs : Args := ⟨"agent.toml", none, none, false⟩

lemma sampleProcess_leftAlone : LeftAlone sampleProcess where
  toOnlyExceptions := calm_onlyExceptions
  file _ h := by cases h
  logging _ h := by cases h
  pidExists _ _ h := by cases h

/-- Without a spool directory `run_cycle` raises, and the status is `2`; with one, the run goes to
its end. -/
theorem exit_status_sample :
    (exec (main sampleProcess plainLibs sampleCtx sampleArgs)
      (.start (World.start .empty) none)).1 = .ok 2 ∧
    (∀ units, ¬ Finished sampleProcess plainLibs sampleCtx sampleArgs
      (.start (World.start .empty) none) units) ∧
    ∃ units, Finished sampleProcess plainLibs sampleCtx sampleArgs
      (.start (World.start .empty) (some none)) units ∧ ∀ u ∈ units, u.status ≠ .failed := by
  have hfirst : (exec (main sampleProcess plainLibs sampleCtx sampleArgs)
      (.start (World.start .empty) none)).1 = .ok 2 := by decide +kernel
  have hsecond : (exec (main sampleProcess plainLibs sampleCtx sampleArgs)
      (.start (World.start .empty) (some none))).1 = .ok 0 := by decide +kernel
  exact ⟨hfirst, (exit_status sampleProcess_leftAlone).2.2.mp hfirst,
    (exit_status sampleProcess_leftAlone).1.mp hsecond⟩

end MongoSyncAgent.Cli
