import MongoSyncAgent.Cycle
import MongoSyncAgent.Locking

/-!
`run_cycle` as a whole: the lock around the modules, and the steps between them.

It has two `try` blocks: one around `acquire`, which takes only `AlreadyRunningError`, and one
around the modules, which takes every exception and gives the lock back. The steps before, between
and after the two have no handler, and the spool directory, where the lock file lies, is made in
the second. The logger raises nothing: its sinks catch what they raise.
-/

namespace MongoSyncAgent.RunCycle

open MongoSyncAgent.Py MongoSyncAgent.Config MongoSyncAgent.Runtime MongoSyncAgent.Outcomes
open MongoSyncAgent.Sinks MongoSyncAgent.Cycle
open MongoSyncAgent.Locking (pidOf)

/-- The steps of `run_cycle` that may raise, besides those of its units. -/
inductive Step
  | gethostname
  /-- `self.lock_path.exists()`. -/
  | lockExists
  /-- `self.lock_path.read_text()`, or `int` on a text that is too long for it. -/
  | readLock
  /-- `self.lock_path.write_text(str(os.getpid()))`: the file is opened, then written. -/
  | openLock | writeLock
  /-- `datetime.now`, `PeakRssTracker()` and `time.monotonic()`. -/
  | now | peakTracker | startTimer
  | setupSpool | sweepOrphans | openUploader
  /-- The import of a module, and `peak.sample()` before and after it. -/
  | load (module : String) | sample (module : String) | sampleAfter (module : String)
  | collect
  | stopTimer
  /-- `self.lock_path.unlink()`. -/
  | unlinkLock
  deriving DecidableEq

/-- What a cycle meets, besides what its units meet. -/
structure Surroundings where
  /-- The exception a step raises, if it does. -/
  fault : Step → Option Exc
  hostname : String
  getpid : ℕ
  /-- `psutil.pid_exists`. -/
  pidExists : ℤ → Except Exc Bool
  /-- Whether a PID is that of another instance, which runs. -/
  otherInstance : ℤ → Bool
  /-- A process that runs exists. -/
  found : ∀ pid, otherInstance pid = true → pidExists pid ≠ .ok false
  /-- What other processes make of the spool directory while the cycle has the lock. -/
  others : Option (Option String) → Option (Option String)

/-- What a cycle changes. -/
structure Machine where
  world : World
  /-- The spool directory, if there is one, with the text of its lock file, if it has one. -/
  spoolDir : Option (Option String)
  /-- Whether the cycle has written the lock file. -/
  wrote : Bool

namespace Machine

def lockFile (s : Machine) : Option String := s.spoolDir.join

/-- Before a cycle. -/
def start (w : World) (spoolDir : Option (Option String)) : Machine := ⟨w, spoolDir, false⟩

end Machine

abbrev Run (α : Type) := Prog Exc Machine α

variable (env : Surroundings)

def step (s : Step) : Run Unit :=
  match env.fault s with
  | some e => throw e
  | none => pure ()

/-- What touches neither the spool directory nor the lock file. -/
def inWorld {α : Type} (body : M α) : Run α :=
  ExceptT.mk fun s =>
    let (r, w) := exec body s.world
    (r, { s with world := w })

/-! ### The lock -/

/-- What `acquire` takes for a corrupt or unreadable lock file. -/
def isCorrupt (e : Exc) : Bool := e.cls = .valueError || e.cls = .osError

/-- The PID of a lock file with that text, if it can be read. -/
def readPid (text : String) : Run (Option ℤ) :=
  tryCatch (do step env .readLock; return pidOf text) fun e =>
    if isCorrupt e then return none else throw e

def pidExists (pid : ℤ) : Run Bool :=
  match env.pidExists pid with
  | .ok found => pure found
  | .error e => throw e

/-- The PID that the lock file names, if that is the one of a live process. -/
def livePid : Run (Option ℤ) := do
  step env .lockExists
  match (← get).lockFile with
  | none => return none
  | some text =>
    match ← readPid env text with
    | none => return none
    | some pid => return if ← pidExists env pid then some pid else none

/-- `self.lock_path.write_text(str(os.getpid()))`. -/
def writeLock : Run Unit := do
  step env .openLock
  if (← get).spoolDir = none then throw ⟨.osError, "[Errno 2] No such file or directory"⟩
  modify fun s => { s with spoolDir := some (some ""), wrote := true }
  step env .writeLock
  modify fun s => { s with spoolDir := some (some (toString env.getpid)) }

/-- `acquire`; with a PID where it raises `AlreadyRunningError`. -/
def acquire : Run (Option ℤ) := do
  match ← livePid env with
  | some pid => return some pid
  | none => do
    writeLock env
    return none

/-- `release`: a lock file that is gone already is no error. -/
def release : Run Unit := do
  modify fun s => { s with spoolDir := env.others s.spoolDir }
  if (← get).lockFile = none then return
  step env .unlinkLock
  modify fun s => { s with spoolDir := s.spoolDir.map fun _ => none }

/-! ### The cycle -/

variable (lib : Libs) (ctx : RunContext) (a : AgentConfig) (out : Outside)
  (only : Option (List String)) (collection : Option String)

/-- `cfg.host_id or socket.gethostname()`. -/
def hostName : Run String :=
  if a.hostId.getD "" = "" then do
    step env .gethostname
    return env.hostname
  else return a.hostId.getD ""

/-- `setup_spool`: parents are made too, and a directory that is there stays as it is. -/
def setupSpool : Run Unit := do
  step env .setupSpool
  modify fun s => { s with spoolDir := some s.lockFile }

/-- The work of a module, between two samples of the memory. -/
def sampled (module : String) (units : Run (List UnitResult)) : Run (List UnitResult) := do
  step env (.load module)
  step env (.sample module)
  let results ← units
  step env (.sampleAfter module)
  return results

def mongoModule (u : S3Uploader) : Run (List UnitResult) :=
  if (selected only "mongo" ∧ a.mongoEnabled) ∧ a.mongo.isSome then
    sampled env "mongo" (inWorld (mongoUnits lib u ctx a out only collection))
  else return []

def logsModule (u : S3Uploader) : Run (List UnitResult) :=
  if selected only "logs" ∧ a.logs.enabled then
    sampled env "logs" (inWorld (logUnits lib u ctx a out only))
  else return []

def hostModule (u : S3Uploader) : Run (List UnitResult) :=
  if selected only "hostmetrics" ∧ a.hostmetrics.enabled then
    sampled env "hostmetrics" do
      step env .collect
      inWorld (hostUnits lib u ctx a out only)
  else return []

/-- The body of the second `try`: the units of the modules. -/
def modules : Run (List UnitResult) := do
  let u := S3Uploader.make a.s3.bucket a.s3.pre
  -- the state store is opened
  inWorld (raising out.setup)
  setupSpool env
  step env .sweepOrphans
  step env .openUploader
  let mongo ← mongoModule env lib ctx a out only collection u
  let logs ← logsModule env lib ctx a out only u
  let host ← hostModule env lib ctx a out only u
  step env .stopTimer
  inWorld (raising out.record)
  return mongo ++ logs ++ host

/-- `try: modules` `except Exception: return 2`. -/
def guarded : Run ℕ :=
  tryCatch (do return exitCode (← modules env lib ctx a out only collection)) fun e =>
    if e.isException then return 2 else throw e

/-- `try: body` `finally: lock.release()`. -/
def releasing (body : Run ℕ) : Run ℕ := do
  let code ← tryCatch body fun e => do release env; throw e
  release env
  return code

/-- `run_cycle`, after `configure_logging`. -/
def runCycle : Run ℕ := do
  let host ← hostName env a
  match ← acquire env with
  | some _ => return 2
  | none => do
    step env .now
    step env .peakTracker
    step env .startTimer
    releasing env (guarded env lib { ctx with host } a out only collection)

/-! ### The lock file -/

/-- The PID that `acquire` reads in the lock file, if it can read one. -/
def namedPid (s : Machine) : Option ℤ :=
  if env.fault .readLock = none then s.lockFile.bind pidOf else none

/-- The lock file names a process that exists. -/
def Refuses (s : Machine) : Prop := ∃ pid, namedPid env s = some pid ∧ env.pidExists pid = .ok true

/-- With the lock taken. -/
def Machine.take (s : Machine) (pid : ℕ) : Machine :=
  { s with spoolDir := some (some (toString pid)), wrote := true }

/-- The lock file can be tested. -/
structure Testable (s : Machine) : Prop where
  lockExists : env.fault .lockExists = none
  readLock : s.lockFile ≠ none → ∀ e, env.fault .readLock = some e → isCorrupt e = true
  pidExists : ∀ pid, namedPid env s = some pid → ∃ found, env.pidExists pid = .ok found

/-- The lock file can be written. -/
structure Writable (s : Machine) : Prop where
  spoolDir : s.spoolDir ≠ none
  openLock : env.fault .openLock = none
  writeLock : env.fault .writeLock = none

/-- The lock can be given back, if there is a lock file to be removed. -/
def Removable : Prop :=
  (env.others (some (some (toString env.getpid)))).join ≠ none → env.fault .unlinkLock = none

/-- The name that a cycle has for its host. -/
def hostOf : String := if a.hostId.getD "" = "" then env.hostname else a.hostId.getD ""

/-! ### Step by step -/

variable {env lib ctx a out only collection} {s s' : Machine}

lemma exec_step (x : Step) : exec (step env x) s =
    ((match env.fault x with | some e => .error e | none => .ok ()), s) := by
  unfold step
  cases env.fault x <;> rfl

lemma exec_inWorld {α : Type} (body : M α) : exec (inWorld body) s =
    ((exec body s.world).1, { s with world := (exec body s.world).2 }) := rfl

lemma step_ok {x : Step} : exec (step env x) s = (.ok (), s') ↔ env.fault x = none ∧ s' = s := by
  rw [exec_step]
  rcases env.fault x with _ | e
  · simp [eq_comm]
  · simp

/-- A step that goes well, and what follows. -/
lemma step_bind_ok {α : Type} {x : Step} {f : Unit → Run α} {r : α} :
    exec (step env x >>= f) s = (.ok r, s') ↔
      env.fault x = none ∧ exec (f ()) s = (.ok r, s') := by
  rw [exec_bind, exec_step]
  rcases env.fault x with _ | e
  · simp
  · simp

/-- A corrupt or unreadable lock file has no PID. -/
lemma readPid_ok {text : String} {r : Option ℤ} :
    exec (readPid env text) s = (.ok r, s') ↔ s' = s ∧
      (∀ e, env.fault .readLock = some e → isCorrupt e = true) ∧
      r = if env.fault .readLock = none then pidOf text else none := by
  unfold readPid
  rw [exec_tryCatch, exec_bind, exec_step]
  rcases env.fault .readLock with _ | e
  · constructor
    · rintro ⟨⟩
      exact ⟨rfl, fun e he => (by cases he), rfl⟩
    · rintro ⟨rfl, -, rfl⟩
      rfl
  · rw [if_neg (by simp)]
    simp only
    by_cases he : isCorrupt e = true
    · rw [if_pos he]
      constructor
      · rintro ⟨⟩
        exact ⟨rfl, fun e' he' => (by cases he'; exact he), rfl⟩
      · rintro ⟨rfl, -, rfl⟩
        rfl
    · rw [if_neg he]
      exact iff_of_false (fun h => by cases h) fun ⟨_, h, _⟩ => he (h e rfl)

lemma pidExists_ok {pid : ℤ} {found : Bool} : exec (pidExists env pid) s = (.ok found, s') ↔
    s' = s ∧ env.pidExists pid = .ok found := by
  unfold pidExists
  rcases env.pidExists pid with e | answer
  · exact iff_of_false (fun h => by cases h) fun h => by cases h.2
  · constructor
    · rintro ⟨⟩
      exact ⟨rfl, rfl⟩
    · rintro ⟨rfl, ⟨⟩⟩
      rfl

/-- The PID, if there is one, of a process that exists. -/
def living (env : Surroundings) (named : Option ℤ) : Option ℤ :=
  named.filter fun pid => (env.pidExists pid).toOption.getD false

lemma living_some {named : Option ℤ} {pid : ℤ} :
    living env named = some pid ↔ named = some pid ∧ env.pidExists pid = .ok true := by
  rw [living, Option.filter_eq_some_iff]
  refine and_congr_right fun _ => ?_
  rcases env.pidExists pid with e | _ | _ <;> simp [Except.toOption]

lemma living_none : living env (namedPid env s) = none ↔ ¬ Refuses env s := by
  rw [Option.eq_none_iff_forall_ne_some]
  simp only [Refuses, not_exists, ← living_some, ne_eq]

/-- What follows the reading of a PID. -/
lemma probe_ok {named r : Option ℤ} :
    exec (match named with
      | none => pure none
      | some pid => do return if ← pidExists env pid then some pid else none : Run (Option ℤ)) s =
        (.ok r, s') ↔ s' = s ∧ (∀ pid, named = some pid → ∃ found, env.pidExists pid = .ok found) ∧
      r = living env named := by
  rcases named with _ | pid
  · constructor
    · rintro ⟨⟩
      exact ⟨rfl, fun pid h => (by cases h), rfl⟩
    · rintro ⟨rfl, -, rfl⟩
      rfl
  have hliving : ∀ found, env.pidExists pid = .ok found →
      living env (some pid) = if found then some pid else none := by
    intro found hfound
    cases found <;> simp [living, hfound, Except.toOption]
  simp only [Option.some.injEq, forall_eq']
  constructor
  · intro h
    obtain ⟨found, s₁, hprobe, hr⟩ := ok_of_bind h
    obtain ⟨rfl, hfound⟩ := pidExists_ok.mp hprobe
    cases hr
    exact ⟨rfl, ⟨found, hfound⟩, (hliving found hfound).symm⟩
  · rintro ⟨rfl, ⟨found, hfound⟩, rfl⟩
    rw [exec_bind_ok (pidExists_ok.mpr ⟨rfl, hfound⟩), hliving found hfound]
    rfl

lemma livePid_ok {r : Option ℤ} : exec (livePid env) s = (.ok r, s') ↔
    s' = s ∧ Testable env s ∧ r = living env (namedPid env s) := by
  unfold livePid
  rw [step_bind_ok, exec_bind, exec_get]
  simp only
  rcases hfile : s.lockFile with _ | text
  · have hnamed : namedPid env s = none := by
      unfold namedPid
      rw [hfile, Option.bind_none, ite_self]
    rw [hnamed]
    constructor
    · rintro ⟨hexists, ⟨⟩⟩
      exact ⟨rfl, ⟨hexists, fun h => absurd hfile h, by simp [hnamed]⟩, rfl⟩
    · rintro ⟨rfl, h, rfl⟩
      exact ⟨h.lockExists, rfl⟩
  · have hnamed : namedPid env s = if env.fault .readLock = none then pidOf text else none := by
      unfold namedPid
      rw [hfile, Option.bind_some]
    constructor
    · rintro ⟨hexists, h⟩
      obtain ⟨named, s₁, hread, h⟩ := ok_of_bind h
      obtain ⟨rfl, hcorrupt, rfl⟩ := readPid_ok.mp hread
      rw [← hnamed] at h
      obtain ⟨rfl, hprobe, rfl⟩ := probe_ok.mp h
      exact ⟨rfl, ⟨hexists, fun _ => hcorrupt, hprobe⟩, rfl⟩
    · rintro ⟨rfl, ⟨hexists, hread, hprobe⟩, rfl⟩
      refine ⟨hexists, ?_⟩
      rw [exec_bind_ok (readPid_ok.mpr ⟨rfl, hread (by simp [hfile]), hnamed⟩)]
      exact probe_ok.mpr ⟨rfl, hprobe, rfl⟩

lemma writeLock_ok : exec (writeLock env) s = (.ok (), s') ↔
    Writable env s ∧ s' = s.take env.getpid := by
  unfold writeLock
  rw [step_bind_ok, exec_bind, exec_get]
  simp only
  by_cases hdir : s.spoolDir = none
  · rw [if_pos hdir]
    exact iff_of_false (fun h => by cases h.2) fun h => h.1.spoolDir hdir
  rw [if_neg hdir]
  constructor
  · rintro ⟨hopen, h⟩
    obtain ⟨⟨⟩, s₁, ⟨⟩, h⟩ := ok_of_bind h
    obtain ⟨hwrite, h⟩ := step_bind_ok.mp h
    cases h
    exact ⟨⟨hdir, hopen, hwrite⟩, rfl⟩
  · rintro ⟨h, rfl⟩
    exact ⟨h.openLock, step_bind_ok.mpr ⟨h.writeLock, rfl⟩⟩

lemma acquire_refused {pid : ℤ} : exec (acquire env) s = (.ok (some pid), s') ↔
    Testable env s ∧ living env (namedPid env s) = some pid ∧ s' = s := by
  unfold acquire
  constructor
  · intro h
    obtain ⟨r, s₁, hlive, h⟩ := ok_of_bind h
    obtain ⟨rfl, htest, hr⟩ := livePid_ok.mp hlive
    rcases r with _ | pid'
    · obtain ⟨⟨⟩, s₂, -, h⟩ := ok_of_bind h
      cases h
    · cases h
      exact ⟨htest, hr.symm, rfl⟩
  · rintro ⟨htest, hr, rfl⟩
    rw [exec_bind_ok (livePid_ok.mpr ⟨rfl, htest, hr.symm⟩)]
    rfl

lemma acquire_taken : exec (acquire env) s = (.ok none, s') ↔
    Testable env s ∧ ¬ Refuses env s ∧ Writable env s ∧ s' = s.take env.getpid := by
  unfold acquire
  constructor
  · intro h
    obtain ⟨r, s₁, hlive, h⟩ := ok_of_bind h
    obtain ⟨rfl, htest, hr⟩ := livePid_ok.mp hlive
    rcases r with _ | pid'
    · obtain ⟨⟨⟩, s₂, hwrite, h⟩ := ok_of_bind h
      cases h
      exact ⟨htest, living_none.mp hr.symm, writeLock_ok.mp hwrite⟩
    · cases h
  · rintro ⟨htest, hfree, hwrite, rfl⟩
    rw [exec_bind_ok (livePid_ok.mpr ⟨rfl, htest, (living_none.mpr hfree).symm⟩)]
    simp only
    rw [exec_bind_ok (writeLock_ok.mpr ⟨hwrite, rfl⟩)]
    rfl

lemma release_ok : exec (release env) s = (.ok (), s') ↔
    ((env.others s.spoolDir).join ≠ none → env.fault .unlinkLock = none) ∧
      s' = { s with spoolDir := (env.others s.spoolDir).map fun _ => none } := by
  unfold release
  have hmeanwhile : exec (modify fun s : Machine => { s with spoolDir := env.others s.spoolDir } :
      Run Unit) s = (.ok (), { s with spoolDir := env.others s.spoolDir }) := rfl
  rw [exec_bind_ok hmeanwhile, exec_bind, exec_get]
  simp only [Machine.lockFile]
  rcases hothers : env.others s.spoolDir with _ | _ | text
  · simp [eq_comm]
  · simp [eq_comm]
  · simp only [Option.join_some, reduceCtorEq, if_false, ne_eq, not_false_eq_true, true_implies]
    rw [step_bind_ok]
    refine and_congr_right fun _ => ?_
    constructor
    · rintro ⟨⟩
      rfl
    · rintro rfl
      rfl

lemma hostName_ok {host : String} : exec (hostName env a) s = (.ok host, s') ↔
    (a.hostId.getD "" = "" → env.fault .gethostname = none) ∧ host = hostOf env a ∧ s' = s := by
  unfold hostName hostOf
  split_ifs with hid
  · rw [step_bind_ok]
    constructor
    · rintro ⟨hname, ⟨⟩⟩
      exact ⟨fun _ => hname, rfl, rfl⟩
    · rintro ⟨hname, rfl, rfl⟩
      exact ⟨hname hid, rfl⟩
  · constructor
    · rintro ⟨⟩
      exact ⟨fun h => absurd h hid, rfl, rfl⟩
    · rintro ⟨-, rfl, rfl⟩
      rfl

/-! ### The cycle with the lock held -/

/-- On a machine that is `s` but for its world, a run does what a program does to the world. -/
def Follows {α β : Type} (f : β → α) (s : Machine) (m : Run α) (m' : M β) : Prop :=
  ∀ w, exec m { s with world := w } =
    ((exec m' w).1.map f, { s with world := (exec m' w).2 })

section Follows

variable {α β γ δ : Type} {f : β → α} {g : δ → γ} {m : Run α} {m' : M β}

lemma follows_pure (b : β) : Follows f s (pure (f b)) (pure b) := fun _ => rfl

lemma follows_throw (e : Exc) : Follows f s (throw e) (throw e) := fun _ => rfl

lemma follows_inWorld (body : M α) : Follows id s (inWorld body) body := by
  intro w
  rw [exec_inWorld]
  cases (exec body w).1 <;> rfl

lemma Follows.bind {k : α → Run γ} {k' : β → M δ} (hm : Follows f s m m')
    (hk : ∀ b, Follows g s (k (f b)) (k' b)) : Follows g s (m >>= k) (m' >>= k') := by
  intro w
  rw [exec_bind, exec_bind, hm w]
  generalize exec m' w = end_
  rcases end_ with ⟨e | b, w'⟩
  · rfl
  · exact hk b w'

/-- A part that leaves the machine as it is. -/
lemma Follows.after {x : γ} {m : Run γ} {k : γ → Run α}
    (hm : ∀ w, exec m { s with world := w } = (.ok x, { s with world := w }))
    (hk : Follows f s (k x) m') : Follows f s (m >>= k) m' :=
  fun w => (exec_bind_ok (hm w)).trans (hk w)

lemma Follows.tryCatch {k : Exc → Run α} {k' : Exc → M β} (hm : Follows f s m m')
    (hk : ∀ e, Follows f s (k e) (k' e)) : Follows f s (tryCatch m k) (tryCatch m' k') := by
  intro w
  rw [exec_tryCatch, exec_tryCatch, hm w]
  generalize exec m' w = end_
  rcases end_ with ⟨e | b, w'⟩
  · exact hk e w'
  · rfl

lemma Follows.ite {p : Prop} [Decidable p] {n : Run α} {n' : M β} (h : Follows f s m m')
    (h' : Follows f s n n') : Follows f s (if p then m else n) (if p then m' else n') := by
  split
  · exact h
  · exact h'

end Follows

/-- **With the lock held**, a cycle none of whose own steps fails is that of its units. -/
theorem guarded_follows (hcalm : ∀ x, env.fault x = none) (hdir : s.spoolDir ≠ none) :
    Follows Report.exitCode s (guarded env lib ctx a out only collection)
      (Cycle.runCycle lib ctx a out only collection) := by
  have hstep : ∀ x w, exec (step env x) { s with world := w } = (.ok (), { s with world := w }) :=
    fun x w => step_ok.mpr ⟨hcalm x, rfl⟩
  have hspool : ∀ w, exec (setupSpool env) { s with world := w } =
      (.ok (), { s with world := w }) := by
    intro w
    obtain ⟨lock, hlock⟩ := Option.ne_none_iff_exists'.mp hdir
    obtain ⟨w', dir, wrote⟩ := s
    obtain rfl : dir = some lock := hlock
    exact step_bind_ok.mpr ⟨hcalm _, rfl⟩
  have hsampled : ∀ {module : String} {units : Run (List UnitResult)} {units' : M _},
      Follows id s units units' → Follows id s (sampled env module units) units' := by
    intro module units units' h
    refine .after (hstep _) (.after (hstep _) fun w => ?_)
    rw [exec_bind, h w]
    generalize exec units' w = end_
    rcases end_ with ⟨e | results, w'⟩
    · rfl
    · exact exec_bind_ok (hstep _ w')
  refine .tryCatch ?_ fun e => .ite (follows_pure (f := Report.exitCode) ⟨2, none⟩)
    (follows_throw e)
  unfold modules
  simp only [bind_assoc, pure_bind]
  refine .bind (follows_inWorld _) fun _ => .after hspool (.after (hstep _) (.after (hstep _) ?_))
  refine .bind (f := id) ?_ fun mongo => .bind (f := id) ?_ fun logs => .bind (f := id) ?_
    fun host => .after (hstep _) (.bind (follows_inWorld _) fun _ =>
      follows_pure (f := Report.exitCode) ⟨exitCode (mongo ++ logs ++ host), some _⟩)
  · unfold mongoModule
    split_ifs with hmongo
    · exact hsampled (follows_inWorld _)
    · have hnone : mongoUnits lib (S3Uploader.make a.s3.bucket a.s3.pre) ctx a out only collection =
          pure [] := by
        unfold mongoUnits
        split_ifs with hselected
        · rcases hm : a.mongo with _ | mongo
          · rfl
          · exact absurd ⟨hselected, by rw [hm]; rfl⟩ hmongo
        · rfl
      rw [hnone]
      exact follows_pure (f := id) []
  · unfold logsModule
    split_ifs with hlogs
    · exact hsampled (follows_inWorld _)
    · rw [logUnits, if_neg hlogs]
      exact follows_pure (f := id) []
  · unfold hostModule
    split_ifs with hhost
    · exact hsampled (.after (hstep _) (follows_inWorld _))
    · rw [hostUnits, if_neg hhost]
      exact follows_pure (f := id) []

/-- **A cycle around which nothing fails**, and which finds the lock free, ends as its units do,
and leaves no lock file. -/
theorem runCycle_calm (hcalm : ∀ x, env.fault x = none) (htest : Testable env s)
    (hfree : ¬ Refuses env s) (hdir : s.spoolDir ≠ none) {report : Report} {w : World}
    (hrun : exec (Cycle.runCycle lib { ctx with host := hostOf env a } a out only collection)
      s.world = (.ok report, w)) :
    exec (runCycle env lib ctx a out only collection) s = (.ok report.exitCode,
      ⟨w, (env.others (some (some (toString env.getpid)))).map fun _ => none, true⟩) := by
  have hguarded : exec (guarded env lib { ctx with host := hostOf env a } a out only collection)
      (s.take env.getpid) = (.ok report.exitCode, { s.take env.getpid with world := w }) := by
    have h := @guarded_follows env lib { ctx with host := hostOf env a } a out only collection
      (s.take env.getpid) hcalm (by simp [Machine.take]) s.world
    rw [hrun] at h
    exact h
  unfold runCycle
  rw [exec_bind_ok (hostName_ok.mpr ⟨fun _ => hcalm _, rfl, rfl⟩),
    exec_bind_ok (acquire_taken.mpr ⟨htest, hfree, ⟨hdir, hcalm _, hcalm _⟩, rfl⟩)]
  refine step_bind_ok.mpr ⟨hcalm _, step_bind_ok.mpr ⟨hcalm _, step_bind_ok.mpr ⟨hcalm _, ?_⟩⟩⟩
  unfold releasing
  rw [exec_bind, exec_tryCatch, hguarded]
  exact (exec_bind_ok (release_ok.mpr ⟨fun _ => hcalm _, rfl⟩)).trans rfl

end MongoSyncAgent.RunCycle
