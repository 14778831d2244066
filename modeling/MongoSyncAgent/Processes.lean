import MongoSyncAgent.CrashSafety
import MongoSyncAgent.Locking
import MongoSyncAgent.Sections

/-!
Processes of the agent on one machine, in any interleaving.

They share the lock file, the spool directory, the state store and the bucket. A process that has
the lock makes a spool directory of its own, sweeps those that it finds, and goes on to the lasting
effects of its run. It may be killed anywhere, and leaves its lock file and its directory behind.
-/

namespace MongoSyncAgent.Processes

open MongoSyncAgent.State MongoSyncAgent.Runtime MongoSyncAgent.Sinks MongoSyncAgent.Systems
open MongoSyncAgent.Protocols MongoSyncAgent.Protocols.Protocol MongoSyncAgent.Ledgers
open MongoSyncAgent.Invocations MongoSyncAgent.CrashSafety MongoSyncAgent.Locking
open MongoSyncAgent.Sections

/-- What the processes share, besides the lock file. -/
structure Common where
  ledger : Ledger
  /-- The subdirectories of the spool directory. -/
  spool : List String

inductive Act
  /-- `setup_spool`, which takes a directory that is there. -/
  | setupSpool (runId : String)
  /-- `sweep_orphans` removes a directory. -/
  | sweep (dir : String)
  | effect (e : Effect)

/-- A process that is started. -/
structure Start where
  invocation : Invocation
  /-- The directories that cannot be removed, which `sweep_orphans` ignores. -/
  stuck : String → Bool

def Start.runId (x : Start) : String := x.invocation.ctx.runId

def Start.sweepOrphans (x : Start) (spool : List String) : List Act :=
  (spool.filter fun dir => dir ≠ x.runId && !x.stuck dir).map .sweep

namespace Common

def apply (d : Common) : Act → Common
  | .setupSpool runId => { d with spool := d.spool.insert runId }
  | .sweep dir => { d with spool := d.spool.filter (· ≠ dir) }
  | .effect e => { d with ledger := d.ledger.after e }

end Common

variable (lib : Libs)

def work : Work Start Common Act where
  plan x d := .setupSpool x.runId :: (x.sweepOrphans d.spool ++
    (x.invocation.journal lib d.ledger.store).map .effect)
  apply := Common.apply

/-- The lock, as long as a process writes its PID only while the lock file names no live one. -/
def agentLock : Lock LockState LockEvent ℕ where
  system := locking.restrict stillFree
  inside l p := l.phase p = .holding
  enters
    | .write p => some p
    | _ => none

/-- A new state store and an empty bucket, with whatever directories there are. -/
def New (d : Common) : Prop := d.ledger = ⟨.empty, []⟩

abbrev Machine := Shared LockState ℕ Start Common Act

def processes : System Machine (Event LockEvent ℕ Start Act) := sections agentLock (work lib) New

/-- The invocation is that of a process that has had the lock. -/
def Entered (s : Machine) (i : Invocation) : Prop := ∃ t ∈ s.turns, t.task.invocation = i

variable {lib} {ran : Invocation → Prop} {s : Machine} {d : Common} {x : Start} {acts : List Act}

/-! ### The lock excludes -/

lemma lockInv_reachable {l : LockState} (h : (locking.restrict stillFree).Reachable l) :
    LockInv l := by
  refine h.invariant (fun l hl => ?_) ?_
  · have hdead : ∀ p, (l.phase p).alive = false := hl
    refine ⟨fun p hp => ?_, fun p _ hp => ?_⟩
    · have hp' := hdead p
      rw [hp] at hp'
      cases hp'
    · rw [hdead p] at hp
      cases hp
  · rintro l e l' _ ih ⟨hok, hstep⟩
    exact lockInv_step ih hok hstep

lemma holding_of_move {l : LockState} {p q : ℕ} {ph : Phase} (hph : ph ≠ .holding)
    (h : (l.move q ph).phase p = .holding) : l.phase p = .holding := by
  by_cases hp : p = q
  · subst hp
    simp only [LockState.move, Function.update_self] at h
    exact absurd h hph
  · simpa only [LockState.move, Function.update_of_ne hp] using h

lemma agentLock_exclusive : agentLock.Exclusive where
  outside {l p} hl hp := by
    have hdead : (l.phase p).alive = false := hl p
    have hholding : l.phase p = .holding := hp
    rw [hholding] at hdead
    cases hdead
  enter {l e l' p} hstep he := by
    cases hstep.2 with
    | write =>
      obtain rfl := Option.some.inj he
      exact Function.update_self ..
    | _ => cases he
  only {l e l' p} hstep hp := by
    cases hstep.2 with
    | @write q =>
      by_cases hpq : p = q
      · exact .inr (congrArg some hpq.symm)
      · have hp : (l.take q).phase p = .holding := hp
        simp only [LockState.take, Function.update_of_ne hpq] at hp
        exact .inl hp
    | @release q =>
      by_cases hpq : p = q
      · subst hpq
        have hp : (l.release p).phase p = .holding := hp
        simp [LockState.release] at hp
      · have hp : (l.release q).phase p = .holding := hp
        simp only [LockState.release, Function.update_of_ne hpq] at hp
        exact .inl hp
    | exists_ => exact .inl (holding_of_move (by split_ifs <;> simp) hp)
    | read => exact .inl (holding_of_move (afterRead_ne _) hp)
    | check => exact .inl (holding_of_move (by split_ifs <;> simp) hp)
    | _ => exact .inl (holding_of_move (by simp) hp)
  alone hl hp hq := (lockInv_reachable hl).exclusive _ _ hp hq

/-! ### What a turn does -/

/-- The lasting effects among the acts. -/
def effectsOf (acts : List Act) : List Effect :=
  acts.filterMap fun
    | .effect e => some e
    | _ => none

lemma effectsOf_append (as bs : List Act) : effectsOf (as ++ bs) = effectsOf as ++ effectsOf bs :=
  List.filterMap_append

lemma effectsOf_plan : effectsOf ((work lib).plan x d) =
    x.invocation.journal lib d.ledger.store := by
  have hsweeps : effectsOf (x.sweepOrphans d.spool) = [] := by
    simp [effectsOf, Start.sweepOrphans]
  have heffects : ∀ j : List Effect, effectsOf (j.map .effect) = j := fun j => by
    simp [effectsOf, List.filterMap_map]
  show effectsOf (x.sweepOrphans d.spool ++ _) = _
  rw [effectsOf_append, hsweeps, heffects, List.nil_append]

lemma ledger_foldl (acts : List Act) :
    (acts.foldl Common.apply d).ledger = (commits lib ran).run d.ledger (effectsOf acts) := by
  induction acts generalizing d with
  | nil => rfl
  | cons a acts ih =>
    rw [List.foldl_cons, ih]
    cases a <;> rfl

/-- Wherever a turn stops, it has kept to the protocol of commits. -/
lemma turn_keeps (hx : ran x.invocation) {done : List Act}
    (h : done <+: (work lib).plan x d) : (commits lib ran).Keeps d.ledger (effectsOf done) := by
  obtain ⟨rest, hrest⟩ := h
  have hkeeps : (commits lib ran).Keeps d.ledger (x.invocation.journal lib d.ledger.store) :=
    invocation_keeps hx d.ledger
  rw [← effectsOf_plan, ← hrest, effectsOf_append, keeps_append] at hkeeps
  exact hkeeps.1

/-- From its first act on, a turn has its directory. -/
lemma turn_spooled {done : List Act} (h : done <+: (work lib).plan x d) (hne : done ≠ []) :
    x.runId ∈ (done.foldl Common.apply d).spool := by
  obtain ⟨act, rest, rfl⟩ := List.exists_cons_of_ne_nil hne
  obtain ⟨rfl, hrest⟩ := List.cons_prefix_cons.mp h
  have hacts : ∀ act ∈ rest, act ≠ .sweep x.runId := by
    rintro act hact rfl
    rcases List.mem_append.mp (hrest.subset hact) with hsweep | heffect
    · simp [Start.sweepOrphans] at hsweep
    · simp at heffect
  clear h hrest
  rw [List.foldl_cons]
  have hmade : x.runId ∈ (d.apply (.setupSpool x.runId)).spool := by
    simp [Common.apply]
  generalize d.apply (.setupSpool x.runId) = d at hmade
  induction rest generalizing d with
  | nil => exact hmade
  | cons act rest ih =>
    refine ih (by simp) (fun act hact => hacts act (List.mem_cons_of_mem _ hact)) _ ?_
    cases act with
    | setupSpool runId => exact List.mem_insert_of_mem hmade
    | sweep dir =>
      refine List.mem_filter.mpr ⟨hmade, ?_⟩
      have hdir : dir ≠ x.runId := fun h => hacts _ List.mem_cons_self (by rw [h])
      simpa using hdir.symm
    | effect => exact hmade

lemma lock_moves {l l' : LockState} {turns : List (Turn ℕ Start Common Act)} {e : LockEvent}
    (h : (processes lib).Reachable ⟨l, d, turns⟩) (hstep : LockStep l e l')
    (hok : stillFree l e) (he : agentLock.enters e = none) :
    (processes lib).Reachable ⟨l', d, turns⟩ :=
  .step h (.lock he ⟨hok, hstep⟩)

/-- A process takes the lock, and comes so far with its run. -/
lemma turn_taken {l : LockState} {turns : List (Turn ℕ Start Common Act)} {p : ℕ}
    (h : (processes lib).Reachable ⟨l, d, turns⟩) (hok : stillFree l (.write p))
    (hp : l.phase p = .writing) (hacts : acts <+: (work lib).plan x d) :
    (processes lib).Reachable
      ⟨l.take p, acts.foldl Common.apply d, turns ++ [⟨p, x, d, acts⟩]⟩ := by
  have hlock : agentLock.system.step l (.write p) (l.take p) := ⟨hok, .write hp⟩
  have hentered : (processes lib).Reachable ⟨l.take p, d, turns ++ [⟨p, x, d, []⟩]⟩ :=
    .step h (.enter rfl hlock)
  have hinside : agentLock.inside (l.take p) p := Function.update_self ..
  exact turn_goes_on hentered rfl hinside hacts

/-! ### What any interleaving leaves -/

/-- **Processes of the agent are serial**, in any interleaving. -/
theorem processes_serial (h : (processes lib).Reachable s) :
    (∃ d, New d ∧ InTurn (work lib) d s.turns s.data) ∧ Backed lib (Entered s) s.data.ledger ∧
      ∀ p, s.lock.phase p = .holding → ∃ before t, s.turns = before ++ [t] ∧ t.owner = p ∧
        s.data = t.done.foldl Common.apply t.found ∧
        (t.done ≠ [] → t.task.runId ∈ s.data.spool) := by
  obtain ⟨d, hd, hserial⟩ := sections_serial agentLock_exclusive h
  refine ⟨⟨d, hd, hserial⟩, ?_, fun p hp => ?_⟩
  · have hnew : (commits lib (Entered s)).system.Reachable d.ledger := .init hd
    refine backed_of_reachable (hserial.invariant
      (P := fun d => (commits lib (Entered s)).system.Reachable d.ledger) hnew ?_)
    intro t ht d hr hdone
    rw [show (t.done.foldl (work lib).apply d).ledger = _ from ledger_foldl t.done]
    exact (turn_keeps ⟨t, ht, rfl⟩ hdone).reachable hr
  · obtain ⟨before, t, hturns, howner⟩ := latest_inside agentLock_exclusive h p hp
    rw [hturns] at hserial
    obtain ⟨-, hdone, hdata⟩ := inTurn_snoc.mp hserial
    refine ⟨before, t, hturns, howner, hdata, fun hne => ?_⟩
    rw [hdata]
    exact turn_spooled hdone hne

def sampleStart (runId : String) : Start where
  invocation := { sampleInvocation 9 with ctx := { sampleCtx with runId := runId } }
  stuck _ := false

def sampleCommon : Common := ⟨⟨.empty, []⟩, []⟩

/-- The process with PID 1 is killed between its upload and its commit. -/
def sampleActs : List Act := ((work plainLibs).plan (sampleStart "r1") sampleCommon).take 2

def sampleLeft : Common := sampleActs.foldl Common.apply sampleCommon

def sampleTurn : Turn ℕ Start Common Act := ⟨1, sampleStart "r1", sampleCommon, sampleActs⟩

lemma sampleLeft_reachable :
    (processes plainLibs).Reachable ⟨sampleHeld.move 1 .dead, sampleLeft, [sampleTurn]⟩ := by
  have hstart : (processes plainLibs).Reachable ⟨noAgents, sampleCommon, []⟩ :=
    .init ⟨noAgents_init, rfl, rfl⟩
  have htesting := lock_moves hstart (noAgents_start 1) trivial rfl
  have hwriting := lock_moves htesting (.exists_ (p := 1) rfl) trivial rfl
  have hworked := turn_taken (p := 1) hwriting (fun q hq => by cases hq) rfl
    (List.take_prefix 2 ((work plainLibs).plan (sampleStart "r1") sampleCommon))
  exact lock_moves hworked (.die (p := 1) rfl) trivial rfl

/-- The process with PID 2 finds the lock file of a dead one, and sweeps its directory. -/
theorem processes_serial_sample : ∃ s : Machine, (processes plainLibs).Reachable s ∧
    s.lock.phase 2 = .holding ∧ sampleLeft.spool = ["r1"] ∧ s.data.spool = ["r2"] ∧
    s.data.ledger.uploads.length = 2 ∧ Backed plainLibs (Entered s) s.data.ledger := by
  have hnew : ∀ text, some (toString 1) = some text → pidOf text ≠ some ((2 : ℕ) : ℤ) := by
    rintro text h
    obtain rfl := Option.some.inj h
    decide
  have htesting := lock_moves sampleLeft_reachable (.start (p := 2) rfl hnew) trivial rfl
  have hreading := lock_moves htesting (.exists_ (p := 2) rfl) trivial rfl
  have hpid : afterRead (toString 1) = .checking 1 := by
    unfold afterRead
    rw [pidOf_toString 1]
    rfl
  have hchecking := lock_moves hreading (.read (p := 2) rfl rfl) trivial rfl
  rw [hpid] at hchecking
  have hstale : ∀ q : ℕ, (q : ℤ) = 1 → q = 1 := fun q hq => by exact_mod_cast hq
  have hwriting := lock_moves (e := .check 2 false) hchecking
    (.check rfl fun q hq _ => by rw [hstale q hq]; rfl) trivial rfl
  have hfree : ∀ q : ℕ, some (toString 1) = some (toString q) → q = 1 := fun q hq =>
    (toString_injective (Option.some.inj hq)).symm
  have hdone := turn_taken (p := 2) (x := sampleStart "r2") hwriting
    (fun q hq => by rw [hfree q hq]; rfl) rfl List.prefix_rfl
  have hserial := processes_serial hdone
  exact ⟨_, hdone, rfl, by decide +kernel, by decide +kernel, by decide +kernel, hserial.2.1⟩

end MongoSyncAgent.Processes
