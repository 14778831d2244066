import MongoSyncAgent.Invocations
import MongoSyncAgent.UnitKeys

/-!
What the exit code 0 says of the units: each one that was selected ran to its end, and none failed.

A unit that is never reached cannot pass for one that did nothing, and no handler turns a failure
into a success.
-/

namespace MongoSyncAgent.EveryUnit

open MongoSyncAgent.Py MongoSyncAgent.Config MongoSyncAgent.Runtime MongoSyncAgent.Outcomes
open MongoSyncAgent.Sinks MongoSyncAgent.Extract MongoSyncAgent.Ship MongoSyncAgent.RunCycle
open MongoSyncAgent.Invocations MongoSyncAgent.UnitKeys
open MongoSyncAgent.Cycle hiding runCycle

/-- No result is that of a failed unit. -/
def Successful (results : List UnitResult) : Prop := ∀ x ∈ results, x.status ≠ .failed

variable (R : World → World → Prop)

/-- On the way from one world to the other the unit ran, and it did not fail. -/
inductive Ran (body : M UnitResult) (w w' : World) : Prop
  | mk {w₁ w₂ res} (before : R w w₁) (run : exec body w₁ = (.ok res, w₂))
    (good : res.status ≠ .failed) (after : R w₂ w')

variable {R} {lib : Libs} {u : S3Uploader} {ctx : RunContext} {conn : Connection}
  {dbName unit : String} {w w' : World} {results : List UnitResult} {res : UnitResult}
  {body : M UnitResult}

lemma exitCode_zero : exitCode results = 0 ↔ Successful results := by
  simp [exitCode, Successful]

lemma moved {α : Type} {m : M α} {r : Except Exc α} (h : Within R m)
    (hm : exec m w = (r, w')) : R w w' := by
  have hw := h w
  unfold Ensures at hw
  rwa [hm] at hw

lemma Ran.trans [IsTrans World R] {w₁ w₂ : World} (hw : R w w₁) (h : Ran R body w₁ w₂)
    (hw' : R w₂ w') : Ran R body w w' := by
  obtain ⟨before, run, good, after⟩ := h
  exact ⟨IsTrans.trans _ _ _ hw before, run, good, IsTrans.trans _ _ _ after hw'⟩

/-- Both relations at once. -/
def Both (R S : World → World → Prop) (w w' : World) : Prop := R w w' ∧ S w w'

section Both

variable {S : World → World → Prop}

instance reflBoth [Std.Refl R] [Std.Refl S] : Std.Refl (Both R S) :=
  ⟨fun w => ⟨Std.Refl.refl w, Std.Refl.refl w⟩⟩

instance transBoth [IsTrans World R] [IsTrans World S] : IsTrans World (Both R S) where
  trans _ w _ h h' := ⟨IsTrans.trans _ w _ h.1 h'.1, IsTrans.trans _ w _ h.2 h'.2⟩

lemma within_both {α : Type} {m : M α} (h : Within R m) (h' : Within S m) : Within (Both R S) m :=
  fun w => (h w).and (h' w)

lemma allWithin_both {a : AgentConfig} {out : Outside} {only : Option (List String)}
    {collection : Option String} (h : AllWithin R lib ctx a out only collection)
    (h' : AllWithin S lib ctx a out only collection) :
    AllWithin (Both R S) lib ctx a out only collection where
  collections c hc := within_both (h.collections c hc) (h'.collections c hc)
  sources x hx := within_both (h.sources x hx) (h'.sources x hx)
  metrics := within_both h.metrics h'.metrics

end Both

/-! ### Units that are isolated -/

lemma raising_ok {x : Option Exc} (h : exec (raising x) w = (.ok (), w')) : x = none ∧ w' = w := by
  rcases x with _ | e
  · cases h
    exact ⟨rfl, rfl⟩
  · cases h

lemma isolating_ok (h : exec (isolating unit body) w = (.ok res, w'))
    (hgood : res.status ≠ .failed) : exec body w = (.ok res, w') := by
  unfold isolating at h
  rw [exec_tryCatch] at h
  rcases hbody : exec body w with ⟨e | res', w₁⟩
  · rw [hbody] at h
    simp only at h
    split_ifs at h
    · cases h
      exact absurd rfl hgood
    · cases h
  · rw [hbody] at h
    exact h

lemma extractUnit_ok {cfg : CollectionConfig} {env : Env}
    (h : exec (extractUnit lib u ctx conn dbName cfg env) w = (.ok res, w'))
    (hgood : res.status ≠ .failed) :
    exec (extractCollection lib env cfg u ctx dbName) w = (.ok res, w') := by
  unfold extractUnit at h
  split_ifs at h
  · cases h
    exact absurd rfl hgood
  · obtain ⟨⟨⟩, w₁, hconn, hrun⟩ := ok_of_bind (isolating_ok h hgood)
    obtain ⟨-, rfl⟩ := raising_ok hconn
    exact hrun

section Units

variable [Std.Refl R] [IsTrans World R]

lemma ran_extractUnits {cs : Collections}
    (hR : ∀ c ∈ cs, Within R (extractCollection lib c.2 c.1 u ctx dbName))
    (h : exec (extractUnits lib u ctx conn dbName cs) w = (.ok results, w'))
    (hgood : Successful results) :
    ∀ c ∈ cs, Ran R (extractCollection lib c.2 c.1 u ctx dbName) w w' := by
  induction cs generalizing w results with
  | nil => exact fun c hc => by cases hc
  | cons c cs ih =>
    obtain ⟨res, w₁, hunit, hrest⟩ := ok_of_bind h
    obtain ⟨rest, w₂, hunits, hend⟩ := ok_of_bind hrest
    cases hend
    have hR' : ∀ d ∈ cs, Within R (extractCollection lib d.2 d.1 u ctx dbName) :=
      fun d hd => hR d (List.mem_cons_of_mem _ hd)
    have hgood₁ : res.status ≠ .failed := hgood res List.mem_cons_self
    have hmoved := moved (within_extractUnit (hR c List.mem_cons_self)) hunit
    intro d hd
    rcases List.mem_cons.mp hd with rfl | hd
    · refine ⟨Std.Refl.refl w, extractUnit_ok hunit hgood₁, hgood₁, ?_⟩
      exact moved (within_extractUnits hR') hunits
    · refine (ih hR' hunits (fun x hx => ?_) d hd).trans hmoved (Std.Refl.refl _)
      exact hgood x (List.mem_cons_of_mem _ hx)

lemma ran_extractAll {cs : Collections}
    (hR : ∀ c ∈ cs, Within R (extractCollection lib c.2 c.1 u ctx dbName))
    (h : exec (extractAll lib u ctx conn dbName cs) w = (.ok results, w'))
    (hgood : Successful results) :
    ∀ c ∈ cs, Ran R (extractCollection lib c.2 c.1 u ctx dbName) w w' := by
  -- a collection that is not extracted is listed as failed
  have hfailed : ∀ (text : String) (w₁ : World),
      (Except.ok (cs.map fun c => failedUnit c.1.name text), w₁) =
        ((.ok results : Except Exc (List UnitResult)), w') → ∀ c ∈ cs, False := by
    intro text w₁ heq c hc
    cases heq
    exact hgood _ (List.mem_map_of_mem hc) rfl
  unfold extractAll at h
  rcases hconn : conn.connect with e | _ | _
  · rw [hconn] at h
    simp only at h
    split_ifs at h
    · exact fun c hc => (hfailed _ _ h c hc).elim
    · cases h
  · rw [hconn] at h
    exact fun c hc => (hfailed _ _ h c hc).elim
  · rw [hconn] at h
    obtain ⟨units, w₁, hunits, hclose⟩ := ok_of_bind h
    obtain ⟨⟨⟩, w₂, hraised, hend⟩ := ok_of_bind hclose
    obtain ⟨-, rfl⟩ := raising_ok hraised
    cases hend
    rw [exec_tryCatch] at hunits
    rcases hbody : exec (extractUnits lib u ctx conn dbName cs) w with ⟨e | units', w₃⟩
    · rw [hbody] at hunits
      obtain ⟨⟨⟩, w₄, -, hthrow⟩ := ok_of_bind hunits
      cases hthrow
    · rw [hbody] at hunits
      cases hunits
      exact ran_extractUnits hR hbody hgood

lemma ran_shipUnits {gcDays : ℤ} {xs : LogSources}
    (hR : ∀ x ∈ xs, Within R (shipSource lib x.2 x.1 u ctx gcDays))
    (h : exec (shipUnits lib u ctx gcDays xs) w = (.ok results, w'))
    (hgood : Successful results) :
    ∀ x ∈ xs, Ran R (shipSource lib x.2 x.1 u ctx gcDays) w w' := by
  induction xs generalizing w results with
  | nil => exact fun x hx => by cases hx
  | cons x xs ih =>
    obtain ⟨res, w₁, hunit, hrest⟩ := ok_of_bind h
    obtain ⟨rest, w₂, hunits, hend⟩ := ok_of_bind hrest
    cases hend
    have hR' : ∀ y ∈ xs, Within R (shipSource lib y.2 y.1 u ctx gcDays) :=
      fun y hy => hR y (List.mem_cons_of_mem _ hy)
    have hgood₁ : res.status ≠ .failed := hgood res List.mem_cons_self
    have hmoved := moved (within_isolating (hR x List.mem_cons_self)) hunit
    intro y hy
    rcases List.mem_cons.mp hy with rfl | hy
    · refine ⟨Std.Refl.refl w, isolating_ok hunit hgood₁, hgood₁, ?_⟩
      exact moved (within_shipUnits hR') hunits
    · refine (ih hR' hunits (fun z hz => ?_) y hy).trans hmoved (Std.Refl.refl _)
      exact hgood z (List.mem_cons_of_mem _ hz)

end Units

/-! ### The modules -/

variable {env : Surroundings} {a : AgentConfig} {out : Outside} {only : Option (List String)}
  {collection : Option String} {s s' : Machine}

lemma sampled_ok {module : String} {units : Run (List UnitResult)}
    (h : exec (sampled env module units) s = (.ok results, s')) :
    exec units s = (.ok results, s') := by
  obtain ⟨-, h⟩ := step_bind_ok.mp h
  obtain ⟨-, h⟩ := step_bind_ok.mp h
  obtain ⟨units', s₁, hunits, h⟩ := ok_of_bind h
  obtain ⟨-, h⟩ := step_bind_ok.mp h
  cases h
  exact hunits

lemma inWorld_ok {α : Type} {m : M α} {r : α} (h : exec (inWorld m) s = (.ok r, s')) :
    exec m s.world = (.ok r, s'.world) := by
  rw [exec_inWorld] at h
  obtain ⟨hr, rfl⟩ := Prod.mk.inj h
  exact Prod.ext hr rfl

/-- What the units of a run are to do, from one world to another. -/
structure AllRan (R : World → World → Prop) (lib : Libs) (ctx : RunContext) (a : AgentConfig)
    (out : Outside) (only : Option (List String)) (collection : Option String) (w w' : World) :
    Prop where
  collections : ∀ c ∈ collectionsOf a out only collection,
    Ran R (extractCollection lib c.2 c.1 (uploaderOf a) ctx (databaseOf a)) w w'
  sources : ∀ x ∈ sourcesOf a out only,
    Ran R (shipSource lib x.2 x.1 (uploaderOf a) ctx a.logs.gcDays) w w'
  metrics : selected only "hostmetrics" ∧ a.hostmetrics.enabled →
    Ran R (shipMetrics lib (uploaderOf a) ctx out.host out.metrics) w w'

section Modules

variable [Std.Refl R] [IsTrans World R] (hR : AllWithin R lib ctx a out only collection)

include hR

lemma mongoModule_ok
    (h : exec (mongoModule env lib ctx a out only collection (uploaderOf a)) s = (.ok results, s'))
    (hgood : Successful results) :
    R s.world s'.world ∧ ∀ c ∈ collectionsOf a out only collection,
      Ran R (extractCollection lib c.2 c.1 (uploaderOf a) ctx (databaseOf a)) s.world s'.world := by
  have hwithin := hR.collections
  unfold mongoModule at h
  unfold collectionsOf databaseOf at hwithin ⊢
  split_ifs at h hwithin ⊢ with hsel
  · obtain ⟨mongo, hm⟩ := Option.isSome_iff_exists.mp hsel.2
    have hunits := inWorld_ok (sampled_ok h)
    unfold mongoUnits at hunits
    rw [if_pos hsel.1, hm] at hunits
    rw [hm] at hwithin ⊢
    exact ⟨moved (within_extractAll hwithin) hunits, ran_extractAll hwithin hunits hgood⟩
  · cases h
    exact ⟨Std.Refl.refl _, fun c hc => by cases hc⟩

lemma logsModule_ok
    (h : exec (logsModule env lib ctx a out only (uploaderOf a)) s = (.ok results, s'))
    (hgood : Successful results) :
    R s.world s'.world ∧ ∀ x ∈ sourcesOf a out only,
      Ran R (shipSource lib x.2 x.1 (uploaderOf a) ctx a.logs.gcDays) s.world s'.world := by
  have hwithin := hR.sources
  unfold logsModule at h
  unfold sourcesOf at hwithin ⊢
  split_ifs at h hwithin ⊢ with hsel
  · have hunits := inWorld_ok (sampled_ok h)
    unfold logUnits shipAll at hunits
    rw [if_pos hsel, if_pos hsel.2] at hunits
    exact ⟨moved (within_shipUnits hwithin) hunits, ran_shipUnits hwithin hunits hgood⟩
  · cases h
    exact ⟨Std.Refl.refl _, fun x hx => by cases hx⟩

omit [IsTrans World R] in
lemma hostModule_ok
    (h : exec (hostModule env lib ctx a out only (uploaderOf a)) s = (.ok results, s'))
    (hgood : Successful results) :
    R s.world s'.world ∧ (selected only "hostmetrics" ∧ a.hostmetrics.enabled →
      Ran R (shipMetrics lib (uploaderOf a) ctx out.host out.metrics) s.world s'.world) := by
  unfold hostModule at h
  split_ifs at h with hsel
  · obtain ⟨-, hrun⟩ := step_bind_ok.mp (sampled_ok h)
    have hunits := inWorld_ok hrun
    unfold hostUnits at hunits
    rw [if_pos hsel] at hunits
    obtain ⟨res, w₁, hship, hend⟩ := ok_of_bind hunits
    cases hend
    have hmoved : R s.world s'.world := moved hR.metrics hship
    refine ⟨hmoved, fun _ => ⟨Std.Refl.refl _, hship, ?_, Std.Refl.refl _⟩⟩
    exact hgood res List.mem_cons_self
  · cases h
    exact ⟨Std.Refl.refl _, fun h => absurd h hsel⟩

/-- Modules that end with results of which none failed. -/
lemma modules_ok (h : exec (modules env lib ctx a out only collection) s = (.ok results, s'))
    (hgood : Successful results) :
    AllRan R lib ctx a out only collection s.world s'.world := by
  unfold modules at h
  obtain ⟨⟨⟩, s₁, hsetup, h⟩ := ok_of_bind h
  obtain ⟨-, hw₁⟩ := raising_ok (inWorld_ok hsetup)
  obtain ⟨⟨⟩, s₂, hspool, h⟩ := ok_of_bind h
  have hw₂ : s₂.world = s₁.world := by
    obtain ⟨-, hmodify⟩ := step_bind_ok.mp hspool
    cases hmodify
    rfl
  obtain ⟨-, h⟩ := step_bind_ok.mp h
  obtain ⟨-, h⟩ := step_bind_ok.mp h
  obtain ⟨mongo, s₃, hmongo, h⟩ := ok_of_bind h
  obtain ⟨logs, s₄, hlogs, h⟩ := ok_of_bind h
  obtain ⟨host, s₅, hhost, h⟩ := ok_of_bind h
  obtain ⟨-, h⟩ := step_bind_ok.mp h
  obtain ⟨⟨⟩, s₆, hrecord, hend⟩ := ok_of_bind h
  obtain ⟨-, hw₆⟩ := raising_ok (inWorld_ok hrecord)
  cases hend
  obtain ⟨hr₃, hcollections⟩ := mongoModule_ok hR hmongo fun x hx =>
    hgood x (List.mem_append_left _ (List.mem_append_left _ hx))
  obtain ⟨hr₄, hsources⟩ := logsModule_ok hR hlogs fun x hx =>
    hgood x (List.mem_append_left _ (List.mem_append_right _ hx))
  obtain ⟨hr₅, hmetrics⟩ := hostModule_ok hR hhost fun x hx =>
    hgood x (List.mem_append_right _ hx)
  rw [← hw₁, ← hw₂, hw₆]
  have hbefore : R s₂.world s₄.world := IsTrans.trans _ _ _ hr₃ hr₄
  have hafter : R s₃.world s₅.world := IsTrans.trans _ _ _ hr₄ hr₅
  exact ⟨fun c hc => (hcollections c hc).trans (Std.Refl.refl _) hafter,
    fun x hx => (hsources x hx).trans hr₃ hr₅,
    fun hsel => (hmetrics hsel).trans hbefore (Std.Refl.refl _)⟩

end Modules

/-- **The exit code 0 means that every unit ran**, and that none failed. -/
theorem allRan_of_exit_zero [Std.Refl R] [IsTrans World R]
    (hR : AllWithin R lib { ctx with host := hostOf env a } a out only collection)
    (h : exec (runCycle env lib ctx a out only collection) s = (.ok 0, s')) :
    AllRan R lib { ctx with host := hostOf env a } a out only collection s.world s'.world := by
  unfold runCycle at h
  obtain ⟨host, s₁, hhost, hrun⟩ := ok_of_bind h
  obtain ⟨-, rfl, rfl⟩ := hostName_ok.mp hhost
  clear h
  obtain ⟨named, s₂, hacquire, h⟩ := ok_of_bind hrun
  clear hrun
  rcases named with _ | pid
  · obtain ⟨-, -, -, rfl⟩ := acquire_taken.mp hacquire
    obtain ⟨-, h⟩ := step_bind_ok.mp h
    obtain ⟨-, h⟩ := step_bind_ok.mp h
    obtain ⟨-, h⟩ := step_bind_ok.mp h
    obtain ⟨code, s₃, hbody, h⟩ := ok_of_bind h
    obtain ⟨⟨⟩, s₄, hrelease, hend⟩ := ok_of_bind h
    obtain ⟨-, rfl⟩ := release_ok.mp hrelease
    cases hend
    -- the body ended with the code, as its handler only raises
    rw [exec_tryCatch] at hbody
    generalize hguarded : exec (guarded env lib _ a out only collection) _ = end_ at hbody
    rcases end_ with ⟨e | code, s₄⟩
    · obtain ⟨⟨⟩, s₅, -, hthrow⟩ := ok_of_bind hbody
      cases hthrow
    cases hbody
    unfold guarded at hguarded
    rw [exec_tryCatch] at hguarded
    generalize hmodules : exec (do return exitCode (← modules env lib _ a out only collection) :
      Run ℕ) _ = end_ at hguarded
    rcases end_ with ⟨e | code, s₄⟩
    · simp only at hguarded
      split_ifs at hguarded <;> cases hguarded
    cases hguarded
    obtain ⟨units, s₅, hunits, hcode⟩ := ok_of_bind hmodules
    obtain ⟨hzero, rfl⟩ := Prod.mk.inj hcode
    have hran := modules_ok hR hunits (exitCode_zero.mp (Except.ok.inj hzero))
    exact hran
  · cases h

end MongoSyncAgent.EveryUnit
