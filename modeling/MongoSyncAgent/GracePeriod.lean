import MongoSyncAgent.Obligations

/-!
The grace period of an offset.

`gc_offsets` reads the time of a record and the keys of one run. Over all invocations it comes to
this: an offset is forgotten only if its file was missing from the commit just before, and if the
last commit that had the file is longer ago than `gc_days`, whatever has run and failed in between.
A run that goes well forgets all offsets that it may.
-/

namespace MongoSyncAgent.GracePeriod

open MongoSyncAgent.Py MongoSyncAgent.Config MongoSyncAgent.State MongoSyncAgent.Runtime
open MongoSyncAgent.Timestamps MongoSyncAgent.Outcomes MongoSyncAgent.Sinks MongoSyncAgent.Extract
open MongoSyncAgent.Sources MongoSyncAgent.Ship MongoSyncAgent.Systems MongoSyncAgent.UnitKeys
open MongoSyncAgent.Invocations MongoSyncAgent.Ledgers MongoSyncAgent.WholeCycle
open MongoSyncAgent.Obligations
open MongoSyncAgent.Cycle hiding runCycle

/-- The record that an effect deletes. -/
def deleted : Effect → Option (String × String)
  | .deleteOffset source key => some (source, key)
  | _ => none

/-- Nothing but deletions of records of the source. -/
def OnlyDeletes (source : String) (j : List Effect) : Prop :=
  ∀ e ∈ j, ∃ key, deleted e = some (source, key)

/-- Nothing but deletions of other records of the source. -/
def DeletesOthers (source key : String) (j : List Effect) : Prop :=
  ∀ e ∈ j, ∃ key', key' ≠ key ∧ deleted e = some (source, key')

/-- A record may be deleted after these effects: the last commit of the source has not its key, and
what was there before it is late. -/
inductive MayDelete (late : Datetime → Prop) (s : StateStore) (source key : String) :
    List Effect → Prop
  | mk {before current t' deletes fo t} (habsent : key ∉ current.map (·.fingerprint))
    (hdel : DeletesOthers source key deletes)
    (hrow : ((replay s before).fileOffsets source).lookup key = some fo)
    (hfo : fo.updatedAt = some t) (hlate : late t) :
    MayDelete late s source key (before ++ .setOffsets source current t' :: deletes)

/-- Whatever a journal deletes, it may delete. -/
def Patient (late : String → Datetime → Prop) (s : StateStore) (j : List Effect) : Prop :=
  ∀ before e after source key, j = before ++ e :: after → deleted e = some (source, key) →
    MayDelete (late source) s source key before

/-- A program has made a journal that is patient. -/
def Patiently (late : String → Datetime → Prop) (w w' : World) : Prop :=
  ∃ j, Wrote w w' j ∧ Patient late w.store j

variable {late : String → Datetime → Prop} {lib : Libs} {env : Env} {source : LogSourceConfig}
  {u : S3Uploader} {ctx : RunContext} {gcDays : ℤ} {w w' : World} {s : StateStore}
  {j k : List Effect}

lemma deleted_some {e : Effect} {source key : String} (h : deleted e = some (source, key)) :
    e = .deleteOffset source key := by
  cases e with
  | deleteOffset =>
    obtain ⟨rfl, rfl⟩ := Prod.mk.inj (Option.some.inj h)
    rfl
  | _ => cases h

/-! ### Patience composes -/

lemma patient_of_none (h : ∀ e ∈ j, deleted e = none) : Patient late s j := by
  rintro before e after source key rfl hdel
  cases (h e (List.mem_append_right _ List.mem_cons_self)).symm.trans hdel

lemma MayDelete.append {late : Datetime → Prop} {source key : String}
    (h : MayDelete late (replay s j) source key k) : MayDelete late s source key (j ++ k) := by
  cases h with
  | mk habsent hdel hrow hfo hlate =>
    rw [← replay_append] at hrow
    rw [← List.append_assoc]
    exact .mk habsent hdel hrow hfo hlate

lemma Patient.append (h : Patient late s j) (h' : Patient late (replay s j) k) :
    Patient late s (j ++ k) := by
  intro before e after source key hjk hdel
  rcases List.append_eq_append_iff.mp hjk with ⟨pre, rfl, hk⟩ | ⟨rest, hj, hrest⟩
  · exact (h' pre e after source key hk hdel).append
  · cases rest with
    | nil =>
      obtain rfl : j = before := by simpa using hj
      simpa using (h' [] e after source key hrest.symm hdel).append
    | cons e' rest =>
      obtain ⟨rfl, -⟩ := List.cons.inj hrest
      exact h before e rest source key hj hdel

lemma Patient.take (h : Patient late s j) (n : ℕ) : Patient late s (j.take n) := by
  intro before e after source key hj hdel
  refine h before e (after ++ j.drop n) source key ?_ hdel
  rw [← List.cons_append, ← List.append_assoc, ← hj, List.take_append_drop]

instance reflPatiently : Std.Refl (Patiently late) :=
  ⟨fun _ => ⟨[], .nil, patient_of_none (by simp)⟩⟩

instance transPatiently : IsTrans World (Patiently late) where
  trans := by
    rintro w₁ w₂ w₃ ⟨j, hw, hj⟩ ⟨k, hw', hk⟩
    rw [hw.store] at hk
    exact ⟨j ++ k, hw.trans hw', hj.append hk⟩

lemma patiently_quiet {α : Type} {m : M α} (h : Quiet m) : Within (Patiently late) m :=
  fun w => (h w).mono fun _ _ hw => ⟨[], hw, patient_of_none (by simp)⟩

/-- A program that writes under no key of a source deletes nothing. -/
lemma patiently_owning {α : Type} {m : M α} (key : Option StateKey)
    (hne : ∀ source, key ≠ some (.offsets source)) (h : Within (Owning key) m) :
    Within (Patiently late) m := by
  refine fun w => (h w).mono fun _ w' howning => ?_
  obtain ⟨j, hw, hj⟩ := howning
  refine ⟨j, hw, patient_of_none fun e he => ?_⟩
  cases e with
  | deleteOffset source k =>
    rcases hj _ he with hkey | hkey
    · cases hkey
    · exact absurd hkey.symm (hne source)
  | _ => rfl

/-! ### The garbage collection is patient -/

lemma isStale_iff {current : List String} {cutoff : Datetime} {key : String} {fo : FileOffset} :
    isStale current cutoff key fo = true ↔
      key ∉ current ∧ ∃ t, fo.updatedAt = some t ∧ t.instant < cutoff.instant := by
  unfold isStale
  by_cases hkey : key ∈ current
  · simp [hkey]
  · rcases hfo : fo.updatedAt with _ | t <;> simp [hkey]

lemma days_ok {delta : ℤ} (h : days gcDays = .ok delta) : delta = gcDays * dayMicros := by
  unfold days at h
  split_ifs at h
  · exact (Except.ok.inj h).symm
  · cases h

/-- The loop deletes stale records, each once, and all of them if it ends. -/
lemma gcLoop_spec {name : String} {current : List String} {cutoff : Datetime}
    (items : List (String × FileOffset)) :
    Ensures (gcLoop env name current cutoff items) w fun r w' => ∃ j, Wrote w w' j ∧
      j.Sublist (items.map fun item => .deleteOffset name item.1) ∧
      (∀ e ∈ j, ∃ item ∈ items, e = .deleteOffset name item.1 ∧
        isStale current cutoff item.1 item.2 = true) ∧
      ∀ n, r = .ok n → ∀ item ∈ items, isStale current cutoff item.1 item.2 = true →
        .deleteOffset name item.1 ∈ j := by
  induction items generalizing w with
  | nil => exact ⟨[], .nil, List.nil_sublist _, by simp, by simp⟩
  | cons item rest ih =>
    obtain ⟨key, fo⟩ := item
    unfold gcLoop
    by_cases hs : isStale current cutoff key fo
    · rw [if_pos hs, ensures_bind]
      refine ensures_call (fun e => ⟨[], .nil, List.nil_sublist _, by simp,
        fun n hn => by cases hn⟩) fun _ => ?_
      rw [ensures_bind]
      refine ensures_emit ?_
      have honly : ∀ {j : List Effect}, (∀ e ∈ j, ∃ item ∈ rest, e = .deleteOffset name item.1 ∧
          isStale current cutoff item.1 item.2 = true) → ∀ e ∈ .deleteOffset name key :: j,
          ∃ item ∈ (key, fo) :: rest, e = .deleteOffset name item.1 ∧
            isStale current cutoff item.1 item.2 = true := by
        intro j hj e he
        rcases List.mem_cons.mp he with rfl | he
        · exact ⟨(key, fo), List.mem_cons_self, rfl, hs⟩
        · obtain ⟨item, hitem, hrest⟩ := hj e he
          exact ⟨item, List.mem_cons_of_mem _ hitem, hrest⟩
      refine Ensures.bind ih ?_ ?_
      · rintro e w' ⟨j, hj, honce, hdel, -⟩
        exact ⟨_, hj.cons, honce.cons_cons _, honly hdel, fun n hn => by cases hn⟩
      · rintro n w' ⟨j, hj, honce, hdel, hall⟩
        refine ⟨_, hj.cons, honce.cons_cons _, honly hdel, fun _ _ item hitem hstale => ?_⟩
        rcases List.mem_cons.mp hitem with rfl | hitem
        · exact List.mem_cons_self
        · exact List.mem_cons_of_mem _ (hall n rfl item hitem hstale)
    · rw [if_neg hs]
      refine ih.mono fun r w' h => ?_
      obtain ⟨j, hj, honce, hdel, hall⟩ := h
      refine ⟨j, hj, honce.cons _, fun e he => ?_, fun n hn item hitem hstale => ?_⟩
      · obtain ⟨item, hitem, hrest⟩ := hdel e he
        exact ⟨item, List.mem_cons_of_mem _ hitem, hrest⟩
      · rcases List.mem_cons.mp hitem with rfl | hitem
        · exact absurd hstale hs
        · exact hall n hn item hitem hstale

/-- **Garbage collection** deletes records that are not current and whose time is up, each once,
and all of them if it ends. -/
lemma gcOffsets_spec {name : String} {current : List String} :
    Ensures (gcOffsets env name current gcDays) w fun r w' => ∃ j, Wrote w w' j ∧ j.Nodup ∧
      (∀ e ∈ j, ∃ key fo t, e = .deleteOffset name key ∧ key ∉ current ∧
        (w.store.fileOffsets name).lookup key = some fo ∧ fo.updatedAt = some t ∧
        t.instant + gcDays * dayMicros < (env.clock (.gcNow name)).instant) ∧
      ∀ n, r = .ok n → ∀ key fo t, key ∉ current →
        (w.store.fileOffsets name).lookup key = some fo → fo.updatedAt = some t →
        t.instant + gcDays * dayMicros < (env.clock (.gcNow name)).instant →
        .deleteOffset name key ∈ j := by
  unfold gcOffsets
  rw [ensures_bind]
  refine ensures_lift ?_
  rcases hdays : days gcDays with e | delta
  · exact ⟨[], .nil, .nil, by simp, fun n hn => by cases hn⟩
  simp only [ensures_bind]
  refine ensures_lift ?_
  rcases hsub : (env.clock (.gcNow name)).sub delta with e | cutoff
  · exact ⟨[], .nil, .nil, by simp, fun n hn => by cases hn⟩
  refine ensures_call (fun e => ⟨[], .nil, .nil, by simp, fun n hn => by cases hn⟩) fun _ => ?_
  simp only [ensures_get]
  have hcutoff : cutoff.instant = (env.clock (.gcNow name)).instant - gcDays * dayMicros := by
    rw [(Datetime.sub_ok hsub).1, days_ok hdays]
  refine (gcLoop_spec _).mono fun r w' h => ?_
  obtain ⟨j, hj, honce, hdel, hall⟩ := h
  have hkeys : (w.store.fileOffsets name).keys.Nodup := (w.store.fileOffsets name).keys_nodup
  have hnodup : j.Nodup := by
    refine honce.nodup ?_
    rw [List.map_map]
    have hmap := hkeys.map (f := Effect.deleteOffset name)
      fun a b h => (Effect.deleteOffset.inj h).2
    rwa [AList.keys, List.keys, List.map_map] at hmap
  refine ⟨j, hj, hnodup, fun e he => ?_, fun n hn key fo t hkey hrow hfo ht => ?_⟩
  · obtain ⟨item, hitem, rfl, hs⟩ := hdel e he
    obtain ⟨entry, hentry, rfl⟩ := List.mem_map.mp hitem
    obtain ⟨hkey, t, hfo, ht⟩ := isStale_iff.mp hs
    refine ⟨entry.1, entry.2, t, rfl, hkey, AList.mem_lookup_iff.mpr hentry, hfo, ?_⟩
    omega
  · refine hall n hn (key, fo) ?_ (isStale_iff.mpr ⟨hkey, t, hfo, by omega⟩)
    exact List.mem_map.mpr ⟨⟨key, fo⟩, AList.mem_lookup_iff.mp hrow, rfl⟩

/-- A key of a commit is a current one. -/
lemma mem_currentKeys {parts : List Part} {key : String}
    (h : key ∈ (offsetsToCommit env parts).map (·.fingerprint)) : key ∈ currentKeys parts := by
  obtain ⟨fo, hfo, rfl⟩ := List.mem_map.mp h
  obtain ⟨part, hpart, hkey, -⟩ := CrashSafety.mem_offsetsToCommit hfo
  exact hkey ▸ List.mem_map_of_mem hpart

/-- What the garbage collection deletes after a commit, it may. -/
lemma patient_commit {name : String} {offsets : List FileOffset} {t' : Datetime}
    (honce : j.Nodup)
    (hdel : ∀ e ∈ j, ∃ key fo t, e = .deleteOffset name key ∧
      key ∉ offsets.map (·.fingerprint) ∧
      ((apply s (.setOffsets name offsets t')).fileOffsets name).lookup key = some fo ∧
      fo.updatedAt = some t ∧ late name t) :
    Patient late s (.setOffsets name offsets t' :: j) := by
  intro before e after source key hj he
  cases before with
  | nil =>
    obtain ⟨rfl, -⟩ := List.cons.inj hj
    cases he
  | cons e' deletes =>
    obtain ⟨rfl, rfl⟩ := List.cons.inj hj
    obtain ⟨key', fo, t, rfl, hkey, hrow, hfo, hlate⟩ :=
      hdel e (List.mem_append_right _ List.mem_cons_self)
    obtain ⟨rfl, rfl⟩ := Prod.mk.inj (Option.some.inj he)
    have hold : (s.fileOffsets name).lookup key' = some fo := by
      rcases lookup_after hrow with ⟨_, _, heq, fo', hmem, rfl, -⟩ | ⟨hold, -⟩
      · obtain ⟨-, rfl, -⟩ := Effect.setOffsets.inj heq
        exact absurd (List.mem_map_of_mem hmem) hkey
      · exact hold
    have honly : DeletesOthers name key' deletes := by
      intro e hmem
      obtain ⟨key, -, -, rfl, -⟩ := hdel e (List.mem_append_left _ hmem)
      refine ⟨key, ?_, rfl⟩
      rintro rfl
      exact (List.nodup_append.mp honce).2.2 _ hmem _ List.mem_cons_self rfl
    have hmay : MayDelete (late name) s name key' ([] ++ .setOffsets name offsets t' :: deletes) :=
      .mk hkey honly hold hfo hlate
    exact hmay

lemma patiently_commit {parts : List Part} {path : Path}
    (hlate : ∀ t : Datetime, t.instant + gcDays * dayMicros <
      (env.clock (.gcNow source.name)).instant → late source.name t) :
    Within (Patiently late) (commit env source gcDays parts path) := by
  intro w
  unfold commit setOffsets
  rw [ensures_bind, ensures_bind]
  refine ensures_call (fun e => Std.Refl.refl (r := Patiently late) w) fun _ => ?_
  refine ensures_emit ?_
  refine Ensures.bind (P := fun _ => Patiently late w) (gcOffsets_spec.mono ?_)
    (fun e w₁ h => h) fun n w₁ h => ?_
  · rintro r w₁ ⟨j, hj, honce, hdel, -⟩
    refine ⟨_, hj.cons, patient_commit honce fun e he => ?_⟩
    obtain ⟨key, fo, t, rfl, hkey, hrow, hfo, ht⟩ := hdel e he
    refine ⟨key, fo, t, rfl, fun hmem => hkey (mem_currentKeys hmem), ?_, hfo, hlate t ht⟩
    rw [← hrow]
    simp [World.store, replay_append]
  · exact (patiently_quiet (quiet_unlink path) w₁).mono fun _ _ h' => IsTrans.trans _ _ _ h h'

/-- **A source deletes only what is late**, and that it has just not committed. -/
lemma patiently_shipSource (hlate : ∀ t : Datetime, t.instant + gcDays * dayMicros <
      (env.clock (.gcNow source.name)).instant → late source.name t) :
    Within (Patiently late) (shipSource lib env source u ctx gcDays) := by
  have hcall : ∀ c, Within (Patiently late) (call env c) := fun c =>
    patiently_quiet (quiet_call _ c)
  have hlift : ∀ {α : Type} (x : Except Exc α), Within (Patiently late) (lift x) := by
    rintro α (e | a)
    · exact within_throw e
    · exact within_pure a
  have hup : ∀ {path key}, Within (Patiently late) (upload lib env u path key) :=
    patiently_owning none (by simp) owning_upload
  have habort : ∀ path, Within (Patiently late) (abort env path) := fun path =>
    patiently_quiet (quiet_abort path)
  refine .bind (hcall _) fun _ => .bind within_get fun w => .bind (hlift _) fun parts =>
    .ite (within_pure _) ?_
  refine .bind ?_ fun sink => .bind ?_ fun sink => .bind ?_ fun result => .ite ?_ ?_
  · exact .bind (hcall _) fun _ => .bind (patiently_quiet (quiet_writeFile _ _)) fun _ =>
      within_pure _
  · refine within_cleaningUp (.bind (hcall _) fun _ => .bind within_get fun _ => ?_) (habort _)
    exact .bind (patiently_quiet (quiet_writeFile _ _)) fun _ => within_pure _
  · exact .bind (hcall _) fun _ => .bind within_get fun _ => within_pure _
  · exact .bind (patiently_quiet (quiet_unlink _)) fun _ => within_pure _
  · refine .bind (.tryCatch (hup.bind fun _ => within_pure _) fun e =>
      .ite (within_pure _) (within_throw _)) fun outcome => ?_
    split
    · exact .bind (habort _) fun _ => within_pure _
    · exact .bind (patiently_commit hlate) fun _ => within_pure _

/-! ### Whole invocations -/

/-- A time is late for the grace period that the invocation gives a source. -/
def lateFor (i : Invocation) (source : String) (t : Datetime) : Prop :=
  ∃ x ∈ sourcesOf i.agent i.out i.only, x.1.name = source ∧
    t.instant + i.agent.logs.gcDays * dayMicros < (x.2.clock (.gcNow source)).instant

lemma invocation_patient (i : Invocation) (s : StateStore) :
    Patient (lateFor i) s (i.journal lib s) := by
  have hall : ∀ host, AllWithin (Patiently (lateFor i)) lib { i.ctx with host } i.agent i.out
      i.only i.collection := fun host => {
    collections := fun c _ => patiently_owning _ (by simp) owning_extractCollection
    sources := fun x hx => patiently_shipSource fun t ht => ⟨x, hx, rfl, ht⟩
    metrics := patiently_owning none (by simp) owning_shipMetrics }
  obtain ⟨j, hw, hj⟩ := onWorld_runCycle hall (.start (World.start s) i.spoolDir)
  rw [Invocation.journal_of_wrote hw]
  exact hj.take i.lifetime

/-- An effect that has lasted, and the invocation that it is of, by its number. -/
structure Entry where
  run : ℕ
  invocation : Invocation
  effect : Effect

/-- How many invocations there were, and what has lasted of them. -/
structure History where
  runs : ℕ
  log : List Entry

def effects (log : List Entry) : List Effect := log.map Entry.effect

namespace History

/-- The entries of an invocation more. -/
def entriesOf (lib : Libs) (s : History) (i : Invocation) : List Entry :=
  (i.journal lib (replay .empty (effects s.log))).map fun e => ⟨s.runs, i, e⟩

def next (lib : Libs) (s : History) (i : Invocation) : History :=
  ⟨s.runs + 1, s.log ++ s.entriesOf lib i⟩

end History

/-- Invocations of the agent, with any configurations, from a new state store on. -/
def histories (lib : Libs) : System History Invocation where
  init s := s = ⟨0, []⟩
  step s i s' := s' = s.next lib i

/-- An offset is forgotten with reason: the last commit that has its key is late, and the commit
that the invocation itself has made for the source is without it. -/
inductive Forgotten (run : ℕ) (i : Invocation) (source key : String) : List Entry → Prop
  | mk {before x offsets t since current t' deletes}
    (hcommit : x.effect = .setOffsets source offsets t)
    (hkey : key ∈ offsets.map (·.fingerprint)) (hsince : ∀ y ∈ since, ¬ Touches source key y.effect)
    (habsent : key ∉ current.map (·.fingerprint))
    (hdel : ∀ y ∈ deletes, y.run = run ∧
      ∃ key', key' ≠ key ∧ deleted y.effect = some (source, key'))
    (hlate : lateFor i source t) :
    Forgotten run i source key (before ++ x :: (since ++
      ⟨run, i, .setOffsets source current t'⟩ :: deletes))

/-- The last commit of a key in a journal was at this time, and the record is as it left it. -/
def LastCommit (source key : String) (t : Datetime) (j : List Effect) : Prop :=
  ∃ before offsets since, j = before ++ .setOffsets source offsets t :: since ∧
    key ∈ offsets.map (·.fingerprint) ∧ ∀ e ∈ since, ¬ Touches source key e

/-- **Each record has its last commit**, and the time of it. -/
lemma exists_commit {source key : String} {fo : FileOffset}
    (h : ((replay .empty j).fileOffsets source).lookup key = some fo) :
    ∃ t, fo.updatedAt = some t ∧ LastCommit source key t j := by
  induction j using List.reverseRecOn with
  | nil => cases h
  | append_singleton j e ih =>
    rw [replay_append] at h
    rcases lookup_after h with ⟨offsets, t, rfl, fo', hmem, rfl, rfl⟩ | ⟨hold, ht⟩
    · exact ⟨t, rfl, j, offsets, [], rfl, List.mem_map_of_mem hmem, by simp⟩
    · obtain ⟨t, hfo, before, offsets, since, rfl, hkey, hsince⟩ := ih hold
      refine ⟨t, hfo, before, offsets, since ++ [e], by simp, hkey, fun e' he' => ?_⟩
      rcases List.mem_append.mp he' with he' | he'
      · exact hsince e' he'
      · rw [List.mem_singleton.mp he']
        exact ht

/-- What an invocation may delete after a history is forgotten with reason. -/
lemma forgotten_of_mayDelete {log : List Entry} {run : ℕ} {i : Invocation} {source key : String}
    (h : MayDelete (lateFor i source) (replay .empty (effects log)) source key j) :
    Forgotten run i source key (log ++ j.map fun e => ⟨run, i, e⟩) := by
  cases h with
  | @mk before current t' deletes fo t habsent hdel hrow hfo hlate =>
    have heffects : effects log ++ before =
        effects (log ++ before.map fun e => ⟨run, i, e⟩) := by
      simp [effects, Function.comp_def]
    rw [← replay_append, heffects] at hrow
    obtain ⟨t₀, htime, old, offsets, since, hsplit, hkey, hsince⟩ := exists_commit hrow
    obtain rfl := Option.some.inj (htime.symm.trans hfo)
    obtain ⟨old, rest, hlog, rfl, hrest⟩ := List.map_eq_append_iff.mp hsplit
    obtain ⟨x, since, rfl, hx, rfl⟩ := List.map_eq_cons_iff.mp hrest
    have hwhole : (log ++ (before ++ .setOffsets source current t' :: deletes).map
        fun e => (⟨run, i, e⟩ : Entry)) = old ++ x :: (since ++
          ⟨run, i, .setOffsets source current t'⟩ :: deletes.map fun e => ⟨run, i, e⟩) := by
      rw [List.map_append, ← List.append_assoc, hlog]
      simp
    rw [hwhole]
    refine .mk hx hkey (fun y hy => hsince _ (List.mem_map_of_mem hy)) habsent (fun y hy => ?_)
      hlate
    obtain ⟨e, he, rfl⟩ := List.mem_map.mp hy
    exact ⟨rfl, hdel e he⟩

/-- **No offset is forgotten before its grace period is over**, whatever invocations there have
been, with any configurations, that fail or are killed anywhere. -/
theorem forgotten_after_grace {s : History} {before after : List Entry} {x : Entry}
    {source key : String} (h : (histories lib).Reachable s) (hlog : s.log = before ++ x :: after)
    (hdel : deleted x.effect = some (source, key)) :
    Forgotten x.run x.invocation source key before := by
  induction h generalizing before after with
  | init h =>
    obtain rfl := h
    simp at hlog
  | @step s i s' hr hs ih =>
    obtain rfl := hs
    -- the deletion is one of the last invocation, or was there before it
    have hlast : ∀ pre, s.entriesOf lib i = pre ++ x :: after →
        Forgotten x.run x.invocation source key (s.log ++ pre) := by
      intro pre hj
      obtain ⟨j, rest, hjournal, rfl, hrest⟩ := List.map_eq_append_iff.mp hj
      obtain ⟨e, rest, rfl, rfl, rfl⟩ := List.map_eq_cons_iff.mp hrest
      exact forgotten_of_mayDelete (invocation_patient i _ j e rest source key hjournal hdel)
    rcases List.append_eq_append_iff.mp hlog with ⟨pre, rfl, hj⟩ | ⟨rest, hold, hrest⟩
    · exact hlast pre hj
    · cases rest with
      | nil =>
        obtain rfl : s.log = before := by simpa using hold
        simpa using hlast [] hrest.symm
      | cons y rest =>
        obtain ⟨rfl, -⟩ := List.cons.inj hrest
        exact ih hold

/-! ### Nothing stale is left -/

/-- What deletions leave was there, and is none of what they delete. -/
lemma lookup_deletes {name key : String} {fo : FileOffset} (hj : OnlyDeletes name j)
    (h : ((replay s j).fileOffsets name).lookup key = some fo) :
    (s.fileOffsets name).lookup key = some fo ∧ .deleteOffset name key ∉ j := by
  induction j generalizing s with
  | nil => exact ⟨h, by simp⟩
  | cons e j ih =>
    obtain ⟨hrest, hnot⟩ := ih (fun e he => hj e (List.mem_cons_of_mem _ he)) h
    obtain ⟨key', hkey'⟩ := hj e List.mem_cons_self
    obtain rfl := deleted_some hkey'
    rcases lookup_after hrest with ⟨_, _, heq, -⟩ | ⟨hold, htouches⟩
    · cases heq
    · refine ⟨hold, fun hmem => ?_⟩
      rcases List.mem_cons.mp hmem with heq | hmem
      · obtain ⟨-, rfl⟩ := Effect.deleteOffset.inj heq
        exact htouches ⟨rfl, rfl⟩
      · exact hnot hmem

/-- A commit that returns leaves what it commits, and what is current or in time. -/
lemma commit_clears {parts : List Part} {path : Path} :
    Ensures (commit env source gcDays parts path) w fun r w' => r = .ok () → ∀ key fo,
      (w'.store.fileOffsets source.name).lookup key = some fo →
        ((apply w.store (.setOffsets source.name (offsetsToCommit env parts)
          (env.clock (.setOffsets source.name)))).fileOffsets source.name).lookup key = some fo ∧
        ∀ t, fo.updatedAt = some t → key ∈ currentKeys parts ∨
          (env.clock (.gcNow source.name)).instant ≤ t.instant + gcDays * dayMicros := by
  unfold commit setOffsets
  rw [ensures_bind, ensures_bind]
  refine ensures_call (fun e hr => by cases hr) fun _ => ensures_emit ?_
  refine Ensures.bind gcOffsets_spec (fun e w₁ _ hr => by cases hr) fun n w₁ hcollected => ?_
  refine (quiet_unlink path w₁).mono fun r w₂ h₂ _ key fo hrow => ?_
  obtain ⟨j, hj, -, hdel, hall⟩ := hcollected
  have honly : OnlyDeletes source.name j := by
    intro e he
    obtain ⟨key, -, -, rfl, -⟩ := hdel e he
    exact ⟨key, rfl⟩
  rw [h₂.store, hj.store] at hrow
  obtain ⟨hold, hnot⟩ := lookup_deletes honly hrow
  refine ⟨?_, fun t hfo => ?_⟩
  · rw [World.store, replay_append] at hold
    exact hold
  · by_contra! hstale
    exact hnot (hall n rfl key fo t hstale.1 hold hfo hstale.2)

/-- **A run of a source leaves nothing stale**: whatever journal has led to its store, each record
that it leaves is one of its own commit, or its last commit is within the grace period. -/
theorem no_stale_offsets (hw : w.store = replay .empty j) (hreal : ctx.dryRun = false)
    {res : UnitResult} (hok : res.status = .ok)
    (h : exec (shipSource lib env source u ctx gcDays) w = (.ok res, w')) :
    ∃ parts, drainPlans lib env source (discover lib env source
        (w.store.fileOffsets source.name)) = .ok parts ∧
      ∀ key fo, (w'.store.fileOffsets source.name).lookup key = some fo →
        key ∈ currentKeys parts ∨ ∃ t, LastCommit source.name key t j ∧
          (env.clock (.gcNow source.name)).instant ≤ t.instant + gcDays * dayMicros := by
  have hgood : res.status ≠ .failed := by
    rw [hok]
    exact fun heq => by cases heq
  obtain ⟨parts, hparts, ⟨-, hempty, -⟩ | ⟨w₁, hput, hclears⟩⟩ :=
    ship_of_commit (fun _ _ _ => commit_clears) hreal h hgood
  · rw [hok] at hempty
    cases hempty
  refine ⟨parts, hparts, fun key fo hrow => ?_⟩
  obtain ⟨hold, htime⟩ := hclears key fo hrow
  have hstore : w₁.store = w.store := hput.store
  rw [hstore] at hold
  rcases lookup_after hold with ⟨offsets, t, heq, fo', hmem, rfl, -⟩ | ⟨hold, -⟩
  · obtain ⟨-, rfl, -⟩ := Effect.setOffsets.inj heq
    exact .inl (mem_currentKeys (List.mem_map_of_mem hmem))
  · rw [hw] at hold
    obtain ⟨t, hfo, hlast⟩ := exists_commit hold
    exact (htime t hfo).imp_right fun hle => ⟨t, hlast, hle⟩

/-! ### A file that is gone -/

/-- A poll of the only source, over some files and at some time. -/
def samplePoll (fs : FS) (now : Datetime) : Invocation where
  env := ExitCodes.calmSurroundings
  ctx := { sampleCtx with runDt := now }
  agent := DryRun.sampleAgent 14
  out := { DryRun.sampleOutside with source := fun _ => calmEnv fs now }
  only := none
  collection := none
  spoolDir := some none
  lifetime := 9

def sampleFirst : Invocation := samplePoll (AList.singleton "a.log" ⟨[97, 10], 0, true⟩) sampleNow

/-- Fifteen days later there is another file. -/
def laterNow : Datetime := ⟨63000000000000000 + 15 * dayMicros, some 0, by decide⟩

def laterFiles : FS := AList.singleton "b.log" ⟨[98, 10], 0, true⟩

def sampleSecond : Invocation := samplePoll laterFiles laterNow

def sampleHistory : History :=
  (History.next plainLibs ⟨0, []⟩ sampleFirst).next plainLibs sampleSecond

/-- The second poll ends with forgetting the offset of the file that is gone. -/
theorem forgotten_after_grace_sample : ∃ before x after, sampleHistory.log = before ++ x :: after ∧
    x.run = 1 ∧ deleted x.effect = some ("web", "path:a.log") ∧
    Forgotten 1 x.invocation "web" "path:a.log" before := by
  have hfirst : (histories plainLibs).Reachable (History.next plainLibs ⟨0, []⟩ sampleFirst) :=
    .step (.init rfl) (e := sampleFirst) rfl
  have hreach : (histories plainLibs).Reachable sampleHistory :=
    hfirst.step (e := sampleSecond) rfl
  have hlast : sampleHistory.log[4]?.map (fun x => (x.run, deleted x.effect)) =
      some (1, some ("web", "path:a.log")) := by decide +kernel
  obtain ⟨x, hx, hpair⟩ := Option.map_eq_some_iff.mp hlast
  obtain ⟨hrun, hdel⟩ := Prod.mk.inj hpair
  obtain ⟨hlt, rfl⟩ := List.getElem?_eq_some_iff.mp hx
  have hlog : sampleHistory.log =
      sampleHistory.log.take 4 ++ sampleHistory.log[4] :: sampleHistory.log.drop 5 := by
    rw [List.getElem_cons_drop, List.take_append_drop]
  exact ⟨_, _, _, hlog, hrun, hdel, hrun ▸ forgotten_after_grace hreach hlog hdel⟩

/-- The run of the source that does so. -/
def sampleShip : Except Exc UnitResult × World :=
  exec (shipSource plainLibs (calmEnv laterFiles laterNow) { name := "web", pathGlob := "*.log" }
    sampleUploader sampleCtx 14)
    (World.start (replay .empty (sampleFirst.journal plainLibs .empty)))

/-- It leaves the offset of the other file only. -/
theorem no_stale_offsets_sample : ∃ res w' parts, sampleShip = (.ok res, w') ∧
    ((w'.store.fileOffsets "web").lookup "path:a.log").isNone ∧
    ∀ key fo, (w'.store.fileOffsets "web").lookup key = some fo → key ∈ currentKeys parts ∨
      ∃ t, LastCommit "web" key t (sampleFirst.journal plainLibs .empty) ∧
        laterNow.instant ≤ t.instant + 14 * dayMicros := by
  have hok : sampleShip.1.toOption.map (·.status) = some .ok := by decide +kernel
  have hnone : ((sampleShip.2.store.fileOffsets "web").lookup "path:a.log").isNone := by
    decide +kernel
  rcases hrun : sampleShip with ⟨e | res, w'⟩
  · rw [hrun] at hok
    cases hok
  rw [hrun] at hok hnone
  obtain ⟨parts, -, hleft⟩ := no_stale_offsets rfl rfl (Option.some.inj hok) hrun
  exact ⟨res, w', parts, rfl, hnone, hleft⟩

end MongoSyncAgent.GracePeriod
