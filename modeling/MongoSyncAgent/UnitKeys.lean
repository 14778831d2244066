import MongoSyncAgent.Cycle
import MongoSyncAgent.Isolation
import MongoSyncAgent.LogRuns

/-!
Where the units of a cycle write to: the key of the upload, and the key in the state store.

Both are built from the kind and the name of the unit alone. So the units of a cycle keep apart
where the configuration names no collection twice and no source twice, and `load_config` does not
ask for that.
-/

namespace MongoSyncAgent.UnitKeys

open MongoSyncAgent.Py MongoSyncAgent.Config MongoSyncAgent.Runtime MongoSyncAgent.Sinks
open MongoSyncAgent.Extract MongoSyncAgent.Ship MongoSyncAgent.Keys MongoSyncAgent.Outcomes
open MongoSyncAgent.Sources MongoSyncAgent.LoadConfig MongoSyncAgent.Cycle MongoSyncAgent.Isolation

/-! ### Units and their keys -/

/-- A unit of a cycle, by its kind and its name. -/
inductive RunUnit
  | collection (name : String)
  | source (name : String)
  | host
  deriving DecidableEq

inductive StateKey
  | watermark (namespace_ : String)
  | offsets (source : String)
  deriving DecidableEq

namespace RunUnit

/-- The name under which a unit is reported. -/
def name : RunUnit → String
  | .collection name => name
  | .source name => name
  | .host => "hostmetrics"

def s3Key (pre dbName : String) (runDt : Timestamps.Datetime) : RunUnit → String
  | .collection name => mongoKey pre dbName name runDt
  | .source name => logsKey pre name runDt
  | .host => hostmetricsKey pre runDt

def stateKey (dbName : String) : RunUnit → Option StateKey
  | .collection name => some (.watermark ("mongo:" ++ dbName ++ "." ++ name))
  | .source name => some (.offsets name)
  | .host => none

end RunUnit

/-- The key of the state store under which an effect writes. -/
def stateKeyOf : Effect → Option StateKey
  | .put _ => none
  | .setWatermark ns _ => some (.watermark ns)
  | .setOffsets source _ _ => some (.offsets source)
  | .deleteOffset source _ => some (.offsets source)

/-- The effects of a journal write under no other key. -/
def Owned (key : Option StateKey) (j : List Effect) : Prop :=
  ∀ e ∈ j, stateKeyOf e = none ∨ stateKeyOf e = key

section Keys

variable {pre dbName : String} {runDt : Timestamps.Datetime}

/-- **Keys determine their units**, among the keys of one run. -/
lemma s3Key_injective : Function.Injective (RunUnit.s3Key pre dbName runDt) := by
  intro x y h
  have hlist := congrArg String.toList h
  rcases x with n | n | _ <;> rcases y with m | m | _ <;>
    simp [RunUnit.s3Key, mongoKey, logsKey, hostmetricsKey, String.toList_inj] at hlist ⊢ <;>
    exact hlist

lemma stateKey_some {x y : RunUnit} {k : StateKey} (hx : x.stateKey dbName = some k)
    (hy : y.stateKey dbName = some k) : x = y := by
  rcases x with n | n | _ <;> rcases y with m | m | _ <;>
    simp only [RunUnit.stateKey, Option.some.injEq, reduceCtorEq] at hx hy <;> subst hx
  · have hname := (StateKey.watermark.inj hy).symm
    have hlist := congrArg String.toList hname
    simpa [String.toList_inj] using hlist
  · cases hy
  · cases hy
  · rw [(StateKey.offsets.inj hy)]

lemma stateKey_none {x : RunUnit} (h : x.stateKey dbName = none) : x = .host := by
  cases x with
  | host => rfl
  | _ => cases h

/-- State keys are apart where units are, if the metrics are collected but once. -/
lemma stateKeys_nodup {units : List RunUnit} (hhost : units.count .host ≤ 1) :
    (units.filterMap (RunUnit.stateKey dbName)).Nodup ↔ units.Nodup := by
  induction units with
  | nil => simp
  | cons x units ih =>
    rw [List.count_cons] at hhost
    have ih := ih (by omega)
    rcases hx : x.stateKey dbName with _ | k
    · obtain rfl := stateKey_none hx
      have hnot : RunUnit.host ∉ units := by
        rw [← List.count_eq_zero]
        simpa using hhost
      rw [List.filterMap_cons_none hx, ih, List.nodup_cons]
      exact ⟨fun h => ⟨hnot, h⟩, fun h => h.2⟩
    · have hmem : k ∈ units.filterMap (RunUnit.stateKey dbName) ↔ x ∈ units := by
        rw [List.mem_filterMap]
        constructor
        · rintro ⟨y, hy, hk⟩
          rwa [stateKey_some hx hk]
        · exact fun hmem => ⟨x, hmem, hx⟩
      rw [List.filterMap_cons_some hx, List.nodup_cons, List.nodup_cons, ih, hmem]

end Keys

/-! ### What one unit uploads -/

variable {lib : Libs} {env : Env} {u : S3Uploader} {ctx : RunContext} {dbName : String}

/-- At most one upload, under this key, and one if the unit is reported as `ok`; and what is
stored is under the other key. -/
def UploadsOnce (key : String) (state : Option StateKey) (unit : String)
    (r : Except Exc UnitResult) (w w' : World) : Prop :=
  ∃ j, Wrote w w' j ∧ (puts j = [] ∨ ∃ content, puts j = [⟨key, content⟩]) ∧ Owned state j ∧
    ∀ res, r = .ok res → res.unit = unit ∧ (res.status = .ok → puts j ≠ [])

section Once

variable {key unit : String} {state : Option StateKey} {e : Exc} {res : UnitResult} {w w' : World}
  {j k : List Effect} {p : Put} {content : Content}

lemma owned_nil : Owned state [] := fun _ h => by cases h

lemma Owned.append (hj : Owned state j) (hk : Owned state k) : Owned state (j ++ k) := by
  intro e he
  exact (List.mem_append.mp he).elim (hj e) (hk e)

lemma owned_put : Owned state [.put p] := fun e he => by
  rw [List.mem_singleton.mp he]
  exact .inl rfl

lemma owned_singleton {e : Effect} (h : stateKeyOf e = state) : Owned state [e] := fun e' he => by
  rw [List.mem_singleton.mp he]
  exact .inr h

lemma owned_deletions {source : String} {currentKeys : List String} {deletes : List Effect}
    (h : Deletions source currentKeys deletes) :
    Owned (some (.offsets source)) deletes := by
  intro e he
  obtain ⟨key, rfl, -⟩ := h e he
  exact .inr rfl

lemma uploadsOnce_quietError (h : Wrote w w' []) : UploadsOnce key state unit (.error e) w w' :=
  ⟨[], h, .inl rfl, owned_nil, fun _ hr => by cases hr⟩

lemma uploadsOnce_error (h : Wrote w w' j) (hj : puts j = [⟨key, content⟩])
    (ho : Owned state j) : UploadsOnce key state unit (.error e) w w' :=
  ⟨j, h, .inr ⟨_, hj⟩, ho, fun _ hr => by cases hr⟩

lemma uploadsOnce_quiet (h : Wrote w w' []) (hunit : res.unit = unit) (hstatus : res.status ≠ .ok) :
    UploadsOnce key state unit (.ok res) w w' := by
  refine ⟨[], h, .inl rfl, owned_nil, fun res' hr => ?_⟩
  obtain rfl := Except.ok.inj hr
  exact ⟨hunit, fun hok => absurd hok hstatus⟩

lemma uploadsOnce_put (h : Wrote w w' j) (hj : puts j = [⟨key, content⟩]) (ho : Owned state j)
    (hunit : res.unit = unit) : UploadsOnce key state unit (.ok res) w w' := by
  refine ⟨j, h, .inr ⟨content, hj⟩, ho, fun res' hr => ?_⟩
  obtain rfl := Except.ok.inj hr
  exact ⟨hunit, fun _ => by rw [hj]; exact List.cons_ne_nil _ _⟩

end Once

lemma puts_append (j k : List Effect) : puts (j ++ k) = puts j ++ puts k :=
  List.filterMap_append

/-- A spool file is uploaded, and what follows a confirmed upload uploads nothing. -/
lemma uploading_uploads {key unit : String} {state : Option StateKey} {w w₁ : World} {path : Path}
    {content : Content}
    {uploading : M (Except Exc UploadResult)} {rest : M Unit} {failed : Exc → UnitResult}
    {done : UploadResult → UnitResult} (hw : Wrote w w₁ [])
    (hup : Ensures uploading w₁ fun r w' =>
      (∀ res, r ≠ .ok (.ok res)) ∧ Wrote w₁ w' [] ∨ Wrote w₁ w' [.put ⟨key, content⟩])
    (hfailed : ∀ e, (failed e).unit = unit ∧ (failed e).status = .failed)
    (hrest : ∀ w', Ensures rest w' fun _ w'' => ∃ j, Wrote w' w'' j ∧ puts j = [] ∧ Owned state j)
    (hdone : ∀ res, (done res).unit = unit) :
    Ensures (do
      match ← uploading with
      | .error e =>
        abort env path
        return failed e
      | .ok res =>
        rest
        return done res) w₁ (UploadsOnce key state unit · w ·) := by
  refine Ensures.bind hup ?_ ?_
  · rintro e w₂ (⟨-, h₂⟩ | h₂)
    · exact uploadsOnce_quietError (hw.trans h₂)
    · exact uploadsOnce_error (hw.trans h₂) rfl owned_put
  rintro (e | res) w₂ h₂
  · refine Ensures.bind (quiet_abort _ w₂) (fun e w₃ h₃ => ?_) fun _ w₃ h₃ => ?_ <;>
      rcases h₂ with ⟨-, h₂⟩ | h₂
    · exact uploadsOnce_quietError (hw.trans (h₂.trans h₃))
    · exact uploadsOnce_error (hw.trans (h₂.trans h₃)) rfl owned_put
    · exact uploadsOnce_quiet (hw.trans (h₂.trans h₃)) (hfailed e).1 fun h => by
        rw [(hfailed e).2] at h
        cases h
    · exact uploadsOnce_put (hw.trans (h₂.trans h₃)) rfl owned_put (hfailed e).1
  · -- the upload returned, so the object is there
    have hput := hw.trans (h₂.resolve_left fun h => h.1 res rfl)
    refine Ensures.bind (hrest w₂) ?_ ?_ <;> rintro a w₃ ⟨j, h₃, hj, ho⟩
    · exact uploadsOnce_error (hput.trans h₃) (by rw [puts_append, hj]; rfl) (owned_put.append ho)
    · exact uploadsOnce_put (hput.trans h₃) (by rw [puts_append, hj]; rfl) (owned_put.append ho)
        (hdone res)

lemma isolating_uploads {key unit : String} {state : Option StateKey} {body : M UnitResult}
    {w : World} (h : Ensures body w (UploadsOnce key state unit · w ·)) :
    Ensures (isolating unit body) w (UploadsOnce key state unit · w ·) := by
  unfold isolating
  rw [ensures_tryCatch]
  refine h.mono fun r w' hr => ?_
  rcases r with e | res
  · obtain ⟨j, hw, hj, ho, -⟩ := hr
    simp only
    split_ifs
    · refine ⟨j, hw, hj, ho, fun res hres => ?_⟩
      obtain rfl := Except.ok.inj hres
      exact ⟨rfl, fun hok => by cases hok⟩
    · exact ⟨j, hw, hj, ho, fun _ hres => by cases hres⟩
  · exact hr

/-! #### Collections -/

lemma extractCollection_unit {cfg : CollectionConfig} (w : World) :
    Ensures (extractCollection lib env cfg u ctx dbName) w fun r _ =>
      ∀ res, r = .ok res → res.unit = cfg.name := by
  have herr : ∀ (e : Exc) (_ : World) (res : UnitResult),
      (Except.error e : Except Exc UnitResult) = .ok res → res.unit = cfg.name :=
    fun _ _ _ h => by cases h
  have hret : ∀ (res : UnitResult) (w : World), res.unit = cfg.name →
      Ensures (pure res : M UnitResult) w fun r _ => ∀ res, r = .ok res → res.unit = cfg.name := by
    rintro res w hunit res' hres
    obtain rfl := Except.ok.inj hres
    exact hunit
  refine .skip herr fun _ _ => .skip herr fun _ _ => .skip herr fun _ _ => .skip herr fun _ _ =>
    .skip herr fun _ _ => .skip herr fun p _ => ?_
  split_ifs
  · exact .skip herr fun _ _ => hret _ _ rfl
  unfold Extract.deliver
  refine .skip herr fun _ _ => ?_
  split_ifs
  · exact .skip herr fun _ _ => hret _ _ rfl
  refine .skip herr fun outcome _ => ?_
  rcases outcome with e | res
  · exact .skip herr fun _ _ => hret _ _ rfl
  · exact .skip herr fun _ _ => .skip herr fun _ _ => hret _ _ rfl

lemma extractCollection_uploads (hdry : ctx.dryRun = false) {cfg : CollectionConfig} (w : World) :
    Ensures (extractCollection lib env cfg u ctx dbName) w
      (UploadsOnce (mongoKey u.pre dbName cfg.name ctx.runDt)
        (some (.watermark (namespaceOf cfg dbName))) cfg.name · w ·) := by
  refine ((extractCollection_unit w).and extractCollection_ensures).mono
    fun r w' ⟨hunit, hends⟩ => ?_
  rcases hends with ⟨⟨e, rfl⟩, hw⟩ | ⟨filter, j, -, hw, hex⟩
  · exact uploadsOnce_quietError hw
  refine ⟨j, hw, ?_, ?_, fun res hres => ⟨hunit res hres, fun hok => ?_⟩⟩
  · cases hex with
    | nothing => exact .inl rfl
    | empty => exact .inl rfl
    | uploaded => exact .inr ⟨_, rfl⟩
    | committed => exact .inr ⟨_, rfl⟩
  · cases hex with
    | nothing => exact owned_nil
    | empty => exact owned_nil
    | uploaded => exact owned_put
    | committed => exact owned_put.append (owned_singleton rfl)
  · subst hres
    cases hex with
    | nothing h =>
      rcases h res rfl with hfailed | hd
      · rw [hfailed] at hok
        cases hok
      · rw [hdry] at hd
        cases hd
    | empty => cases hok
    | uploaded => exact List.cons_ne_nil _ _
    | committed => exact List.cons_ne_nil _ _

lemma extractUnit_uploads (hdry : ctx.dryRun = false) {conn : Connection} {cfg : CollectionConfig}
    (w : World) : Ensures (extractUnit lib u ctx conn dbName cfg env) w
      (UploadsOnce (mongoKey u.pre dbName cfg.name ctx.runDt)
        (some (.watermark (namespaceOf cfg dbName))) cfg.name · w ·) := by
  unfold extractUnit
  split_ifs
  · exact uploadsOnce_quiet .nil rfl fun h => by cases h
  refine isolating_uploads ?_
  rcases conn.collection cfg.name with _ | e
  · exact extractCollection_uploads hdry w
  · exact uploadsOnce_quietError .nil

/-! #### Log sources -/

lemma commit_uploads {source : LogSourceConfig} {gcDays : ℤ} {parts : List Part} {path : Path}
    (w : World) : Ensures (commit env source gcDays parts path) w fun _ w' =>
      ∃ j, Wrote w w' j ∧ puts j = [] ∧ Owned (some (.offsets source.name)) j := by
  refine commit_ensures.mono fun r w' h => ?_
  rcases h with h | ⟨deletes, hdel, h⟩
  · exact ⟨[], h, rfl, owned_nil⟩
  · refine ⟨_, h, by simpa [puts] using (LogRuns.deletions_puts hdel).1, ?_⟩
    exact (owned_singleton rfl).append (owned_deletions hdel)

lemma shipSource_uploads (hdry : ctx.dryRun = false) {source : LogSourceConfig} {gcDays : ℤ}
    (w : World) : Ensures (shipSource lib env source u ctx gcDays) w
      (UploadsOnce (logsKey u.pre source.name ctx.runDt) (some (.offsets source.name)) source.name
        · w ·) := by
  have herr : ∀ e w', Wrote w w' [] → UploadsOnce (logsKey u.pre source.name ctx.runDt)
      (some (.offsets source.name)) source.name (.error e) w w' :=
    fun e w' h => uploadsOnce_quietError h
  refine ensures_shipSource (fun e _ => herr e w .nil) (fun _ e _ => herr e w .nil)
    fun _ parts _ => ?_
  split_ifs with hne
  · exact uploadsOnce_quiet .nil rfl fun h => by cases h
  unfold Ship.deliver
  simp only [writeRows_eq]
  refine ensures_filled (fun e w₂ h₂ => herr e w₂ h₂) fun result w₃ h₃ hs₃ => ?_
  rw [if_neg (by simp [hdry])]
  exact uploading_uploads h₃ (tryUpload_ensures hs₃) (fun _ => ⟨rfl, rfl⟩) commit_uploads
    fun _ => rfl

/-! #### The metrics of the host -/

lemma tryAnyUpload_ensures {w : World} {path : Path} {key : String} {content : Content}
    (hspool : w.spool path = some content) :
    Ensures (tryAnyUpload lib u env path key) w fun r w' =>
      (∀ res, r ≠ .ok (.ok res)) ∧ Wrote w w' [] ∨ Wrote w w' [.put ⟨key, content⟩] :=
  caughtUpload_ensures hspool

lemma shipMetrics_uploads (hdry : ctx.dryRun = false) {records : List MetricRecord} (w : World) :
    Ensures (shipMetrics lib u ctx env records) w
      (UploadsOnce (hostmetricsKey u.pre ctx.runDt) none "hostmetrics" · w ·) := by
  have herr : ∀ e w', Wrote w w' [] →
      UploadsOnce (hostmetricsKey u.pre ctx.runDt) none "hostmetrics" (.error e) w w' :=
    fun e w' h => uploadsOnce_quietError h
  unfold shipMetrics
  by_cases hne : records = []
  · rw [if_pos hne]
    exact uploadsOnce_quiet .nil rfl fun h => by cases h
  rw [if_neg hne]
  simp only [writeMetrics_eq]
  refine ensures_filled herr fun result w₂ hw₂ hs₂ => ?_
  rw [if_neg (by simp [hdry])]
  exact uploading_uploads hw₂ (tryAnyUpload_ensures hs₂) (fun _ => ⟨rfl, rfl⟩)
    (fun w' => (quiet_unlink _ w').mono fun _ _ h => ⟨[], h, rfl, owned_nil⟩) fun _ => rfl

/-! ### What lists of units upload -/

/-- What a journal stores is under state keys of the units. -/
def StoresUnder (state : RunUnit → Option StateKey) (used : List RunUnit) (j : List Effect) :
    Prop :=
  ∀ e ∈ j, ∀ k, stateKeyOf e = some k → k ∈ used.filterMap state

/-- Uploads under the keys of the units that are used, each at most once and in their order, and
nothing stored but under their state keys; one result for each unit of the list, and an upload for
each that is `ok`. -/
def UploadsList (key : RunUnit → String) (state : RunUnit → Option StateKey)
    (units used : List RunUnit) (r : Except Exc (List UnitResult)) (w w' : World) : Prop :=
  ∃ j, Wrote w w' j ∧ ((puts j).map (·.key)).Sublist (used.map key) ∧ StoresUnder state used j ∧
    ∀ results, r = .ok results → List.Forall₂ (fun x res => res.unit = x.name ∧
      (res.status = .ok → ∃ p ∈ puts j, p.key = key x)) units results

section Lists

variable {key : RunUnit → String} {state : RunUnit → Option StateKey}
  {units used units' used' : List RunUnit} {w w' w'' : World} {j k : List Effect}

lemma storesUnder_nil : StoresUnder state used [] := fun _ h => by cases h

lemma StoresUnder.mono (hsub : used.Sublist used') (h : StoresUnder state used j) :
    StoresUnder state used' j :=
  fun e he k hk => (hsub.filterMap state).subset (h e he k hk)

lemma StoresUnder.append (hj : StoresUnder state used j) (hk : StoresUnder state used' k) :
    StoresUnder state (used ++ used') (j ++ k) := by
  intro e he κ hκ
  rw [List.filterMap_append, List.mem_append]
  exact (List.mem_append.mp he).imp (hj e · κ hκ) (hk e · κ hκ)

lemma uploadsList_nil : UploadsList key state [] [] (.ok []) w w :=
  ⟨[], .nil, List.nil_sublist _, storesUnder_nil, fun results h => by
    obtain rfl := Except.ok.inj h
    exact .nil⟩

lemma uploadsList_failed {results : List UnitResult} (h : List.Forall₂ (fun x res =>
    res.unit = RunUnit.name x ∧ res.status = .failed) units results) :
    UploadsList key state units [] (.ok results) w w := by
  refine ⟨[], .nil, List.nil_sublist _, storesUnder_nil, fun results' hr => ?_⟩
  obtain rfl := Except.ok.inj hr
  refine h.imp fun x res ⟨hunit, hfailed⟩ => ⟨hunit, fun hok => ?_⟩
  rw [hfailed] at hok
  cases hok

/-- A unit more. -/
lemma uploadsOnce_list {x : RunUnit} {used : List RunUnit} {r : Except Exc UnitResult}
    (h : UploadsOnce (key x) (state x) x.name r w w')
    (hused : used = [x] ∨ used = [] ∧ Wrote w w' []) :
    UploadsList key state [x] used (r.map fun res => [res]) w w' := by
  obtain ⟨j, hw, hj, ho, hres⟩ := h
  have hsub : ((puts j).map (·.key)).Sublist (used.map key) ∧ StoresUnder state used j := by
    rcases hused with rfl | ⟨rfl, hquiet⟩
    · refine ⟨?_, fun e he k hk => ?_⟩
      · rcases hj with hj | ⟨content, hj⟩ <;> simp [hj]
      · have hkey : state x = some k := by
          rcases ho e he with hnone | hown
          · rw [hk] at hnone
            cases hnone
          · rw [← hown, hk]
        simp [hkey]
    · obtain rfl : j = [] := List.append_cancel_left (hw.2.symm.trans hquiet.2)
      exact ⟨List.nil_sublist _, storesUnder_nil⟩
  refine ⟨j, hw, hsub.1, hsub.2, fun results hr => ?_⟩
  rcases r with e | res
  · cases hr
  obtain rfl := Except.ok.inj hr
  obtain ⟨hunit, hok⟩ := hres res rfl
  refine .cons ⟨hunit, fun hstatus => ?_⟩ .nil
  rcases hj with hj | ⟨content, hj⟩
  · exact absurd hj (hok hstatus)
  · exact ⟨⟨key x, content⟩, by rw [hj]; exact List.mem_singleton.mpr rfl, rfl⟩

lemma UploadsList.error {r : Except Exc (List UnitResult)} {e : Exc}
    (h : UploadsList key state units used r w w') (hsub : used.Sublist used') :
    UploadsList key state units' used' (.error e) w w' := by
  obtain ⟨j, hw, hj, ho, -⟩ := h
  exact ⟨j, hw, hj.trans (hsub.map key), ho.mono hsub, fun _ hr => by cases hr⟩

/-- What follows adds its own units. -/
lemma UploadsList.append {results : List UnitResult} {r : Except Exc (List UnitResult)}
    (h : UploadsList key state units used (.ok results) w w')
    (h' : UploadsList key state units' used' r w' w'') :
    UploadsList key state (units ++ units') (used ++ used') (r.map (results ++ ·)) w w'' := by
  obtain ⟨j, hw, hj, ho, hres⟩ := h
  obtain ⟨j', hw', hj', ho', hres'⟩ := h'
  refine ⟨j ++ j', hw.trans hw', ?_, ho.append ho', fun all hall => ?_⟩
  · rw [puts_append, List.map_append, List.map_append]
    exact hj.append hj'
  rcases r with e | results'
  · cases hall
  obtain rfl := Except.ok.inj hall
  rw [puts_append]
  refine List.rel_append ((hres results rfl).imp ?_) ((hres' results' rfl).imp ?_)
  · rintro x res ⟨hunit, hok⟩
    refine ⟨hunit, fun hstatus => ?_⟩
    obtain ⟨p, hp, hkey⟩ := hok hstatus
    exact ⟨p, List.mem_append_left _ hp, hkey⟩
  · rintro x res ⟨hunit, hok⟩
    refine ⟨hunit, fun hstatus => ?_⟩
    obtain ⟨p, hp, hkey⟩ := hok hstatus
    exact ⟨p, List.mem_append_right _ hp, hkey⟩

/-- One unit, and then the others. -/
lemma uploadsList_cons {x : RunUnit} (used : List RunUnit) {unit : M UnitResult}
    {rest : M (List UnitResult)}
    (hunit : Ensures unit w fun r w' =>
      UploadsList key state [x] used (r.map fun res => [res]) w w')
    (hrest : ∀ w', Ensures rest w' (UploadsList key state units used' · w' ·)) :
    Ensures (do let result ← unit; return result :: (← rest)) w
      (UploadsList key state (x :: units) (used ++ used') · w ·) := by
  refine Ensures.bind hunit (fun e w₁ h₁ => ?_) fun res w₁ h₁ => ?_
  · exact h₁.error (List.sublist_append_left _ _)
  refine Ensures.bind (hrest w₁) (fun e w₂ h₂ => ?_) fun results w₂ h₂ => ?_
  · exact h₁.append h₂
  · exact h₁.append h₂

end Lists

/-! ### The units of a cycle -/

/-- The key of a unit of a cycle that extracts from a database. -/
abbrev keyOf (u : S3Uploader) (dbName : String) (ctx : RunContext) : RunUnit → String :=
  RunUnit.s3Key u.pre dbName ctx.runDt

def collectionUnit (c : CollectionConfig × Env) : RunUnit := .collection c.1.name

def sourceUnit (s : LogSourceConfig × Env) : RunUnit := .source s.1.name

variable {conn : Connection}

/-- Whether a collection comes to its extraction. -/
def reached (conn : Connection) (c : CollectionConfig × Env) : Bool :=
  !refused c.1 && (conn.collection c.1.name).isNone

/-- The collections that are extracted, if it comes to a connection. -/
def reachedOf (conn : Connection) (collections : Collections) : Collections :=
  match conn.connect with
  | .ok true => collections.filter (reached conn)
  | _ => []

lemma extractUnit_quiet {cfg : CollectionConfig} (h : reached conn (cfg, env) = false)
    (w : World) : Ensures (extractUnit lib u ctx conn dbName cfg env) w fun _ w' =>
      Wrote w w' [] := by
  unfold extractUnit
  split_ifs with href
  · exact .nil
  rcases hc : conn.collection cfg.name with _ | e
  · simp [reached, href, hc] at h
  · unfold isolating raising
    rw [ensures_tryCatch, ensures_bind]
    refine ensures_throw.mpr ?_
    simp only
    split_ifs <;> exact .nil

lemma extractUnits_uploads (hdry : ctx.dryRun = false) {collections : Collections} (w : World) :
    Ensures (extractUnits lib u ctx conn dbName collections) w
      (UploadsList (keyOf u dbName ctx) (RunUnit.stateKey dbName) (collections.map collectionUnit)
        ((collections.filter (reached conn)).map collectionUnit) · w ·) := by
  induction collections generalizing w with
  | nil => exact uploadsList_nil
  | cons c collections ih =>
    obtain ⟨cfg, env⟩ := c
    have hunit : Ensures (extractUnit lib u ctx conn dbName cfg env) w
        (UploadsOnce (keyOf u dbName ctx (.collection cfg.name))
          (RunUnit.stateKey dbName (.collection cfg.name)) (RunUnit.collection cfg.name).name
          · w ·) := extractUnit_uploads hdry w
    rw [List.filter_cons]
    split_ifs with hreached
    · exact uploadsList_cons [_] (hunit.mono fun r w' h => uploadsOnce_list h (.inl rfl)) ih
    · refine uploadsList_cons [] ?_ ih
      refine (hunit.and (extractUnit_quiet (Bool.eq_false_iff.mpr hreached) w)).mono ?_
      exact fun r w' ⟨h, hquiet⟩ => uploadsOnce_list h (.inr ⟨rfl, hquiet⟩)

lemma closingClient_uploads {key : RunUnit → String} {state : RunUnit → Option StateKey}
    {units used : List RunUnit} {body : M (List UnitResult)} {w : World}
    (h : Ensures body w (UploadsList key state units used · w ·)) :
    Ensures (closingClient conn body) w (UploadsList key state units used · w ·) := by
  unfold closingClient
  refine Ensures.bind (P := (UploadsList key state units used · w ·)) ?_ (fun e w' h => h) ?_
  · rw [ensures_tryCatch]
    refine h.mono fun r w' h => ?_
    rcases r with e | results
    · simp only
      rw [ensures_bind]
      exact ensures_raising (fun e => h.error (List.Sublist.refl _)) h
    · exact h
  · intro results w' h
    rw [ensures_bind]
    exact ensures_raising (fun e => h.error (List.Sublist.refl _)) h

lemma uploadsList_failedUnits {collections : Collections} {key : RunUnit → String}
    {state : RunUnit → Option StateKey} (text : String) {w : World} :
    UploadsList key state (collections.map collectionUnit) []
      (.ok (collections.map fun c => failedUnit c.1.name text)) w w := by
  refine uploadsList_failed ?_
  rw [List.forall₂_map_left_iff, List.forall₂_map_right_iff, List.forall₂_same]
  exact fun c _ => ⟨rfl, rfl⟩

lemma extractAll_uploads (hdry : ctx.dryRun = false) {collections : Collections} (w : World) :
    Ensures (extractAll lib u ctx conn dbName collections) w
      (UploadsList (keyOf u dbName ctx) (RunUnit.stateKey dbName) (collections.map collectionUnit)
        ((reachedOf conn collections).map collectionUnit) · w ·) := by
  unfold extractAll reachedOf
  rcases conn.connect with e | _ | _
  · simp only
    split_ifs
    · exact uploadsList_failedUnits _
    · exact ⟨[], .nil, List.nil_sublist _, storesUnder_nil, fun _ h => by cases h⟩
  · exact uploadsList_failedUnits _
  · exact closingClient_uploads (extractUnits_uploads hdry w)

lemma shipUnits_uploads (hdry : ctx.dryRun = false) {gcDays : ℤ} {sources : LogSources}
    (w : World) : Ensures (shipUnits lib u ctx gcDays sources) w
      (UploadsList (keyOf u dbName ctx) (RunUnit.stateKey dbName) (sources.map sourceUnit)
        (sources.map sourceUnit) · w ·) := by
  induction sources generalizing w with
  | nil => exact uploadsList_nil
  | cons s sources ih =>
    obtain ⟨source, env⟩ := s
    have hunit : Ensures (isolating source.name (shipSource lib env source u ctx gcDays)) w
        (UploadsOnce (keyOf u dbName ctx (.source source.name))
          (RunUnit.stateKey dbName (.source source.name)) (RunUnit.source source.name).name
          · w ·) :=
      isolating_uploads (shipSource_uploads hdry w)
    exact uploadsList_cons [_] (hunit.mono fun r w' h => uploadsOnce_list h (.inl rfl)) ih

variable (a : AgentConfig) (out : Outside) (only : Option (List String))
  (collection : Option String)

/-- The uploader of the cycle. -/
abbrev uploaderOf : S3Uploader := S3Uploader.make a.s3.bucket a.s3.pre

def hostOf : List RunUnit :=
  if selected only "hostmetrics" ∧ a.hostmetrics.enabled then [.host] else []

/-- The units that the summary of a cycle lists. -/
def unitsOf : List RunUnit :=
  (collectionsOf a out only collection).map collectionUnit ++ (sourcesOf a out only).map sourceUnit
    ++ hostOf a only

/-- The units that use their keys: of the collections, those that come to their extraction. -/
def usedOf : List RunUnit :=
  (reachedOf out.conn (collectionsOf a out only collection)).map collectionUnit
    ++ (sourcesOf a out only).map sourceUnit ++ hostOf a only

variable {a out only collection}

lemma mongoUnits_uploads (hdry : ctx.dryRun = false) (w : World) :
    Ensures (mongoUnits lib u ctx a out only collection) w
      (UploadsList (keyOf u (databaseOf a) ctx) (RunUnit.stateKey (databaseOf a))
        ((collectionsOf a out only collection).map collectionUnit)
        ((reachedOf out.conn (collectionsOf a out only collection)).map collectionUnit) · w ·) := by
  have hnil : reachedOf out.conn [] = [] := by
    unfold reachedOf
    split <;> rfl
  by_cases hsel : selected only "mongo" ∧ a.mongoEnabled
  swap
  · rw [mongoUnits, collectionsOf, if_neg hsel, if_neg fun h => hsel h.1, hnil]
    exact uploadsList_nil
  rw [mongoUnits, if_pos hsel, collectionsOf, databaseOf]
  rcases hm : a.mongo with _ | mongo
  · rw [if_neg (by simp), hnil]
    exact uploadsList_nil
  · rw [if_pos ⟨hsel, rfl⟩]
    exact extractAll_uploads hdry w

lemma logUnits_uploads (hdry : ctx.dryRun = false) (w : World) :
    Ensures (logUnits lib u ctx a out only) w
      (UploadsList (keyOf u (databaseOf a) ctx) (RunUnit.stateKey (databaseOf a))
        ((sourcesOf a out only).map sourceUnit) ((sourcesOf a out only).map sourceUnit) · w ·) := by
  unfold logUnits sourcesOf shipAll
  split_ifs with hsel hon
  · exact shipUnits_uploads hdry w
  · exact absurd hsel.2 hon
  · exact uploadsList_nil

lemma hostUnits_uploads (hdry : ctx.dryRun = false) (w : World) :
    Ensures (hostUnits lib u ctx a out only) w
      (UploadsList (keyOf u (databaseOf a) ctx) (RunUnit.stateKey (databaseOf a)) (hostOf a only)
        (hostOf a only) · w ·) := by
  unfold hostUnits hostOf
  split_ifs
  · have hlist : ∀ r w', UploadsOnce (keyOf u (databaseOf a) ctx .host)
        (RunUnit.stateKey (databaseOf a) .host) RunUnit.host.name r w w' →
        UploadsList (keyOf u (databaseOf a) ctx) (RunUnit.stateKey (databaseOf a)) [.host] [.host]
          (r.map fun res => [res]) w w' :=
      fun r w' h => uploadsOnce_list h (.inl rfl)
    exact Ensures.bind (shipMetrics_uploads hdry w) (fun e w' h => hlist (.error e) w' h)
      fun res w' h => hlist (.ok res) w' h
  · exact uploadsList_nil

/-- The same of a cycle, where its report comes to a summary. -/
def UploadsCycle (key : RunUnit → String) (state : RunUnit → Option StateKey)
    (units used : List RunUnit) (r : Except Exc Report) (w w' : World) : Prop :=
  ∃ j, Wrote w w' j ∧ ((puts j).map (·.key)).Sublist (used.map key) ∧ StoresUnder state used j ∧
    ∀ report results, r = .ok report → report.units = some results →
      List.Forall₂ (fun x res => res.unit = x.name ∧
        (res.status = .ok → ∃ p ∈ puts j, p.key = key x)) units results

/-- **The uploads of a cycle**: each of its units uploads at most once, under its own key, and
stores under its own. -/
theorem runCycle_uploads (hdry : ctx.dryRun = false) (w : World) :
    Ensures (runCycle lib ctx a out only collection) w
      (UploadsCycle (keyOf (uploaderOf a) (databaseOf a) ctx) (RunUnit.stateKey (databaseOf a))
        (unitsOf a out only collection) (usedOf a out only collection) · w ·) := by
  have herr : ∀ e w', UploadsList (keyOf (uploaderOf a) (databaseOf a) ctx)
        (RunUnit.stateKey (databaseOf a)) [] (usedOf a out only collection) (.error e) w w' →
      Ensures (if e.isException then return ⟨2, none⟩ else throw e : M Report) w'
        (UploadsCycle (keyOf (uploaderOf a) (databaseOf a) ctx) (RunUnit.stateKey (databaseOf a))
          (unitsOf a out only collection) (usedOf a out only collection) · w ·) := by
    intro e w' ⟨j, hw, hj, ho, _⟩
    split_ifs
    · refine ⟨j, hw, hj, ho, fun report results hr hu => ?_⟩
      obtain rfl := Except.ok.inj hr
      cases hu
    · exact ⟨j, hw, hj, ho, fun _ _ hr => by cases hr⟩
  unfold runCycle
  rw [ensures_tryCatch, ensures_bind]
  refine ensures_raising (fun e => herr e w (uploadsList_nil.error (List.nil_sublist _))) ?_
  refine Ensures.bind (mongoUnits_uploads hdry w) (fun e w₁ h₁ => herr e w₁ (h₁.error ?_))
    fun mongo w₁ h₁ => ?_
  · rw [usedOf, List.append_assoc]
    exact List.sublist_append_left _ _
  refine Ensures.bind (logUnits_uploads hdry w₁)
    (fun e w₂ h₂ => herr e w₂ ((h₁.append h₂).error (List.sublist_append_left _ _)))
    fun logs w₂ h₂ => ?_
  have h₁₂ := h₁.append h₂
  refine Ensures.bind (hostUnits_uploads hdry w₂)
    (fun e w₃ h₃ => herr e w₃ ((h₁₂.append h₃).error (List.Sublist.refl _))) fun host w₃ h₃ => ?_
  have hall := h₁₂.append h₃
  rw [ensures_bind]
  refine ensures_raising (fun e => herr e w₃ (hall.error (List.Sublist.refl _))) ?_
  obtain ⟨j, hw, hj, ho, hres⟩ := hall
  refine ⟨j, hw, hj, ho, fun report results hr hu => ?_⟩
  obtain rfl := Except.ok.inj hr
  obtain rfl := Option.some.inj hu
  exact hres _ rfl

/-! ### Units keep apart -/

/-- What is uploaded once stays, until the end of the journal. -/
lemma objectAt_put {j : List Effect} (h : ((puts j).map (·.key)).Nodup) {p : Put}
    (hp : p ∈ puts j) (before : Option Content) : objectAt p.key before j = some p.content := by
  unfold objectAt
  revert before
  generalize puts j = ps at h hp
  induction ps with
  | nil => cases hp
  | cons q ps ih =>
    intro before
    obtain ⟨hnew, hrest⟩ := List.nodup_cons.mp h
    rcases List.mem_cons.mp hp with rfl | hp
    · rw [List.foldl_cons, if_pos rfl]
      refine List.foldlRecOn (motive := (· = some p.content)) ps _ rfl fun o ho q hq => ?_
      rw [if_neg fun heq => hnew (List.mem_map.mpr ⟨q, hq, heq⟩)]
      exact ho
    · exact ih hrest hp _

variable (lib ctx a out only collection)

/-- The units of a cycle from a stored state keep apart: no two use one key, in the bucket or in
the state store, and nothing is uploaded or stored under another. Where the cycle ends, each upload
is the object at its key. So a summary has an object for each unit that it lists as `ok`, unless it
is that of a dry run. -/
structure UnitsApart (s : State.StateStore) : Prop where
  keys : ((usedOf a out only collection).map
    (keyOf (uploaderOf a) (databaseOf a) ctx)).Nodup
  states : ((usedOf a out only collection).filterMap (RunUnit.stateKey (databaseOf a))).Nodup
  uploads : ((puts (exec (runCycle lib ctx a out only collection)
    (World.start s)).2.journal).map (·.key)).Sublist
      ((usedOf a out only collection).map (keyOf (uploaderOf a) (databaseOf a) ctx))
  stores : StoresUnder (RunUnit.stateKey (databaseOf a)) (usedOf a out only collection)
    (exec (runCycle lib ctx a out only collection) (World.start s)).2.journal
  kept : ∀ p ∈ puts (exec (runCycle lib ctx a out only collection) (World.start s)).2.journal,
    ∀ before, objectAt p.key before
      (exec (runCycle lib ctx a out only collection) (World.start s)).2.journal = some p.content
  delivered : ctx.dryRun = false → ∀ report results,
    (exec (runCycle lib ctx a out only collection) (World.start s)).1 = .ok report →
    report.units = some results →
    List.Forall₂ (fun x res => res.unit = x.name ∧ (res.status = .ok →
      ∃ p ∈ puts (exec (runCycle lib ctx a out only collection) (World.start s)).2.journal,
        p.key = keyOf (uploaderOf a) (databaseOf a) ctx x))
      (unitsOf a out only collection) results

/-- The units that are used have names of their own, among the collections and among the
sources. -/
def NamesApart : Prop :=
  ((reachedOf out.conn (collectionsOf a out only collection)).map (·.1.name)).Nodup ∧
    ((sourcesOf a out only).map (·.1.name)).Nodup

variable {lib ctx a out only collection}

lemma usedOf_nodup : (usedOf a out only collection).Nodup ↔ NamesApart a out only collection := by
  have hcollections : ∀ cs : Collections,
      (cs.map collectionUnit).Nodup ↔ (cs.map (·.1.name)).Nodup := fun cs => by
    rw [show cs.map collectionUnit = (cs.map (·.1.name)).map RunUnit.collection by
      rw [List.map_map]; rfl]
    exact List.nodup_map_iff fun _ _ h => RunUnit.collection.inj h
  have hsources : ∀ ss : LogSources,
      (ss.map sourceUnit).Nodup ↔ (ss.map (·.1.name)).Nodup := fun ss => by
    rw [show ss.map sourceUnit = (ss.map (·.1.name)).map RunUnit.source by
      rw [List.map_map]; rfl]
    exact List.nodup_map_iff fun _ _ h => RunUnit.source.inj h
  have hhost : (hostOf a only).Nodup := by
    unfold hostOf
    split_ifs <;> simp
  unfold usedOf NamesApart
  rw [List.nodup_append, List.nodup_append, hcollections, hsources]
  refine ⟨fun h => ⟨h.1.1, h.1.2.1⟩, fun h => ⟨⟨h.1, h.2, ?_⟩, hhost, ?_⟩⟩
  · rintro x hx y hy rfl
    obtain ⟨c, -, rfl⟩ := List.mem_map.mp hx
    obtain ⟨s, -, hs⟩ := List.mem_map.mp hy
    cases hs
  · rintro x hx y hy rfl
    have hmem : x = .host := by
      unfold hostOf at hy
      split_ifs at hy
      · exact List.mem_singleton.mp hy
      · cases hy
    subst hmem
    rcases List.mem_append.mp hx with h | h <;> obtain ⟨_, -, h⟩ := List.mem_map.mp h <;> cases h

lemma usedOf_host : (usedOf a out only collection).count .host ≤ 1 := by
  have hcollections : ∀ cs : Collections, (cs.map collectionUnit).count .host = 0 := fun cs =>
    List.count_eq_zero.mpr fun h => by
      obtain ⟨_, -, h⟩ := List.mem_map.mp h
      cases h
  have hsources : ∀ ss : LogSources, (ss.map sourceUnit).count .host = 0 := fun ss =>
    List.count_eq_zero.mpr fun h => by
      obtain ⟨_, -, h⟩ := List.mem_map.mp h
      cases h
  rw [usedOf, List.count_append, List.count_append, hcollections, hsources, hostOf]
  split_ifs <;> simp

/-- **Units keep apart exactly where names do**, among the collections that are extracted and
among the sources: that no name is configured twice is not asked for. -/
theorem units_apart_iff (s : State.StateStore) :
    UnitsApart lib ctx a out only collection s ↔ NamesApart a out only collection := by
  rw [← usedOf_nodup]
  constructor
  · exact fun h => h.keys.of_map _
  intro h
  have hkeys : ((usedOf a out only collection).map
      (keyOf (uploaderOf a) (databaseOf a) ctx)).Nodup := h.map s3Key_injective
  have hstates := (@stateKeys_nodup (databaseOf a) _ usedOf_host).mpr h
  by_cases hdry : ctx.dryRun
  · have hquiet : Ensures (runCycle lib ctx a out only collection) (World.start s) _ :=
      quiet_runCycle hdry _
    have hjournal : (exec (runCycle lib ctx a out only collection) (World.start s)).2.journal =
      [] := hquiet.2
    refine ⟨hkeys, hstates, ?_, ?_, ?_, fun h => absurd (h.symm.trans hdry) Bool.false_ne_true⟩ <;>
      rw [hjournal]
    · exact List.nil_sublist _
    · exact storesUnder_nil
    · exact fun p hp => by cases hp
  · have huploads : Ensures (runCycle lib ctx a out only collection) (World.start s) _ :=
      runCycle_uploads (Bool.eq_false_iff.mpr hdry) _
    obtain ⟨j, hw, hj, ho, hres⟩ := huploads
    have hjournal : (exec (runCycle lib ctx a out only collection) (World.start s)).2.journal = j :=
      hw.2
    refine ⟨hkeys, hstates, ?_, ?_, ?_, ?_⟩ <;> rw [hjournal]
    · exact hj
    · exact ho
    · exact fun p hp before => objectAt_put (hj.nodup hkeys) hp before
    · exact fun _ => hres

/-! ### A collection that is configured twice -/

/-- A document that names some collections. -/
def sampleToml (names : List String) : Table :=
  [("agent", .table [("state_db", .str "state.db"), ("spool_dir", .str "spool")]),
    ("s3", .table [("bucket", .str "landing")]),
    ("mongo", .table [("database", .str "AlteryxService"),
      ("collections", .array (names.map fun name =>
        .table [("name", .str name), ("mode", .str "append_only")]))]),
    ("hostmetrics", .table [("enabled", .bool false)])]

def sampleAgent (names : List String) : AgentConfig where
  stateDb := "state.db"
  spoolDir := "spool"
  logDir := "logs"
  logLevel := "WARNING"
  mongoEnabled := true
  mongo := some { database := "AlteryxService" }
  collections := names.map Isolation.sampleCollection
  s3 := { bucket := "landing" }
  logs := {}
  hostmetrics := { enabled := false }

/-- Each collection has two documents, and nothing fails. -/
def sampleOutside : Outside where
  setup := none
  conn := sampleConnection
  collection _ := calmReads [[("_id", .oid ⟨1000 * 2 ^ 64, by decide⟩)],
    [("_id", .oid ⟨2000 * 2 ^ 64, by decide⟩)]] sampleNow
  source _ := calmReads [] sampleNow
  host := calmReads [] sampleNow
  metrics := []
  record := none

def sampleCycle (names : List String) : Except Exc Report × World :=
  exec (runCycle plainLibs sampleCtx (sampleAgent names) sampleOutside none none)
    (World.start .empty)

def rowIds : Content → List String
  | .parquet rowGroups => rowGroups.flatten.map (·.id)
  | _ => []

/-- The second entry goes by the watermark that the first has committed, and its upload replaces
that of the first: both are `ok`, and the first document is in no object. -/
theorem committed_row_replaced :
    loadConfig "logs" "agent.toml" (.ok (sampleToml ["AS_Jobs", "AS_Jobs"])) =
      .ok (sampleAgent ["AS_Jobs", "AS_Jobs"]) ∧
    (sampleCycle ["AS_Jobs", "AS_Jobs"]).1.toOption.bind (·.units) =
      some [{ unit := "AS_Jobs", status := .ok, docs := 2 },
        { unit := "AS_Jobs", status := .ok, docs := 1 }] ∧
    (puts (sampleCycle ["AS_Jobs", "AS_Jobs"]).2.journal).map (fun p => (p.key, rowIds p.content)) =
      [(mongoKey "" "AlteryxService" "AS_Jobs" sampleNow,
          ["000003e80000000000000000", "000007d00000000000000000"]),
        (mongoKey "" "AlteryxService" "AS_Jobs" sampleNow, ["000007d00000000000000000"])] ∧
    (objectAt (mongoKey "" "AlteryxService" "AS_Jobs" sampleNow) none
      (sampleCycle ["AS_Jobs", "AS_Jobs"]).2.journal).map rowIds =
        some ["000007d00000000000000000"] ∧
    ¬ UnitsApart plainLibs sampleCtx (sampleAgent ["AS_Jobs", "AS_Jobs"]) sampleOutside none none
      .empty := by
  refine ⟨rfl, by decide +kernel, by decide +kernel, by decide +kernel, fun h => ?_⟩
  have hnodup : (usedOf (sampleAgent ["AS_Jobs", "AS_Jobs"]) sampleOutside none none).Nodup :=
    h.keys.of_map _
  exact absurd hnodup (by decide)

end MongoSyncAgent.UnitKeys
