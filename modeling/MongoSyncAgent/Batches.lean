import MongoSyncAgent.AppendOnly
import MongoSyncAgent.Champions
import MongoSyncAgent.Exceptions
import MongoSyncAgent.MutableCursor
import Mathlib.Data.String.Basic

/-!
How an extraction fills its file, batch by batch.

The loop holds the rows of one batch at most. A full one becomes a row group and is dropped before
the next document is asked for; what is left when the cursor is exhausted becomes the last row
group. What the loop holds is what a process that ends there has not written: all documents that
the cursor has yielded, less those that are in the file.

The strategy observes a document before its row is held, so that what is committed in the end is
measured on exactly the documents that are in the file. It is their maximum, where the `_id`s among
them have one.
-/

namespace MongoSyncAgent.Batches

open MongoSyncAgent.Py MongoSyncAgent.Bson MongoSyncAgent.Config MongoSyncAgent.Timestamps
open MongoSyncAgent.State
open MongoSyncAgent.Runtime MongoSyncAgent.Sinks MongoSyncAgent.Watermarks MongoSyncAgent.Outcomes
open MongoSyncAgent.Keys MongoSyncAgent.Extract MongoSyncAgent.MutableCursor
open MongoSyncAgent.Exceptions MongoSyncAgent.Champions
open MongoSyncAgent.AppendOnly hiding sampleCollection filterFor_stored
open MongoSyncAgent.Mutable hiding sampleCollection filterFor_stored

variable {lib : Libs} {env : Env} {cfg : CollectionConfig} {u : S3Uploader} {ctx : RunContext}
  {dbName : String} {w : World} {p : Progress}

/-! ### Row groups -/

/-- The row groups that a batch gives: none, if it is empty. -/
def batchOf (rows : List Row) : List (List Row) := if rows = [] then [] else [rows]

/-- The row groups that a sink has written. -/
def groupsOf (sink : ParquetVariantSink) (w : World) : List (List Row) :=
  if sink.opened then rowGroups (w.spool sink.path) else []

@[simp] lemma flatten_batchOf (rows : List Row) : (batchOf rows).flatten = rows := by
  unfold batchOf
  split_ifs with h
  · rw [h, List.flatten_nil]
  · simp

/-- Full row groups and a last one that is not: as many as the rows need. -/
lemma length_batches {b : ℕ} {full : List (List Row)} {rest : List Row}
    (hfull : ∀ g ∈ full, g.length = b) (hrest : rest.length < b) :
    (full ++ batchOf rest).length = ((full ++ batchOf rest).flatten.length + b - 1) / b := by
  have hrows : full.flatten.length = full.length * b := by
    rw [List.length_flatten, List.map_congr_left hfull, List.map_const', List.sum_replicate_nat]
  rw [List.flatten_append, flatten_batchOf, List.length_append, List.length_append, hrows]
  symm
  unfold batchOf
  split_ifs with h
  · rw [h, List.length_nil, Nat.add_zero, List.length_nil, Nat.add_zero]
    refine Nat.div_eq_of_lt_le (by omega) ?_
    rw [Nat.succ_mul]
    omega
  · have hpos := List.length_pos_iff.mpr h
    rw [List.length_singleton]
    refine Nat.div_eq_of_lt_le ?_ ?_
    · rw [Nat.succ_mul]
      omega
    · rw [Nat.succ_mul, Nat.succ_mul]
      omega

lemma ensureWriter_groups {sink : ParquetVariantSink} :
    Ensures (sink.ensureWriter env) w fun r w' => ∀ sink', r = .ok sink' →
      sink'.path = sink.path ∧ sink'.opened = true ∧
        rowGroups (w'.spool sink.path) = groupsOf sink w := by
  unfold ParquetVariantSink.ensureWriter groupsOf
  by_cases ho : sink.opened
  · rw [if_pos ho, if_pos ho]
    intro sink' hs
    obtain rfl := Except.ok.inj hs
    exact ⟨rfl, ho, rfl⟩
  · rw [if_neg ho, if_neg ho, ensures_bind]
    refine ensures_call (fun e _ hs => by cases hs) fun _ => ?_
    rw [ensures_bind]
    refine ensures_writeFile fun w' _ hspool => ?_
    rw [ensures_pure]
    intro sink' hs
    obtain rfl := Except.ok.inj hs
    exact ⟨rfl, rfl, by rw [hspool]; rfl⟩

/-- Each batch is a row group of its own. -/
lemma writeRows_groups {sink : ParquetVariantSink} {rows : List Row} :
    Ensures (sink.writeRows env rows) w fun r w' => ∀ sink', r = .ok sink' →
      groupsOf sink' w' = groupsOf sink w ++ batchOf rows := by
  unfold ParquetVariantSink.writeRows batchOf
  by_cases hrows : rows = []
  · rw [if_pos hrows, if_pos hrows, List.append_nil]
    intro sink' hs
    obtain rfl := Except.ok.inj hs
    rfl
  rw [if_neg hrows, if_neg hrows]
  refine Ensures.bind ensureWriter_groups (fun e w₁ _ _ hs => by cases hs) fun sink₁ w₁ h₁ => ?_
  obtain ⟨hpath, hopen, hgroups⟩ := h₁ _ rfl
  rw [ensures_bind]
  refine ensures_call (fun e _ hs => by cases hs) fun _ => ?_
  rw [ensures_bind, ensures_get]
  simp only [ensures_bind]
  refine ensures_writeFile fun w₂ _ hspool => ?_
  rw [ensures_pure]
  intro sink' hs
  obtain rfl := Except.ok.inj hs
  rw [groupsOf, if_pos hopen, hspool, hpath, hgroups]
  rfl

lemma flush_groups : Ensures (p.flush env) w fun r w' => ∀ p', r = .ok p' →
    p'.rows = [] ∧ groupsOf p'.sink w' = groupsOf p.sink w ++ batchOf p.rows := by
  unfold Progress.flush
  refine Ensures.bind writeRows_groups (fun e w₁ _ _ hp => by cases hp) fun sink w₁ h₁ => ?_
  intro p' hp
  obtain rfl := Except.ok.inj hp
  exact ⟨rfl, h₁ sink rfl⟩

/-! ### The loop -/

/-- The row groups so far are full, and the batch is not. -/
structure Filling (b : ℕ) (w : World) (p : Progress) : Prop where
  full : ∀ g ∈ groupsOf p.sink w, g.length = b
  rest : p.rows.length < b

lemma visit_filling (hb : 1 ≤ cfg.batchSize) {i : ℕ} {doc : Doc}
    (h : Filling cfg.batchSize.toNat w p) : Ensures (visit lib env cfg ctx i doc p) w
      fun r w' => ∀ p', r = .ok p' → Filling cfg.batchSize.toNat w' p' := by
  have herr : ∀ (e : Exc) (w' : World) (p' : Progress), Except.error e = Except.ok p' →
      Filling cfg.batchSize.toNat w' p' := fun e w' p' hp => by cases hp
  unfold visit
  simp only [ensures_bind]
  refine ensures_call (fun e => herr e w) fun _ => ?_
  simp only
  refine ensures_lift ?_
  rcases p.strategy.observe lib.text doc with e | strategy
  · exact herr e w
  simp only
  refine ensures_call (fun e => herr e w) fun _ => ?_
  simp only
  refine ensures_lift ?_
  rcases docToRow lib strategy ctx doc with e | row
  · exact herr e w
  simp only [List.length_append, List.length_singleton]
  have hrest := h.rest
  split_ifs with hfull
  · refine flush_groups.mono fun r w' hflush p' hp => ?_
    obtain ⟨hnil, hgroups⟩ := hflush p' hp
    refine ⟨fun g hg => ?_, by rw [hnil, List.length_nil]; omega⟩
    rw [hgroups] at hg
    rcases List.mem_append.mp hg with hg | hg
    · exact h.full g hg
    · simp only [batchOf] at hg
      rw [if_neg (by simp)] at hg
      rw [List.mem_singleton.mp hg, List.length_append, List.length_singleton]
      push_cast at hfull
      omega
  · intro p' hp
    obtain rfl := Except.ok.inj hp
    refine ⟨h.full, ?_⟩
    rw [List.length_append, List.length_singleton]
    push_cast at hfull
    omega

lemma visitAll_filling (hb : 1 ≤ cfg.batchSize) {i : ℕ} {docs : List Doc}
    (h : Filling cfg.batchSize.toNat w p) : Ensures (visitAll lib env cfg ctx i docs p) w
      fun r w' => ∀ p', r = .ok p' → Filling cfg.batchSize.toNat w' p' := by
  induction docs generalizing i p w with
  | nil =>
    unfold visitAll
    rw [ensures_bind]
    refine ensures_call (fun e _ hp => by cases hp) fun _ p' hp => ?_
    obtain rfl := Except.ok.inj hp
    exact h
  | cons doc docs ih =>
    unfold visitAll
    refine Ensures.bind (visit_filling hb h) (fun e w₁ _ _ hp => by cases hp) fun p₁ w₁ h₁ => ?_
    exact ih (h₁ p₁ rfl)

lemma filling_start (hb : 1 ≤ cfg.batchSize) (strategy : Strategy) (path : Path) :
    Filling cfg.batchSize.toNat w ⟨strategy, .make path, []⟩ :=
  ⟨fun g hg => by simp [groupsOf, ParquetVariantSink.make] at hg, by rw [List.length_nil]; omega⟩

/-- As many row groups as the rows need, none of them larger than a batch. -/
def Batched (b : ℕ) (groups : List (List Row)) : Prop :=
  groups.length = (groups.flatten.length + b - 1) / b ∧ ∀ g ∈ groups, g.length ≤ b

/-- **The file that the loop leaves** is in batches. -/
lemma readCursor_batched (hb : 1 ≤ cfg.batchSize) {docs : List Doc} {strategy : Strategy}
    {path : Path} : Ensures (readCursor lib env cfg ctx docs strategy path) w fun r w' =>
      ∀ p', r = .ok p' → Batched cfg.batchSize.toNat (groupsOf p'.sink w') := by
  unfold readCursor
  refine ensures_closing (ensures_cleaningUp (quiet_abort path) ?_)
  refine Ensures.bind (visitAll_filling hb (filling_start hb strategy path)) ?_ fun p₁ w₁ h₁ => ?_
  · exact fun e w₁ _ e' w₂ _ => ⟨fun e _ hp => (by cases hp), fun _ hp => (by cases hp)⟩
  have hfill := h₁ p₁ rfl
  refine flush_groups.mono fun r w₂ hflush => ?_
  rcases r with e | p₂
  · exact fun e' w₃ _ => ⟨fun e _ hp => (by cases hp), fun _ hp => (by cases hp)⟩
  refine ⟨fun e _ hp => (by cases hp), fun a ha p' hp => ?_⟩
  obtain rfl := Except.ok.inj ha
  obtain rfl := Except.ok.inj hp
  have hgroups := (hflush p₂ rfl).2
  rw [Batched, hgroups]
  refine ⟨length_batches hfill.full hfill.rest, fun g hg => ?_⟩
  rcases List.mem_append.mp hg with hg | hg
  · exact (hfill.full g hg).le
  · unfold batchOf at hg
    split_ifs at hg
    · cases hg
    · rw [List.mem_singleton.mp hg]
      exact hfill.rest.le

/-! ### What the loop holds -/

/-- The process ends at this call and at no other. -/
def KilledAt (env : Env) (c : Call) : Prop :=
  ∀ c' e, env.fault c' = some e → e.isException = false → c' = c

/-- The loop asks for its `i`-th document, or makes the row of it. -/
def Taking (i : ℕ) (c : Call) : Prop := c = .cursorNext i ∨ c = .docToRow i

/-- The number of rows in a spool file. -/
def rowsIn (w : World) (path : Path) : ℕ := (rowGroups (w.spool path)).flatten.length

/-- If the process has ended, the documents up to the `i`-th have their rows in the file, but for
`b` of them at most. -/
def Held {α : Type} (b i : ℕ) (path : Path) (r : Except Exc α) (w : World) : Prop :=
  ∀ e, r = .error e → e.isException = false → i < rowsIn w path + b

/-- The same run, but the process does not end at `c`. -/
def survivor (env : Env) (c : Call) : Env :=
  { env with fault := fun c' => if c' = c then none else env.fault c' }

section Killed

variable {α β : Type} {b k : ℕ} {c : Call} {path : Path} {seen : List Doc}

lemma KilledAt.unkilled (h : KilledAt env c) : Unkilled (survivor env c) := by
  intro c' e he
  replace he : (if c' = c then none else env.fault c') = some e := he
  split_ifs at he with hc
  by_contra hkill
  exact hc (h c' e he (by simpa using hkill))

/-- What makes no call for a document runs on. -/
lemma spared_elsewhere {m : Env → M α} (htaking : Taking k c) (h : KilledAt env c)
    (hm : ∀ env, Unkilled env → Spared (m env))
    (hnext : m (survivor env (.cursorNext k)) = m env)
    (hrow : m (survivor env (.docToRow k)) = m env) : Spared (m env) := by
  rcases htaking with rfl | rfl
  · rw [← hnext]
    exact hm _ h.unkilled
  · rw [← hrow]
    exact hm _ h.unkilled

lemma held_caught {r : Except Exc α} (h : Caught r) : Held b k path r w := by
  intro e he hkill
  rw [h e he] at hkill
  cases hkill

lemma held_raised {x : Except Exc α} {e : Exc} (h : Caught x) (he : x = .error e) :
    Held b k path (.error e : Except Exc β) w := by
  intro e' he' hkill
  obtain rfl := Except.error.inj he'
  rw [h e he] at hkill
  cases hkill

lemma Held.error {e : Exc} (h : Held b k path (.error e : Except Exc α) w) :
    Held b k path (.error e : Except Exc β) w := by
  intro e' he' hkill
  obtain rfl := Except.error.inj he'
  exact h e rfl hkill

lemma held_after {m : M α} {f : α → M β} (hm : Spared m)
    (hf : ∀ a w', Ensures (f a) w' (Held b k path)) : Ensures (m >>= f) w (Held b k path) :=
  Ensures.bind (hm w) (fun _ _ h => held_raised h rfl) fun a w' _ => hf a w'

lemma held_cleaningUp {body : M α} {handler : M Unit} (hh : Spared handler)
    (h : Ensures body w (Held b k path)) :
    Ensures (cleaningUp body handler) w (Held b k path) := by
  unfold cleaningUp
  rw [ensures_tryCatch]
  refine h.mono fun r w₁ h₁ => ?_
  rcases r with e | a
  · simp only
    split_ifs with he
    · exact held_after hh fun _ w₂ => held_caught fun e' h' => by cases h'; exact he
    · exact h₁.error
  · exact h₁

lemma held_closing {c' : Call} (hc : Spared (call env c')) {body : M α}
    (h : Ensures body w (Held b k path)) : Ensures (closing env c' body) w (Held b k path) := by
  unfold closing
  rw [ensures_bind, ensures_tryCatch]
  refine h.mono fun r w₁ h₁ => ?_
  rcases r with e | a
  · simp only
    rw [ensures_bind]
    unfold call
    rcases hfault : env.fault c' with _ | e'
    · exact h₁
    · refine held_raised (x := (exec (call env c') w₁).1) (hc w₁) ?_
      rw [call, hfault]
      rfl
  · exact held_after hc fun _ w₂ e he => by cases he

lemma spared_flush (henv : Unkilled env) : Spared (p.flush env) := by
  refine .bind (.ite (spared_pure _) (.bind ?_ fun sink => ?_)) fun _ => spared_pure _
  · exact .ite (spared_pure _) (.bind (spared_call henv _) fun _ =>
      .bind (spared_modify _) fun _ => spared_pure _)
  · exact .bind (spared_call henv _) fun _ => .bind spared_get fun _ =>
      .bind (spared_modify _) fun _ => spared_pure _

lemma spared_deliver (henv : Unkilled env) : Spared (deliver lib env cfg u ctx dbName p) := by
  refine .bind (.bind (spared_call henv _) fun _ => .bind spared_get fun _ => spared_pure _)
    fun result => .ite ?_ (.bind (spared_caughtUpload henv) fun outcome => ?_)
  · exact .bind (spared_unlink henv) fun _ => spared_pure _
  split
  · exact .bind (spared_abort henv) fun _ => spared_pure _
  refine .bind (.bind (spared_lift (caught_newWatermark _)) fun value => ?_) fun _ =>
    .bind (spared_unlink henv) fun _ => spared_pure _
  split
  · exact spared_pure _
  · exact .bind (spared_call henv _) fun _ => spared_modify _

/-- The documents that the loop has seen have their rows in the file, or still in the batch. -/
lemma landed_rowsIn (h : p.Landed lib cfg ctx seen w) :
    seen.length ≤ rowsIn w p.sink.path + p.rows.length := by
  obtain ⟨-, written, ⟨-, hspool⟩, hrows⟩ := h
  have hlen := hrows.length_eq
  rw [List.length_append] at hlen
  rcases hspool with ⟨-, rfl⟩ | ⟨-, groups, hfile, rfl⟩
  · rw [List.length_nil] at hlen
    omega
  · rw [rowsIn, hfile]
    exact hlen.le

/-- **One document**: the process ends before its row is held, if it ends. -/
lemma visit_held (htaking : Taking k c) (hkill : KilledAt env c) {doc : Doc}
    (hland : p.Landed lib cfg ctx seen w) (hfill : Filling cfg.batchSize.toNat w p) :
    Ensures (visit lib env cfg ctx seen.length doc p) w
      (Held cfg.batchSize.toNat k p.sink.path) := by
  have hrows := landed_rowsIn hland
  have hrest := hfill.rest
  have hat : ∀ c' e, Taking seen.length c' → env.fault c' = some e →
      Held cfg.batchSize.toNat k p.sink.path (.error e : Except Exc Progress) w := by
    intro c' e hc' he e' he' hexc
    obtain rfl := Except.error.inj he'
    obtain rfl := hkill c' e he hexc
    have hk : k = seen.length := by
      rcases hc' with rfl | rfl <;> rcases htaking with h | h <;> cases h <;> rfl
    omega
  unfold visit
  simp only [ensures_bind]
  refine ensures_call_raises (fun e he => hat _ e (.inl rfl) he) fun _ => ?_
  simp only
  refine ensures_lift ?_
  rcases hobs : p.strategy.observe lib.text doc with e | strategy
  · exact held_raised (caught_observe doc _) hobs
  simp only
  refine ensures_call_raises (fun e he => hat _ e (.inr rfl) he) fun _ => ?_
  simp only
  refine ensures_lift ?_
  rcases hrow : docToRow lib strategy ctx doc with e | row
  · exact held_raised (caught_docToRow lib _ ctx doc) hrow
  simp only
  split_ifs
  · refine (spared_elsewhere (m := fun env => Progress.flush env _) htaking hkill
      (fun _ => spared_flush) rfl rfl w).mono fun r w' h => held_caught h
  · exact held_caught (caught_ok _)

lemma visitAll_held (hb : 1 ≤ cfg.batchSize) (htaking : Taking k c) (hkill : KilledAt env c)
    {docs : List Doc} (hland : p.Landed lib cfg ctx seen w)
    (hfill : Filling cfg.batchSize.toNat w p) :
    Ensures (visitAll lib env cfg ctx seen.length docs p) w
      (Held cfg.batchSize.toNat k p.sink.path) := by
  induction docs generalizing seen p w with
  | nil =>
    have hrows := landed_rowsIn hland
    have hrest := hfill.rest
    unfold visitAll
    rw [ensures_bind]
    refine ensures_call_raises (fun e he e' he' hexc => ?_) fun _ => held_caught (caught_ok p)
    obtain rfl := Except.error.inj he'
    have hc := hkill _ e he hexc
    have hk : k = seen.length := by
      rcases htaking with h | h <;> rw [h] at hc <;> cases hc
      rfl
    omega
  | cons doc docs ih =>
    unfold visitAll
    refine Ensures.bind ((visit_ensures hland).and ((visit_filling hb hfill).and
      (visit_held htaking hkill hland hfill))) (fun e w₁ h => h.2.2) fun p₁ w₁ h => ?_
    obtain ⟨⟨-, hseen⟩, hfilling, -⟩ := h
    obtain ⟨hpath, hland₁⟩ := hseen p₁ rfl
    have hnext := ih hland₁ (hfilling p₁ rfl)
    rw [hpath, List.length_append] at hnext
    exact hnext

lemma readCursor_held (hb : 1 ≤ cfg.batchSize) (htaking : Taking k c) (hkill : KilledAt env c)
    {docs : List Doc} : Ensures (readCursor lib env cfg ctx docs (makeStrategy cfg) path) w
      (Held cfg.batchSize.toNat k path) := by
  have hstart : Progress.Landed lib cfg ctx [] w ⟨makeStrategy cfg, .make path, []⟩ :=
    ⟨rfl, [], ⟨rfl, .inl ⟨rfl, rfl⟩⟩, .nil⟩
  have habort : Spared (abort env path) :=
    spared_elsewhere (m := fun env => abort env path) htaking hkill (fun _ => spared_abort) rfl rfl
  have hclose : Spared (call env .cursorClose) :=
    spared_elsewhere (m := fun env => call env .cursorClose) htaking hkill
      (fun _ henv => spared_call henv _) rfl rfl
  refine held_closing hclose (held_cleaningUp habort ?_)
  refine Ensures.bind (visitAll_held hb htaking hkill hstart (filling_start hb _ path))
    (fun e w₁ h => h) fun p₁ w₁ _ => ?_
  refine (spared_elsewhere (m := fun env => p₁.flush env) htaking hkill
    (fun _ => spared_flush) rfl rfl w₁).mono fun r w' h => held_caught h

/-- **An extraction holds a batch at most.** Wherever the process ends in the loop, the rows of
all other documents that the cursor has yielded are in the file. -/
theorem extractCollection_held (hb : 1 ≤ cfg.batchSize) (htaking : Taking k c)
    (hkill : KilledAt env c) : Ensures (extractCollection lib env cfg u ctx dbName) w
      (Held cfg.batchSize.toNat k (spoolPath ctx.spoolDir (spoolUnit cfg) "parquet")) := by
  have hget : Spared (call env (.getWatermark (namespaceOf cfg dbName))) :=
    spared_elsewhere (m := fun env => call env _) htaking hkill
      (fun _ henv => spared_call henv _) rfl rfl
  have hfind : Spared (call env (.find (namespaceOf cfg dbName))) :=
    spared_elsewhere (m := fun env => call env _) htaking hkill
      (fun _ henv => spared_call henv _) rfl rfl
  have hcheck : ∀ stored, Spared (checkKind (makeStrategy cfg) stored) := by
    rintro (_ | stored)
    · exact spared_pure ()
    · exact spared_lift (caught_validate _ _)
  refine held_after hget fun _ _ => held_after spared_get fun _ _ => held_after (hcheck _)
    fun _ _ => held_after (spared_lift (caught_buildFilter _ _)) fun filter _ =>
      held_after hfind fun _ w₁ => ?_
  refine Ensures.bind (readCursor_held hb htaking hkill) (fun e w₂ h => h.error) fun p₁ w₂ _ => ?_
  have habort : Spared (abort env (spoolPath ctx.spoolDir (spoolUnit cfg) "parquet")) :=
    spared_elsewhere (m := fun env => abort env _) htaking hkill (fun _ => spared_abort) rfl rfl
  have hdeliver : Spared (deliver lib env cfg u ctx dbName p₁) :=
    spared_elsewhere (m := fun env => deliver lib env cfg u ctx dbName p₁) htaking hkill
      (fun _ => spared_deliver) rfl rfl
  split_ifs
  · exact held_after habort fun _ w₃ => held_caught (caught_ok _)
  · exact (hdeliver w₂).mono fun r w' h => held_caught h

end Killed

/-! ### The maximum over the documents -/

variable {text : Value → String} {docs : List Doc}

/-- `observe` takes `v` in the place of `m`: `v` is greater, or, where the two do not compare, its
text is. -/
def exceeds (text : Value → String) (v m : Value) : Bool :=
  (pyGt v m).toOption.getD (decide (pyStr text m < pyStr text v))

/-- The `_id` that `observe` goes by, if the document has one. -/
def seenId (doc : Doc) : Option Value :=
  match get doc "_id" with
  | none | some .null => none
  | some v => some v

def seenIds (docs : List Doc) : List Value := docs.filterMap seenId

/-- An `_id` of the documents that none of theirs exceeds. -/
def Topmost (text : Value → String) (docs : List Doc) (v : Value) : Prop :=
  v ∈ seenIds docs ∧ ∀ v' ∈ seenIds docs, ¬ exceeds text v' v

/-- The text of the maximum over the documents, of whatever the collection tracks. -/
def MaximumOf (text : Value → String) (cfg : CollectionConfig) (docs : List Doc)
    (value : String) : Prop :=
  match cfg.mode with
  | .appendOnly => ∃ v, Topmost text docs v ∧ pyStr text v = value
  | .mutable => ∃ field m, cfg.watermarkField = some field ∧ Latest field docs m ∧
      formatTs m = .ok value
  | .fullRefresh => False

/-- If the collection tracks `_id`s, there is one among them such that those that it does not
exceed are exceeded by none. -/
def Comparable (text : Value → String) (cfg : CollectionConfig) (docs : List Doc) : Prop :=
  cfg.mode = .appendOnly → Ranked (exceeds text) (seenIds docs)

/-- All of them ObjectIds, all integers, or all strings. -/
def OfOneKind (ids : List Value) : Prop :=
  (∀ v ∈ ids, ∃ o, v = .oid o) ∨ (∀ v ∈ ids, ∃ n, v = .int n) ∨ ∀ v ∈ ids, ∃ s, v = .str s

/-- What is committed for the documents: the text of an `_id` or a date of theirs, and of their
maximum where there is one. -/
structure Measures (text : Value → String) (cfg : CollectionConfig) (docs : List Doc)
    (value : String) : Prop where
  observed : cfg.mode = .appendOnly → ∃ v ∈ seenIds docs, pyStr text v = value
  maximum : Comparable text cfg docs → MaximumOf text cfg docs value
  ofOneKind : OfOneKind (seenIds docs) → MaximumOf text cfg docs value

lemma pyGt_raises {a b : Value} {e : Exc} (h : pyGt a b = .error e) : e.cls = .typeError := by
  unfold pyGt at h
  split at h
  · cases h
  · cases h
  · unfold Datetime.gt at h
    split_ifs at h
    exact congrArg Exc.cls (Except.error.inj h).symm
  · split at h
    · cases h
    · exact congrArg Exc.cls (Except.error.inj h).symm

lemma observeId_exceeds (m v : Value) : Strategy.observeId text (some m) v =
    .ok (some (if exceeds text v m then v else m)) := by
  rcases hgt : pyGt v m with e | bigger
  · simp [Strategy.observeId, exceeds, hgt, pyGt_raises hgt, Except.toOption]
  · simp [Strategy.observeId, exceeds, hgt, Except.toOption]

lemma exceeds_irrefl (v : Value) : ¬ exceeds text v v := by
  cases v <;> simp [exceeds, pyGt, Value.number, Datetime.gt, raise, Except.toOption]

lemma exceeds_oid (a b : ObjectId) : exceeds text (.oid a) (.oid b) ↔ b.val < a.val := by
  simp [exceeds, pyGt, Except.toOption]

lemma exceeds_int (k n : ℤ) : exceeds text (.int k) (.int n) ↔ n < k := by
  simp [exceeds, pyGt, Value.number, Except.toOption]

lemma exceeds_str (a b : String) : exceeds text (.str a) (.str b) ↔ b < a := by
  simp [exceeds, pyGt, Except.toOption]

/-- Among `_id`s of one kind there is a greatest. -/
lemma ranked_ofOneKind {ids : List Value} (hne : ids ≠ []) (h : OfOneKind ids) :
    Ranked (exceeds text) ids := by
  rcases h with h | h | h
  · exact ranked_of_order exceeds_oid hne h
  · exact ranked_of_order exceeds_int hne h
  · exact ranked_of_order exceeds_str hne h

/-- **One observation** is a challenge to the `_id` that stands. -/
lemma observe_challenge (doc : Doc) (maxId : Option Value) :
    Strategy.observe text doc (.objectId cfg maxId) =
      .ok (.objectId cfg (championFrom (exceeds text) maxId (seenId doc).toList)) := by
  rcases hv : get doc "_id" with _ | v
  · simp only [Strategy.observe, seenId, hv]
    rfl
  by_cases hnull : v = .null
  · subst hnull
    simp only [Strategy.observe, seenId, hv]
    rfl
  · simp only [Strategy.observe, seenId, hv]
    rcases maxId with _ | m
    · rfl
    · rw [observeId_exceeds]
      rfl

/-- **All observations**: the champion of the `_id`s. -/
theorem observeAll_champion (maxId : Option Value) :
    Strategy.observeAll text docs (.objectId cfg maxId) =
      .ok (.objectId cfg (championFrom (exceeds text) maxId (seenIds docs))) := by
  induction docs generalizing maxId with
  | nil => rfl
  | cons doc docs ih =>
    have hids : seenIds (doc :: docs) = (seenId doc).toList ++ seenIds docs := by
      unfold seenIds
      rw [List.filterMap_cons]
      cases seenId doc <;> rfl
    rw [Strategy.observeAll, observe_challenge, hids, championFrom_append]
    exact ih _

lemma newWatermark_measures {strategy : Strategy} {value : String}
    (hobs : (makeStrategy cfg).observeAll text docs = .ok strategy)
    (hwm : strategy.newWatermark text = .ok (some value)) : Measures text cfg docs value := by
  rcases hmode : cfg.mode
  · rw [makeStrategy_appendOnly hmode, observeAll_champion] at hobs
    obtain rfl := Except.ok.inj hobs
    obtain ⟨v, hv, hvalue⟩ := Option.map_eq_some_iff.mp (Except.ok.inj hwm)
    have hmem : v ∈ seenIds docs := champion_some hv
    have htop : Ranked (exceeds text) (seenIds docs) → MaximumOf text cfg docs value := by
      intro hranked
      unfold MaximumOf
      rw [hmode]
      exact ⟨v, ⟨hmem, champion_unbeaten exceeds_irrefl hranked hv⟩, hvalue⟩
    exact ⟨fun _ => ⟨v, hmem, hvalue⟩, fun hcomp => htop (hcomp hmode),
      fun hkind => htop (ranked_ofOneKind (List.ne_nil_of_mem hmem) hkind)⟩
  · obtain ⟨field, hfield⟩ := Option.isSome_iff_exists.mp (cfg.field_of_mutable hmode)
    rw [makeStrategy_mutable hmode hfield] at hobs
    obtain ⟨maxVal, rfl, ⟨rfl, -⟩ | ⟨m, rfl, hlatest⟩⟩ := observeAll_latest hobs
    · cases hwm
    · obtain ⟨v, hv, hwm⟩ := bind_ok hwm
      obtain rfl := Option.some.inj (Except.ok.inj hwm)
      have hmax : MaximumOf text cfg docs v := by
        unfold MaximumOf
        rw [hmode]
        exact ⟨field, m, hfield, hlatest, hv⟩
      exact ⟨fun h => absurd (hmode.symm.trans h) (by decide), fun _ => hmax, fun _ => hmax⟩
  · rw [newWatermark_fullRefresh hmode hobs] at hwm
    cases hwm

/-! ### The extraction -/

/-- The upload of a file, and the commit of a watermark, if there is one. -/
def Shipped (lib : Libs) (env : Env) (cfg : CollectionConfig) (u : S3Uploader) (ctx : RunContext)
    (dbName : String) (content : Content) (strategy : Strategy) (w w' : World) : Prop :=
  strategy.newWatermark lib.text = .ok none ∧
      Wrote w w' [.put ⟨mongoKey u.pre dbName cfg.name ctx.runDt, content⟩] ∨
    ∃ value, strategy.newWatermark lib.text = .ok (some value) ∧
      Wrote w w' [.put ⟨mongoKey u.pre dbName cfg.name ctx.runDt, content⟩,
        .setWatermark (namespaceOf cfg dbName) ⟨strategy.kind, value,
          env.clock (.setWatermark (namespaceOf cfg dbName)), ctx.runId⟩]

/-- These documents are in the bucket: their rows, in their order and nothing else, in as many
row groups as it takes. What is committed, if anything is, is measured on them. -/
def Delivered (lib : Libs) (env : Env) (cfg : CollectionConfig) (u : S3Uploader) (ctx : RunContext)
    (dbName : String) (docs : List Doc) (res : UnitResult) (w w' : World) : Prop :=
  ∃ groups strategy, RowsOf lib cfg ctx docs groups.flatten ∧
    groups.length = (docs.length + cfg.batchSize.toNat - 1) / cfg.batchSize.toNat ∧
    (∀ g ∈ groups, g.length ≤ cfg.batchSize.toNat) ∧ res.docs = docs.length ∧
    (makeStrategy cfg).observeAll lib.text docs = .ok strategy ∧
    (∀ value, strategy.newWatermark lib.text = .ok (some value) →
      Measures lib.text cfg docs value) ∧
    Shipped lib env cfg u ctx dbName (.parquet groups) strategy w w'

/-- What an extraction has done that ends with a result, by its status. -/
def Exact (lib : Libs) (env : Env) (cfg : CollectionConfig) (u : S3Uploader) (ctx : RunContext)
    (dbName : String) (w : World) (r : Except Exc UnitResult) (w' : World) : Prop :=
  ∀ res, r = .ok res →
    ∃ filter, filterFor cfg (w.store.watermarks (namespaceOf cfg dbName)) = .ok filter ∧
      (res.status = .ok → ctx.dryRun = false → Delivered lib env cfg u ctx dbName
        (env.find filter (makeStrategy cfg).sortSpec) res w w') ∧
      (res.status = .empty → env.find filter (makeStrategy cfg).sortSpec = [] ∧ Wrote w w' [])

lemma deliver_ships {content : Content} (hspool : w.spool p.sink.path = some content) :
    Ensures (deliver lib env cfg u ctx dbName p) w fun r w' => ∀ res, r = .ok res →
      res.status ≠ .empty ∧ (res.status = .ok → ctx.dryRun = false →
        res.docs = p.sink.rows ∧ Shipped lib env cfg u ctx dbName content p.strategy w w') := by
  unfold deliver ParquetVariantSink.close
  simp only [ensures_bind]
  refine ensures_call (fun e _ hr => by cases hr) fun _ => ?_
  simp only [ensures_get, ensures_pure]
  by_cases hdry : ctx.dryRun
  · rw [if_pos hdry, ensures_bind]
    refine (quiet_unlink p.sink.path w).mono fun r w₁ _ => ?_
    rcases r with e | _
    · exact fun _ hr => by cases hr
    · intro res hr
      obtain rfl := Except.ok.inj hr
      exact ⟨by simp, fun _ h => by simp [hdry] at h⟩
  rw [if_neg hdry]
  refine Ensures.bind (tryUpload_ensures hspool) (fun e w₁ _ _ hr => by cases hr) ?_
  rintro (e | uploaded) w₁ h₁
  · simp only
    refine Ensures.bind (quiet_abort p.sink.path w₁) (fun e w₂ _ _ hr => by cases hr) ?_
    intro _ w₂ _ res hr
    obtain rfl := Except.ok.inj hr
    exact ⟨by simp, fun h => by simp at h⟩
  simp only
  have hput := h₁.resolve_left fun h => h.1 uploaded rfl
  refine Ensures.bind commitWatermark_ensures (fun e w₂ _ _ hr => by cases hr) fun _ w₂ h₂ => ?_
  refine Ensures.bind (quiet_unlink p.sink.path w₂) (fun e w₃ _ _ hr => by cases hr) ?_
  intro _ w₃ h₃ res hr
  obtain rfl := Except.ok.inj hr
  refine ⟨by simp, fun _ _ => ⟨rfl, ?_⟩⟩
  rcases h₂ with ⟨h₂, hnone⟩ | ⟨value, hwm, h₂⟩
  · exact .inl ⟨hnone rfl, hput.trans (h₂.trans h₃)⟩
  · exact .inr ⟨value, hwm, hput.trans (h₂.trans h₃)⟩

/-- What follows the loop, when the file is in batches. -/
lemma deliver_exact (hland : p.Landed lib cfg ctx docs w) (hnil : p.rows = [])
    (hbatched : Batched cfg.batchSize.toNat (groupsOf p.sink w)) (hne : p.sink.rows ≠ 0) :
    Ensures (deliver lib env cfg u ctx dbName p) w fun r w' => ∀ res, r = .ok res →
      res.status ≠ .empty ∧ (res.status = .ok → ctx.dryRun = false →
        Delivered lib env cfg u ctx dbName docs res w w') := by
  obtain ⟨hobs, rows, ⟨hlen, hheld⟩, hrows⟩ := hland
  rw [hnil, List.append_nil] at hrows
  obtain ⟨hopen, groups, hspool, rfl⟩ := hheld.resolve_left fun h => hne (by rw [hlen, h.2]; rfl)
  rw [groupsOf, if_pos hopen, hspool] at hbatched
  have hcount : groups.flatten.length = docs.length := hrows.length_eq.symm
  obtain ⟨hgroups, hsize⟩ := hbatched
  refine (deliver_ships hspool).mono fun r w' h res hr => ?_
  refine ⟨(h res hr).1, fun hok hdry => ?_⟩
  obtain ⟨hdocs, hshipped⟩ := (h res hr).2 hok hdry
  refine ⟨groups, p.strategy, hrows, ?_, hsize, by rw [hdocs, hlen, hcount], hobs,
    fun value hwm => newWatermark_measures hobs hwm, hshipped⟩
  rw [← hcount]
  exact hgroups

lemma extractCollection_exact (hb : 1 ≤ cfg.batchSize) :
    Ensures (extractCollection lib env cfg u ctx dbName) w
      (Exact lib env cfg u ctx dbName w) := by
  have herr : ∀ (e : Exc) (w' : World), Exact lib env cfg u ctx dbName w (.error e) w' :=
    fun e w' _ hr => by cases hr
  refine ensures_extractCollection (fun e => herr e w) fun filter hf => ?_
  refine (readCursor_ensures.and (readCursor_batched hb)).mono fun r w₂ ⟨⟨h₂, hread⟩, hbatch⟩ => ?_
  rcases r with e | p
  · exact herr e _
  obtain ⟨-, hnil, hland⟩ := hread p rfl
  show if p.sink.rows = 0 then _ else _
  split_ifs with hrows
  · refine (quiet_abort _ w₂).mono fun r w₃ h₃ => ?_
    rcases r with e | _
    · exact herr e _
    intro res hr
    obtain rfl := Except.ok.inj hr
    obtain ⟨-, rows, ⟨hlen, -⟩, hall⟩ := hland
    obtain rfl := List.length_eq_zero_iff.mp (hlen.symm.trans hrows)
    rw [hnil] at hall
    exact ⟨filter, hf, fun h => by simp at h,
      fun _ => ⟨List.forall₂_nil_right_iff.mp hall, h₂.trans h₃⟩⟩
  · refine (deliver_exact hland hnil (hbatch p rfl) hrows).mono fun r w₃ h res hr => ?_
    obtain ⟨hstatus, hdelivered⟩ := h res hr
    refine ⟨filter, hf, fun hok hdry => ?_, fun hempty => absurd hempty hstatus⟩
    obtain ⟨groups, strategy, hrowsOf, hlen, hsize, hdocs, hobs, hmax, hship⟩ := hdelivered hok hdry
    exact ⟨groups, strategy, hrowsOf, hlen, hsize, hdocs, hobs, hmax, hship.imp
      (fun h => ⟨h.1, h₂.trans h.2⟩) fun ⟨value, hwm, h⟩ => ⟨value, hwm, h₂.trans h⟩⟩

/-- **An extraction uploads exactly what it observed**, and holds a batch at most, wherever the
process ends in its loop. -/
theorem extraction_exact (hb : 1 ≤ cfg.batchSize) :
    Ensures (extractCollection lib env cfg u ctx dbName) w (Exact lib env cfg u ctx dbName w) ∧
      ∀ i c, Taking i c → KilledAt env c → Ensures (extractCollection lib env cfg u ctx dbName) w
        (Held cfg.batchSize.toNat i (spoolPath ctx.spoolDir (spoolUnit cfg) "parquet")) :=
  ⟨extractCollection_exact hb, fun _ _ htaking hkill => extractCollection_held hb htaking hkill⟩

/-! ### A second run, in batches of two -/

def smallBatches : CollectionConfig where
  name := "AS_Queue"
  mode := .appendOnly
  batchSize := 2
  field_of_mutable := appendOnly_field

/-- The document that the first run found, and two that were inserted after it. -/
def sampleDocs : List Doc :=
  [[("_id", .oid sampleId)], [("_id", .oid ⟨1700000000 * 2 ^ 64 + 2, by decide⟩)],
    [("_id", .oid ⟨1700000000 * 2 ^ 64 + 3, by decide⟩)]]

def sampleReads : Env := calmReads sampleDocs sampleNow

/-- The process ends as the third document is asked for. -/
def sampleKilled : Env :=
  { sampleReads with fault := fun c => if c = .cursorNext 2 then some ⟨.killed, ""⟩ else none }

def sampleWorld : World :=
  .start (StateStore.empty.setWatermark "mongo:db.AS_Queue"
    ⟨"objectid", sampleId.str, sampleNow, "r0"⟩)

def sampleExtraction (env : Env) : M UnitResult :=
  extractCollection plainLibs env smallBatches sampleUploader sampleCtx "db"

lemma sampleKilled_at : KilledAt sampleKilled (.cursorNext 2) := by
  intro c e he _
  by_contra hc
  have hnone : sampleKilled.fault c = none := if_neg hc
  rw [hnone] at he
  cases he

/-- The run delivers the three documents. If it is killed with the third still to come, the file
has rows of the two before. -/
theorem extraction_exact_sample :
    (∃ docs res w', exec (sampleExtraction sampleReads) sampleWorld = (.ok res, w') ∧
      docs.length = 3 ∧ Delivered plainLibs sampleReads smallBatches sampleUploader sampleCtx "db"
        docs res sampleWorld w') ∧
    ∃ e w', exec (sampleExtraction sampleKilled) sampleWorld = (.error e, w') ∧
      2 < rowsIn w' "spool/AS_Queue.parquet" + 2 := by
  have hexact : Ensures (sampleExtraction sampleReads) sampleWorld
      (Exact plainLibs sampleReads smallBatches sampleUploader sampleCtx "db" sampleWorld) :=
    (extraction_exact (by decide)).1
  have hheld : Ensures (sampleExtraction sampleKilled) sampleWorld
      (Held 2 2 "spool/AS_Queue.parquet") :=
    (extraction_exact (by decide)).2 2 _ (.inl rfl) sampleKilled_at
  have hends : (exec (sampleExtraction sampleReads) sampleWorld).1.toOption.map
      (fun res => (res.status, res.docs)) = some (.ok, 3) := by
    decide +kernel
  have hkilled : (match (exec (sampleExtraction sampleKilled) sampleWorld).1 with
      | .ok _ => true
      | .error e => e.isException) = false := by
    decide +kernel
  unfold Ensures at hexact hheld
  constructor
  · rcases hrun : exec (sampleExtraction sampleReads) sampleWorld with ⟨e | res, w'⟩
    · rw [hrun] at hends
      cases hends
    rw [hrun] at hends hexact
    obtain ⟨hstatus, hdocs⟩ := Prod.mk.inj (Option.some.inj hends)
    obtain ⟨filter, -, hok, -⟩ := hexact res rfl
    have hdelivered := hok hstatus rfl
    obtain ⟨-, -, -, -, -, hcount, -⟩ := id hdelivered
    exact ⟨_, res, w', rfl, hcount.symm.trans hdocs, hdelivered⟩
  · rcases hrun : exec (sampleExtraction sampleKilled) sampleWorld with ⟨e | res, w'⟩
    · rw [hrun] at hkilled hheld
      exact ⟨e, w', rfl, hheld e rfl hkilled⟩
    · rw [hrun] at hkilled
      cases hkilled

/-! ### Two integers and a string -/

/-- In the order of the cursor. -/
def mixedDocs : List Doc := [[("_id", .int 9)], [("_id", .int 10)], [("_id", .str "5")]]

/-- The text of `10` is not above `"5"`, so `"5"` is committed; `9`, which is, came before. -/
theorem maximum_exceeded : ∃ r w',
    exec (sampleExtraction (calmReads mixedDocs sampleNow)) (.start StateStore.empty) = (r, w') ∧
      r.toOption.map (·.status) = some .ok ∧
      (w'.store.watermarks "mongo:db.AS_Queue").map (·.value) = some "5" ∧
      ¬ MaximumOf plainLibs.text smallBatches mixedDocs "5" := by
  refine ⟨_, _, rfl, by decide +kernel, by decide +kernel, ?_⟩
  rintro ⟨v, ⟨hv, htop⟩, hvalue⟩
  have hids : seenIds mixedDocs = [.int 9, .int 10, .str "5"] := rfl
  rw [hids] at hv htop
  have hnine := htop (.int 9) List.mem_cons_self
  simp only [List.mem_cons, List.not_mem_nil, or_false] at hv
  rcases hv with rfl | rfl | rfl
  · exact absurd hvalue (by decide)
  · exact absurd hvalue (by decide)
  · exact hnine (by decide)

end MongoSyncAgent.Batches
