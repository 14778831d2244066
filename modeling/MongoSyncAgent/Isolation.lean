import MongoSyncAgent.Cycle
import MongoSyncAgent.Exceptions
import MongoSyncAgent.SideBySide

/-!
The collections of a cycle do not reach each other.

They share the state store, the uploader and the spool directory, where two names that differ in
a dot have one file. An extraction reads of all that only its own watermark: it makes its spool
file anew before it reads it. So a list of collections gives what each of them gives alone.
-/

namespace MongoSyncAgent.Isolation

open MongoSyncAgent.Py MongoSyncAgent.Bson MongoSyncAgent.Config MongoSyncAgent.Runtime
open MongoSyncAgent.Sinks MongoSyncAgent.Watermarks MongoSyncAgent.Extract MongoSyncAgent.Keys
open MongoSyncAgent.Outcomes MongoSyncAgent.SideBySide MongoSyncAgent.Exceptions
open MongoSyncAgent.Cycle

/-! ### One extraction, from two worlds -/

section TwoWorlds

/-- Since their starts both worlds were written to alike. -/
def Along (s₀ t₀ s t : World) : Prop := ∃ j, Wrote s₀ s j ∧ Wrote t₀ t j

/-- An exception that the agent can catch, and the same behind it in both worlds. -/
def Failed (s₀ t₀ : World) (e : Exc) (s t : World) : Prop :=
  e.isException = true ∧ Along s₀ t₀ s t

variable {lib : Libs} {env : Env} {cfg : CollectionConfig} {u : S3Uploader} {ctx : RunContext}
  {dbName : String} {path : Path} {s₀ t₀ s t : World} {α : Type}

lemma Along.trans {s' t' : World} {j : List Effect} (h : Along s₀ t₀ s t) (hs : Wrote s s' j)
    (ht : Wrote t t' j) : Along s₀ t₀ s' t' := by
  obtain ⟨k, h₁, h₂⟩ := h
  exact ⟨k ++ j, h₁.trans hs, h₂.trans ht⟩

lemma same_call {c : Call} {P : World → World → Prop} (henv : Unkilled env)
    (h : Along s₀ t₀ s t) (hP : P s t) :
    Same (call env c) (call env c) s t (fun _ => P) (Failed s₀ t₀) := by
  unfold call
  rcases hf : env.fault c with _ | e
  · exact same_pure hP
  · exact same_throw ⟨henv c e hf, h⟩

lemma same_lift {x : Except Exc α} {P : World → World → Prop} (hx : Caught x)
    (h : Along s₀ t₀ s t) (hP : P s t) :
    Same (lift x) (lift x) s t (fun _ => P) (Failed s₀ t₀) := by
  rcases x with e | a
  · exact same_throw ⟨hx e rfl, h⟩
  · exact same_pure hP

lemma same_checkKind {strategy : Strategy} {stored : Option State.Watermark}
    (h : Along s₀ t₀ s t) :
    Same (checkKind strategy stored) (checkKind strategy stored) s t
      (fun _ => Along s₀ t₀) (Failed s₀ t₀) := by
  rcases stored with _ | stored
  · exact same_pure h
  · exact same_lift (caught_validate _ _) h h

lemma same_emit (path : Path) {e : Effect} (h : Along s₀ t₀ s t)
    (hs : s.spool path = t.spool path) :
    Same (emit e) (emit e) s t
      (fun _ s t => Along s₀ t₀ s t ∧ s.spool path = t.spool path) (Failed s₀ t₀) :=
  ⟨rfl, h.trans (j := [e]) ⟨rfl, rfl⟩ ⟨rfl, rfl⟩, hs⟩

lemma same_writeFile {c c' : Option Content} (hc : c = c') (h : Along s₀ t₀ s t) :
    Same (writeFile path c) (writeFile path c') s t
      (fun _ s t => Along s₀ t₀ s t ∧ s.spool path = t.spool path) (Failed s₀ t₀) := by
  subst hc
  refine ⟨rfl, h.trans (j := []) ⟨rfl, by simp⟩ ⟨rfl, by simp⟩, ?_⟩
  show (if path = path then c else _) = if path = path then c else _
  rw [if_pos rfl, if_pos rfl]

lemma same_ignoringErrors {body : M Unit}
    (h : Same body body s t (fun _ => Along s₀ t₀) (Failed s₀ t₀)) :
    Same (ignoringErrors body) (ignoringErrors body) s t (fun _ => Along s₀ t₀) (Failed s₀ t₀) := by
  refine h.tryCatch (fun _ _ _ h => h) fun e s' t' ⟨he, h'⟩ => ?_
  rw [if_pos he]
  exact same_pure h'

lemma same_abort (henv : Unkilled env) (h : Along s₀ t₀ s t) :
    Same (abort env path) (abort env path) s t (fun _ => Along s₀ t₀) (Failed s₀ t₀) := by
  refine Same.bind (same_ignoringErrors (same_call henv h h)) fun _ s₁ t₁ h₁ => ?_
  refine same_ignoringErrors (Same.bind (same_call henv h₁ h₁) fun _ s₂ t₂ h₂ => ?_)
  exact (same_writeFile rfl h₂).mono (fun _ _ _ h => h.1) fun _ _ _ h => h

lemma same_unlink (henv : Unkilled env) (h : Along s₀ t₀ s t) :
    Same (unlink env path) (unlink env path) s t (fun _ => Along s₀ t₀) (Failed s₀ t₀) := by
  refine Same.bind (same_call henv h h) fun _ s₁ t₁ h₁ => ?_
  exact (same_writeFile rfl h₁).mono (fun _ _ _ h => h.1) fun _ _ _ h => h

/-! ### The loop -/

/-- The sink of an extraction: both worlds have the same file once it is made, and there are no
rows before. -/
structure Held (s₀ t₀ : World) (path : Path) (sink : ParquetVariantSink) (s t : World) : Prop where
  along : Along s₀ t₀ s t
  path_eq : sink.path = path
  opened : sink.rows ≠ 0 → sink.opened = true
  spool : sink.opened = true → s.spool path = t.spool path

variable {sink : ParquetVariantSink} {p : Progress}

lemma same_ensureWriter (henv : Unkilled env) (h : Held s₀ t₀ path sink s t) :
    Same (sink.ensureWriter env) (sink.ensureWriter env) s t
      (fun sink s t => Held s₀ t₀ path sink s t ∧ sink.opened = true) (Failed s₀ t₀) := by
  unfold ParquetVariantSink.ensureWriter
  by_cases ho : sink.opened
  · rw [if_pos ho]
    exact same_pure ⟨h, ho⟩
  rw [if_neg ho, h.path_eq]
  refine Same.bind (same_call henv h.along h.along) fun _ s₁ t₁ h₁ => ?_
  refine Same.bind (same_writeFile rfl h₁) fun _ s₂ t₂ ⟨h₂, hspool⟩ => ?_
  exact same_pure ⟨⟨h₂, rfl, fun _ => rfl, fun _ => hspool⟩, rfl⟩

lemma same_writeRows {rows : List Row} (henv : Unkilled env) (h : Held s₀ t₀ path sink s t) :
    Same (sink.writeRows env rows) (sink.writeRows env rows) s t (Held s₀ t₀ path)
      (Failed s₀ t₀) := by
  unfold ParquetVariantSink.writeRows
  by_cases hrows : rows = []
  · rw [if_pos hrows]
    exact same_pure h
  rw [if_neg hrows]
  refine Same.bind (same_ensureWriter henv h) fun sink s₁ t₁ ⟨h₁, hopen⟩ => ?_
  rw [h₁.path_eq]
  refine Same.bind (same_call henv h₁.along h₁) fun _ s₂ t₂ h₂ => ?_
  refine inStep_get (Same.bind (same_writeFile ?_ h₂.along) fun _ s₃ t₃ ⟨h₃, hspool⟩ => ?_)
  · rw [h₂.spool hopen]
  · exact same_pure ⟨h₃, rfl, fun _ => hopen, fun _ => hspool⟩

lemma same_flush (henv : Unkilled env) (h : Held s₀ t₀ path p.sink s t) :
    Same (p.flush env) (p.flush env) s t (fun p => Held s₀ t₀ path p.sink) (Failed s₀ t₀) :=
  Same.bind (same_writeRows henv h) fun _ _ _ h₁ => same_pure h₁

lemma same_visit {i : ℕ} {doc : Doc} (henv : Unkilled env) (h : Held s₀ t₀ path p.sink s t) :
    Same (visit lib env cfg ctx i doc p) (visit lib env cfg ctx i doc p) s t
      (fun p => Held s₀ t₀ path p.sink) (Failed s₀ t₀) := by
  refine Same.bind (same_call henv h.along h) fun _ s₁ t₁ h₁ => ?_
  refine Same.bind (same_lift (caught_observe _ _) h₁.along h₁) fun strategy s₂ t₂ h₂ => ?_
  refine Same.bind (same_call henv h₂.along h₂) fun _ s₃ t₃ h₃ => ?_
  refine Same.bind (same_lift (caught_docToRow _ _ _ _) h₃.along h₃) fun row s₄ t₄ h₄ => ?_
  simp only
  split_ifs
  · exact same_flush henv h₄
  · exact same_pure h₄

lemma same_visitAll {docs : List Doc} {i : ℕ} (henv : Unkilled env)
    (h : Held s₀ t₀ path p.sink s t) :
    Same (visitAll lib env cfg ctx i docs p) (visitAll lib env cfg ctx i docs p) s t
      (fun p => Held s₀ t₀ path p.sink) (Failed s₀ t₀) := by
  induction docs generalizing i p s t with
  | nil => exact Same.bind (same_call henv h.along h) fun _ _ _ h₁ => same_pure h₁
  | cons doc docs ih => exact Same.bind (same_visit henv h) fun _ _ _ h₁ => ih h₁

lemma same_cleaningUp {body : M Progress} (henv : Unkilled env)
    (h : Same body body s t (fun p => Held s₀ t₀ path p.sink) (Failed s₀ t₀)) :
    Same (cleaningUp body (abort env path)) (cleaningUp body (abort env path)) s t
      (fun p => Held s₀ t₀ path p.sink) (Failed s₀ t₀) := by
  refine h.tryCatch (fun _ _ _ h => h) fun e s₁ t₁ ⟨he, h₁⟩ => ?_
  rw [if_pos he]
  exact Same.bind (same_abort henv h₁) fun _ s₂ t₂ h₂ => same_throw ⟨he, h₂⟩

lemma same_closing {c : Call} {body : M Progress} (henv : Unkilled env)
    (h : Same body body s t (fun p => Held s₀ t₀ path p.sink) (Failed s₀ t₀)) :
    Same (closing env c body) (closing env c body) s t (fun p => Held s₀ t₀ path p.sink)
      (Failed s₀ t₀) := by
  refine Same.bind (h.tryCatch (fun _ _ _ h => h) fun e s₁ t₁ ⟨he, h₁⟩ => ?_) fun p s₁ t₁ h₁ => ?_
  · exact Same.bind (same_call henv h₁ h₁) fun _ s₂ t₂ h₂ => same_throw ⟨he, h₂⟩
  · exact Same.bind (same_call henv h₁.along h₁) fun _ _ _ h₂ => same_pure h₂

lemma same_readCursor {docs : List Doc} {strategy : Strategy} (henv : Unkilled env)
    (h : Along s₀ t₀ s t) :
    Same (readCursor lib env cfg ctx docs strategy path)
      (readCursor lib env cfg ctx docs strategy path) s t (fun p => Held s₀ t₀ path p.sink)
      (Failed s₀ t₀) := by
  have hstart : Held s₀ t₀ path (ParquetVariantSink.make path) s t :=
    ⟨h, rfl, fun hne => absurd rfl hne, fun ho => by cases ho⟩
  refine same_closing henv (same_cleaningUp henv ?_)
  exact Same.bind (same_visitAll henv hstart) fun p s₁ t₁ h₁ => same_flush henv h₁

/-! ### The upload and the commit -/

lemma same_upload {key : String} (henv : Unkilled env) (h : Along s₀ t₀ s t)
    (hspool : s.spool path = t.spool path) :
    Same (upload lib env u path key) (upload lib env u path key) s t (fun _ => Along s₀ t₀)
      (Failed s₀ t₀) := by
  have hput : Same (putObject env path key) (putObject env path key) s t (fun _ => Along s₀ t₀)
      (Failed s₀ t₀) := by
    refine Same.bind (same_call (P := fun s t => Along s₀ t₀ s t ∧ s.spool path = t.spool path)
      henv h ⟨h, hspool⟩) fun _ s₁ t₁ ⟨h₁, hs₁⟩ => ?_
    refine inStep_get ?_
    rw [hs₁]
    rcases t₁.spool path with _ | content
    · exact same_throw ⟨rfl, h₁⟩
    · refine Same.bind (same_emit path h₁ hs₁) fun _ s₂ t₂ ⟨h₂, _⟩ => ?_
      exact Same.bind (same_call henv h₂ h₂) fun _ _ _ h₃ => same_pure h₃
  refine Same.bind (same_call (P := fun s' t' => s' = s ∧ t' = t) henv h ⟨rfl, rfl⟩) ?_
  rintro _ s₁ t₁ ⟨rfl, rfl⟩
  refine Same.bind (Q := fun _ => Along s₀ t₀) (Same.tryCatch (Same.bind hput
    fun _ s₂ t₂ h₂ => Same.bind (same_call henv h₂ h₂) fun _ _ _ h₃ => same_pure h₃)
    (fun _ _ _ h => h) fun e s₂ t₂ ⟨he, h₂⟩ => ?_) fun _ _ _ h₂ => same_pure h₂
  split_ifs
  · exact same_throw ⟨rfl, h₂⟩
  · exact same_throw ⟨he, h₂⟩

lemma same_tryUpload {key : String} (henv : Unkilled env) (h : Along s₀ t₀ s t)
    (hspool : s.spool path = t.spool path) :
    Same (tryUpload lib env u path key) (tryUpload lib env u path key) s t
      (fun _ => Along s₀ t₀) (Failed s₀ t₀) := by
  refine Same.tryCatch (Q := fun _ => Along s₀ t₀) (Same.bind (same_upload henv h hspool)
    fun _ _ _ h₁ => same_pure h₁) (fun _ _ _ h => h) fun e s₁ t₁ ⟨he, h₁⟩ => ?_
  split_ifs
  · exact same_pure h₁
  · exact same_throw ⟨he, h₁⟩

lemma same_commitWatermark {strategy : Strategy} (henv : Unkilled env) (h : Along s₀ t₀ s t) :
    Same (commitWatermark lib env cfg ctx dbName strategy)
      (commitWatermark lib env cfg ctx dbName strategy) s t (fun _ => Along s₀ t₀)
      (Failed s₀ t₀) := by
  refine Same.bind (same_lift (caught_newWatermark _) h h) fun value s₁ t₁ h₁ => ?_
  rcases value with _ | value
  · exact same_pure h₁
  · refine Same.bind (same_call henv h₁ h₁) fun _ s₂ t₂ h₂ => ?_
    exact ⟨rfl, h₂.trans (j := [_]) ⟨rfl, rfl⟩ ⟨rfl, rfl⟩⟩

lemma same_deliver (henv : Unkilled env) (h : Held s₀ t₀ path p.sink s t)
    (hne : p.sink.rows ≠ 0) :
    Same (deliver lib env cfg u ctx dbName p) (deliver lib env cfg u ctx dbName p) s t
      (fun r s t => r.unit = cfg.name ∧ Along s₀ t₀ s t) (Failed s₀ t₀) := by
  have hspool := h.spool (h.opened hne)
  have halong := h.along
  have hpath := h.path_eq
  unfold deliver ParquetVariantSink.close
  rw [hpath]
  refine Same.bind (Q := fun _ s' t' => s' = s ∧ t' = t) (Same.bind (same_call (P := fun s' t' =>
    s' = s ∧ t' = t) henv halong ⟨rfl, rfl⟩) ?_) ?_
  · rintro _ s₁ t₁ ⟨rfl, rfl⟩
    refine inStep_get ?_
    rw [hspool]
    exact same_pure ⟨rfl, rfl⟩
  rintro result s₁ t₁ ⟨rfl, rfl⟩
  split_ifs
  · exact Same.bind (same_unlink henv halong) fun _ _ _ h₂ => same_pure ⟨rfl, h₂⟩
  refine Same.bind (same_tryUpload henv halong hspool) fun outcome s₂ t₂ h₂ => ?_
  rcases outcome with e | res
  · exact Same.bind (same_abort henv h₂) fun _ _ _ h₃ => same_pure ⟨rfl, h₃⟩
  · refine Same.bind (same_commitWatermark henv h₂) fun _ s₃ t₃ h₃ => ?_
    exact Same.bind (same_unlink henv h₃) fun _ _ _ h₄ => same_pure ⟨rfl, h₄⟩

/-- **An extraction depends only on its own watermark**: from two worlds that agree on it, it
ends the same, and writes the same to both journals. -/
theorem same_extractCollection (henv : Unkilled env)
    (h : s₀.store.watermarks (namespaceOf cfg dbName) =
      t₀.store.watermarks (namespaceOf cfg dbName)) :
    Same (extractCollection lib env cfg u ctx dbName) (extractCollection lib env cfg u ctx dbName)
      s₀ t₀ (fun r s t => r.unit = cfg.name ∧ Along s₀ t₀ s t) (Failed s₀ t₀) := by
  have hstart : Along s₀ t₀ s₀ t₀ := ⟨[], .nil, .nil⟩
  refine Same.bind (same_call (P := fun s' t' => s' = s₀ ∧ t' = t₀) henv hstart ⟨rfl, rfl⟩) ?_
  rintro _ s₁ t₁ ⟨rfl, rfl⟩
  refine inStep_get ?_
  rw [h]
  generalize t₁.store.watermarks (namespaceOf cfg dbName) = prev
  refine Same.bind (same_checkKind hstart) fun _ s₂ t₂ h₂ => ?_
  refine Same.bind (same_lift (caught_buildFilter _ _) h₂ h₂) fun filter s₃ t₃ h₃ => ?_
  refine Same.bind (same_call henv h₃ h₃) fun _ s₄ t₄ h₄ => ?_
  refine Same.bind (same_readCursor henv h₄) fun p s₅ t₅ h₅ => ?_
  split_ifs with hrows
  · exact Same.bind (same_abort henv h₅.along) fun _ _ _ h₆ => same_pure ⟨rfl, h₆⟩
  · exact same_deliver henv h₅ hrows

end TwoWorlds

/-! ### One collection of a list -/

variable {lib : Libs} {u : S3Uploader} {ctx : RunContext} {conn : Connection} {dbName : String}

/-- What connecting raises can be caught, and closing the client raises nothing. -/
structure Usable (conn : Connection) : Prop where
  connect : Caught conn.connect
  collection : ∀ name e, conn.collection name = some e → e.isException = true
  close : conn.close = none

variable (lib u ctx) in
/-- A collection of the list comes to a result, whatever fails, and that depends only on its own
watermark. -/
lemma same_extractUnit {cfg : CollectionConfig} {env : Env} {s₀ t₀ : World} (hconn : Usable conn)
    (henv : Unkilled env) (h : s₀.store.watermarks (namespaceOf cfg dbName) =
      t₀.store.watermarks (namespaceOf cfg dbName)) :
    Same (extractUnit lib u ctx conn dbName cfg env) (extractUnit lib u ctx conn dbName cfg env)
      s₀ t₀ (fun r s t => r.unit = cfg.name ∧ Along s₀ t₀ s t) fun _ _ _ => False := by
  have hstart : Along s₀ t₀ s₀ t₀ := ⟨[], .nil, .nil⟩
  unfold extractUnit
  split_ifs
  · exact same_pure ⟨rfl, hstart⟩
  have hhandle : Same (raising (conn.collection cfg.name)) (raising (conn.collection cfg.name))
      s₀ t₀ (fun _ s t => s = s₀ ∧ t = t₀) (Failed s₀ t₀) := by
    rcases hc : conn.collection cfg.name with _ | e
    · exact same_pure ⟨rfl, rfl⟩
    · exact same_throw ⟨hconn.collection _ e hc, hstart⟩
  have hbody := Same.bind hhandle fun _ s t hst => by
    obtain ⟨rfl, rfl⟩ := hst
    exact @same_extractCollection lib env cfg u ctx dbName s t henv h
  refine hbody.tryCatch (fun _ _ _ h => h) fun e s t ⟨he, h⟩ => ?_
  rw [if_pos he]
  exact same_pure ⟨rfl, h⟩

variable (lib u ctx conn dbName)

/-- A collection on its own, with a stored state. -/
def alone (s : State.StateStore) (c : CollectionConfig × Env) : Except Exc UnitResult × World :=
  exec (extractUnit lib u ctx conn dbName c.1 c.2) (World.start s)

/-- What only concerns a collection: uploads under its key, and its watermark. -/
def Own (cfg : CollectionConfig) (e : Effect) : Prop :=
  (∃ content, e = .put ⟨mongoKey u.pre dbName cfg.name ctx.runDt, content⟩) ∨
    ∃ wm, e = .setWatermark (namespaceOf cfg dbName) wm

variable {lib u ctx conn dbName}

lemma extractUnit_own {cfg : CollectionConfig} {env : Env} (w : World) :
    Ensures (extractUnit lib u ctx conn dbName cfg env) w fun _ w' =>
      ∃ j, Wrote w w' j ∧ ∀ e ∈ j, Own u ctx dbName cfg e := by
  have hnil : ∀ w', Wrote w w' [] → ∃ j, Wrote w w' j ∧ ∀ e ∈ j, Own u ctx dbName cfg e :=
    fun w' hw => ⟨[], hw, fun e he => by cases he⟩
  have hex : Ensures (extractCollection lib env cfg u ctx dbName) w fun _ w' =>
      ∃ j, Wrote w w' j ∧ ∀ e ∈ j, Own u ctx dbName cfg e := by
    refine extractCollection_ensures.mono fun r w' h => ?_
    rcases h with ⟨-, hw⟩ | ⟨filter, j, -, hw, hex⟩
    · exact hnil w' hw
    refine ⟨j, hw, fun e he => ?_⟩
    cases hex with
    | nothing => cases he
    | empty => cases he
    | uploaded => exact .inl ⟨_, List.mem_singleton.mp he⟩
    | committed =>
      rcases List.mem_cons.mp he with rfl | he
      · exact .inl ⟨_, rfl⟩
      · exact .inr ⟨_, List.mem_singleton.mp he⟩
  have hraise : Ensures (raising (conn.collection cfg.name)) w fun _ w' => w' = w := by
    rcases conn.collection cfg.name with _ | e <;> rfl
  have hbody : Ensures (raising (conn.collection cfg.name) >>= fun _ =>
      extractCollection lib env cfg u ctx dbName) w fun _ w' =>
        ∃ j, Wrote w w' j ∧ ∀ e ∈ j, Own u ctx dbName cfg e := by
    refine Ensures.bind hraise (fun e w' hw => ?_) fun _ w' hw => ?_ <;> subst hw
    · exact hnil _ .nil
    · exact hex
  unfold extractUnit isolating
  split_ifs
  · exact hnil _ .nil
  rw [ensures_tryCatch]
  refine hbody.mono fun r w' hw => ?_
  rcases r with e | a
  · simp only
    split_ifs
    · exact hw
    · exact hw
  · exact hw

lemma alone_own (s : State.StateStore) (c : CollectionConfig × Env) :
    ∀ e ∈ (alone lib u ctx conn dbName s c).2.journal, Own u ctx dbName c.1 e := by
  have hown : Ensures (extractUnit lib u ctx conn dbName c.1 c.2) (World.start s) _ :=
    extractUnit_own _
  obtain ⟨j, hw, hj⟩ := hown
  have hjournal : (alone lib u ctx conn dbName s c).2.journal = j := hw.2
  rw [hjournal]
  exact hj

lemma replay_watermark {j : List Effect} {ns : String}
    (h : ∀ e ∈ j, ∀ wm, e ≠ .setWatermark ns wm) (s : State.StateStore) :
    (replay s j).watermarks ns = s.watermarks ns := by
  induction j generalizing s with
  | nil => rfl
  | cons e j ih =>
    rw [replay_cons, ih fun e he => h e (List.mem_cons_of_mem _ he)]
    cases e with
    | setWatermark ns' wm =>
      have hne : ns ≠ ns' := fun heq => h _ List.mem_cons_self wm (by rw [heq])
      exact if_neg hne
    | _ => rfl

lemma namespaceOf_inj {cfg cfg' : CollectionConfig}
    (h : namespaceOf cfg dbName = namespaceOf cfg' dbName) : cfg.name = cfg'.name := by
  have := congrArg String.toList h
  simpa [namespaceOf, String.toList_inj] using this

lemma mongoKey_inj {pre name name' : String} {runDt : Timestamps.Datetime}
    (h : mongoKey pre dbName name runDt = mongoKey pre dbName name' runDt) : name = name' := by
  have := congrArg String.toList h
  simpa [mongoKey, String.toList_inj] using this

/-! ### A list of collections -/

/-- What a list of collections comes to: what each of them comes to alone. -/
structure Apart (lib : Libs) (u : S3Uploader) (ctx : RunContext) (conn : Connection)
    (dbName : String) (s : State.StateStore) (units : Collections) (results : List UnitResult)
    (j : List Effect) : Prop where
  ends : units.map (fun c => (alone lib u ctx conn dbName s c).1) = results.map .ok
  writes : j = units.flatMap fun c => (alone lib u ctx conn dbName s c).2.journal
  names : results.map (·.unit) = units.map (·.1.name)

variable (lib u ctx) in
/-- One collection, from a world that has its watermark as it was stored. -/
lemma extractUnit_alone {c : CollectionConfig × Env} {s : State.StateStore} {w : World}
    (hconn : Usable conn) (henv : Unkilled c.2)
    (h : w.store.watermarks (namespaceOf c.1 dbName) = s.watermarks (namespaceOf c.1 dbName)) :
    ∃ r, r.unit = c.1.name ∧ (alone lib u ctx conn dbName s c).1 = .ok r ∧
      Ensures (extractUnit lib u ctx conn dbName c.1 c.2) w fun r' w' =>
        r' = .ok r ∧ Wrote w w' (alone lib u ctx conn dbName s c).2.journal := by
  have hstart : (World.start s).store.watermarks (namespaceOf c.1 dbName) =
      w.store.watermarks (namespaceOf c.1 dbName) := h.symm
  obtain ⟨heq, hok, herr⟩ := (same_extractUnit lib u ctx hconn henv hstart).ends
  rcases hr : (alone lib u ctx conn dbName s c).1 with e | r
  · exact (herr e hr).elim
  obtain ⟨hunit, j, hj, hw⟩ := hok r hr
  have hj' : (alone lib u ctx conn dbName s c).2.journal = j := hj.2
  refine ⟨r, hunit, rfl, heq.symm.trans hr, ?_⟩
  rw [hj']
  exact hw

/-- **A list of collections** gives what its members give alone. -/
theorem extractUnits_apart {units : Collections} {s : State.StateStore} {w : World}
    (hconn : Usable conn) (henv : ∀ c ∈ units, Unkilled c.2)
    (hnames : (units.map (·.1.name)).Nodup)
    (h : ∀ c ∈ units, w.store.watermarks (namespaceOf c.1 dbName) =
      s.watermarks (namespaceOf c.1 dbName)) :
    Ensures (extractUnits lib u ctx conn dbName units) w fun r w' =>
      ∃ results j, r = .ok results ∧ Wrote w w' j ∧
        Apart lib u ctx conn dbName s units results j := by
  induction units generalizing w with
  | nil => exact ⟨[], [], rfl, .nil, rfl, rfl, rfl⟩
  | cons c units ih =>
    obtain ⟨cfg, env⟩ := c
    obtain ⟨hnew, hnames⟩ := List.nodup_cons.mp hnames
    obtain ⟨r, hunit, hr, hone⟩ := extractUnit_alone lib u ctx hconn
      (henv _ List.mem_cons_self) (h _ List.mem_cons_self)
    refine Ensures.bind hone (fun e w₁ he => by cases he.1) fun r' w₁ ⟨hr', h₁⟩ => ?_
    obtain rfl := Except.ok.inj hr'
    -- the first collection leaves the watermarks of the others
    have hrest : ∀ c ∈ units, w₁.store.watermarks (namespaceOf c.1 dbName) =
        s.watermarks (namespaceOf c.1 dbName) := by
      intro c hc
      rw [h₁.store, replay_watermark, h c (List.mem_cons_of_mem _ hc)]
      rintro e he wm rfl
      rcases alone_own s _ _ he with ⟨content, hput⟩ | ⟨wm', hset⟩
      · cases hput
      · refine hnew (List.mem_map.mpr ⟨c, hc, namespaceOf_inj (Effect.setWatermark.inj hset).1⟩)
    refine Ensures.bind (ih (fun c hc => henv c (List.mem_cons_of_mem _ hc)) hnames hrest)
      (fun e w₂ ⟨_, _, he, _⟩ => by cases he) fun results w₂ ⟨results', j, hres, h₂, hap⟩ => ?_
    obtain rfl := Except.ok.inj hres
    refine ⟨r' :: results, _, rfl, h₁.trans h₂, ?_, ?_, ?_⟩
    · rw [List.map_cons, List.map_cons, hap.ends, hr]
    · rw [List.flatMap_cons, hap.writes]
    · rw [List.map_cons, List.map_cons, hap.names, hunit]

/-- The result of a unit. -/
def resultOf (name : String) (results : List UnitResult) : Option UnitResult :=
  results.find? (·.unit = name)

/-- The object at a key after the uploads of a journal, if `before` was there. -/
def objectAt (key : String) (before : Option Content) (j : List Effect) : Option Content :=
  (puts j).foldl (fun o p => if p.key = key then some p.content else o) before

lemma objectAt_append (key : String) (before : Option Content) (j k : List Effect) :
    objectAt key before (j ++ k) = objectAt key (objectAt key before j) k := by
  simp [objectAt, puts, List.filterMap_append, List.foldl_append]

lemma objectAt_other {key : String} {j : List Effect}
    (h : ∀ e ∈ j, ∀ content, e ≠ .put ⟨key, content⟩) (before : Option Content) :
    objectAt key before j = before := by
  induction j with
  | nil => rfl
  | cons e j ih =>
    rw [← List.singleton_append, objectAt_append]
    have hone : objectAt key before [e] = before := by
      cases e with
      | put p =>
        have hne : p.key ≠ key := fun heq => h _ List.mem_cons_self p.content (by rw [← heq])
        exact if_neg hne
      | _ => rfl
    rw [hone]
    exact ih fun e he => h e (List.mem_cons_of_mem _ he)

lemma replay_watermark_congr {s t : State.StateStore} {ns : String}
    (h : s.watermarks ns = t.watermarks ns) (j : List Effect) :
    (replay s j).watermarks ns = (replay t j).watermarks ns := by
  induction j generalizing s t with
  | nil => exact h
  | cons e j ih =>
    refine ih ?_
    cases e with
    | setWatermark ns' wm =>
      show (if ns = ns' then some wm else _) = if ns = ns' then some wm else _
      rw [h]
    | _ => exact h

variable (lib u ctx conn dbName) in
/-- Collections of other names write nothing that concerns a collection. -/
lemma others_write {units : Collections} {cfg : CollectionConfig} (s : State.StateStore)
    (h : cfg.name ∉ units.map (·.1.name)) :
    ∀ e ∈ units.flatMap (fun c => (alone lib u ctx conn dbName s c).2.journal),
      (∀ wm, e ≠ .setWatermark (namespaceOf cfg dbName) wm) ∧
        ∀ content, e ≠ .put ⟨mongoKey u.pre dbName cfg.name ctx.runDt, content⟩ := by
  intro e he
  obtain ⟨c, hc, he⟩ := List.mem_flatMap.mp he
  have hne : c.1.name ≠ cfg.name := fun heq => h (List.mem_map.mpr ⟨c, hc, heq⟩)
  rcases alone_own s c e he with ⟨content, rfl⟩ | ⟨wm, rfl⟩
  · refine ⟨fun wm h => (by cases h), fun content' h => hne ?_⟩
    exact mongoKey_inj (congrArg Put.key (Effect.put.inj h))
  · exact ⟨fun wm' h => hne (namespaceOf_inj (Effect.setWatermark.inj h).1),
      fun content h => (by cases h)⟩

/-- What a collection ends with in a list is what it ends with alone. -/
lemma Apart.own {s : State.StateStore} {units : Collections} {results : List UnitResult}
    {j : List Effect} (h : Apart lib u ctx conn dbName s units results j)
    (hnames : (units.map (·.1.name)).Nodup) {c : CollectionConfig × Env} (hc : c ∈ units) :
    (resultOf c.1.name results).map .ok = some (alone lib u ctx conn dbName s c).1 ∧
      (∀ store, (replay store j).watermarks (namespaceOf c.1 dbName) =
        (replay store (alone lib u ctx conn dbName s c).2.journal).watermarks
          (namespaceOf c.1 dbName)) ∧
      ∀ before, objectAt (mongoKey u.pre dbName c.1.name ctx.runDt) before j =
        objectAt (mongoKey u.pre dbName c.1.name ctx.runDt) before
          (alone lib u ctx conn dbName s c).2.journal := by
  obtain ⟨l₁, l₂, rfl⟩ := List.append_of_mem hc
  obtain ⟨hends, rfl, hunits⟩ := h
  rw [List.map_append, List.map_cons] at hends hunits hnames
  obtain ⟨h₁, h₂, hdisj⟩ := List.nodup_append.mp hnames
  have hbefore : c.1.name ∉ l₁.map (·.1.name) := fun hmem => hdisj _ hmem _ List.mem_cons_self rfl
  have hafter : c.1.name ∉ l₂.map (·.1.name) := (List.nodup_cons.mp h₂).1
  have hw₁ := others_write lib u ctx conn dbName s hbefore
  have hw₂ := others_write lib u ctx conn dbName s hafter
  rw [List.flatMap_append, List.flatMap_cons]
  refine ⟨?_, fun store => ?_, fun before => ?_⟩
  · obtain ⟨r₁, r₂, rfl, hr₁, hr₂⟩ := List.map_eq_append_iff.mp hends.symm
    obtain ⟨r, r₂, rfl, hr, -⟩ := List.map_eq_cons_iff.mp hr₂
    rw [List.map_append, List.map_cons] at hunits
    have hlen : (r₁.map (·.unit)).length = (l₁.map (·.1.name)).length := by
      have := congrArg List.length hr₁
      simpa using this
    obtain ⟨hu₁, hu₂⟩ := List.append_inj hunits hlen
    have hnone : r₁.find? (·.unit = c.1.name) = none := by
      rw [List.find?_eq_none]
      intro x hx hunit
      refine hbefore ?_
      rw [← hu₁]
      exact List.mem_map.mpr ⟨x, hx, by simpa using hunit⟩
    have hhead : r.unit = c.1.name := (List.cons.inj hu₂).1
    rw [resultOf, List.find?_append, hnone, Option.none_or,
      List.find?_cons_of_pos (by simpa using hhead), Option.map_some, hr]
  · rw [replay_append, replay_append, replay_watermark fun e he => (hw₂ e he).1]
    exact replay_watermark_congr (replay_watermark (fun e he => (hw₁ e he).1) store) _
  · rw [objectAt_append, objectAt_append, objectAt_other fun e he => (hw₁ e he).2,
      objectAt_other fun e he => (hw₂ e he).2]

/-! ### `extract_all` -/

/-- How a collection of a list ends, where `r` and `e` are its result and its journal. -/
structure EndsAs (u : S3Uploader) (ctx : RunContext) (dbName : String) (w : World)
    (c : CollectionConfig × Env) (r : UnitResult) (e : List Effect) (results : List UnitResult)
    (w' : World) : Prop where
  result : resultOf c.1.name results = some r
  watermark : w'.store.watermarks (namespaceOf c.1 dbName) =
    (replay w.store e).watermarks (namespaceOf c.1 dbName)
  object : ∀ before, objectAt (mongoKey u.pre dbName c.1.name ctx.runDt) before w'.journal =
    objectAt (mongoKey u.pre dbName c.1.name ctx.runDt) before (w.journal ++ e)

lemma resultOf_failed {units : Collections} {c : CollectionConfig × Env} (hc : c ∈ units)
    (text : String) : resultOf c.1.name (units.map fun c => failedUnit c.1.name text) =
      some (failedUnit c.1.name text) := by
  induction units with
  | nil => cases hc
  | cons d units ih =>
    by_cases hd : d.1.name = c.1.name
    · rw [resultOf, List.map_cons, hd]
      exact List.find?_cons_of_pos (by simp [failedUnit])
    · rw [resultOf, List.map_cons, List.find?_cons_of_neg (by simp [failedUnit, hd])]
      refine ih ((List.mem_cons.mp hc).resolve_left ?_)
      rintro rfl
      exact hd rfl

/-- **Each collection ends in its own way**: there is one way for each collection to end, and
whatever list it is in, it ends so. -/
theorem extractAll_ends (hconn : Usable conn) (w : World) :
    ∃ (r : CollectionConfig × Env → UnitResult) (e : CollectionConfig × Env → List Effect),
      ∀ units : Collections, (∀ c ∈ units, Unkilled c.2) → (units.map (·.1.name)).Nodup →
        Ensures (extractAll lib u ctx conn dbName units) w fun end_ w' =>
          ∃ results, end_ = .ok results ∧ results.map (·.unit) = units.map (·.1.name) ∧
            ∀ c ∈ units, EndsAs u ctx dbName w c (r c) (e c) results w' := by
  have hfailed : ∀ text, ∀ units : Collections, ∃ results,
      (Except.ok (units.map fun c => failedUnit c.1.name text) : Except Exc _) = .ok results ∧
      results.map (·.unit) = units.map (·.1.name) ∧ ∀ c ∈ units,
        EndsAs u ctx dbName w c (failedUnit c.1.name text) [] results w := by
    intro text units
    refine ⟨_, rfl, by simp [failedUnit], fun c hc => ⟨resultOf_failed hc text, rfl, ?_⟩⟩
    intro before
    rw [List.append_nil]
  unfold extractAll
  rcases hc : conn.connect with e | answer
  · refine ⟨fun c => failedUnit c.1.name ("MongoDB connect error: " ++ e.text), fun _ => [],
      fun units _ _ => ?_⟩
    simp only [hconn.connect e hc, if_true]
    exact hfailed _ units
  rcases answer with _ | _
  · exact ⟨fun c => failedUnit c.1.name "MongoDB ping failed", fun _ => [],
      fun units _ _ => hfailed _ units⟩
  -- connected: each collection ends as it does alone
  refine ⟨fun c => (alone lib u ctx conn dbName w.store c).1.toOption.getD (failedUnit c.1.name ""),
    fun c => (alone lib u ctx conn dbName w.store c).2.journal, fun units henv hnames => ?_⟩
  have hunits := @extractUnits_apart lib u ctx conn dbName units w.store w hconn henv hnames
    fun _ _ => rfl
  unfold closingClient
  rw [hconn.close]
  refine Ensures.bind (P := fun end_ w' => ∃ results j, end_ = .ok results ∧ Wrote w w' j ∧
    Apart lib u ctx conn dbName w.store units results j) ?_ (fun e w₁ ⟨_, _, he, _⟩ => by cases he)
    fun results w₁ ⟨results', j, hres, hj, hap⟩ => ?_
  · rw [ensures_tryCatch]
    refine hunits.mono fun end_ w₁ ⟨results, j, hend, hrest⟩ => ?_
    subst hend
    exact ⟨results, j, rfl, hrest⟩
  · obtain rfl := Except.ok.inj hres
    refine ⟨results, rfl, hap.names, fun c hc => ?_⟩
    obtain ⟨hresult, hwm, hobj⟩ := hap.own hnames hc
    refine ⟨?_, ?_, fun before => ?_⟩
    · rcases ho : resultOf c.1.name results with _ | r'
      · rw [ho] at hresult
        cases hresult
      · rw [ho, Option.map_some] at hresult
        simp only [← Option.some.inj hresult]
        rfl
    · show w₁.store.watermarks _ = _
      rw [hj.store]
      exact hwm _
    · show objectAt _ before w₁.journal = _
      rw [hj.2, objectAt_append, objectAt_append, hobj]

/-- **Collections are isolated.** Two lists of collections with names of their own, from one
world: each gives one result for each of its collections, in its order, and a collection that is
in both has the same result, the same watermark and the same object at its key at the end,
whatever comes before or after it. -/
theorem collections_isolated {L₁ L₂ : Collections} (hconn : Usable conn)
    (henv₁ : ∀ c ∈ L₁, Unkilled c.2) (henv₂ : ∀ c ∈ L₂, Unkilled c.2)
    (hnames₁ : (L₁.map (·.1.name)).Nodup) (hnames₂ : (L₂.map (·.1.name)).Nodup) (w : World) :
    ∃ r₁ r₂ w₁ w₂, exec (extractAll lib u ctx conn dbName L₁) w = (.ok r₁, w₁) ∧
      exec (extractAll lib u ctx conn dbName L₂) w = (.ok r₂, w₂) ∧
      r₁.map (·.unit) = L₁.map (·.1.name) ∧ r₂.map (·.unit) = L₂.map (·.1.name) ∧
      ∀ c ∈ L₁, c ∈ L₂ →
        resultOf c.1.name r₁ = resultOf c.1.name r₂ ∧
        w₁.store.watermarks (namespaceOf c.1 dbName) =
          w₂.store.watermarks (namespaceOf c.1 dbName) ∧
        ∀ before, objectAt (mongoKey u.pre dbName c.1.name ctx.runDt) before w₁.journal =
          objectAt (mongoKey u.pre dbName c.1.name ctx.runDt) before w₂.journal := by
  obtain ⟨r, e, h⟩ := @extractAll_ends lib u ctx conn dbName hconn w
  obtain ⟨r₁, hr₁, hunits₁, hends₁⟩ := h L₁ henv₁ hnames₁
  obtain ⟨r₂, hr₂, hunits₂, hends₂⟩ := h L₂ henv₂ hnames₂
  refine ⟨r₁, r₂, _, _, Prod.ext hr₁ rfl, Prod.ext hr₂ rfl, hunits₁, hunits₂, fun c hc₁ hc₂ => ?_⟩
  have h₁ := hends₁ c hc₁
  have h₂ := hends₂ c hc₂
  refine ⟨h₁.result.trans h₂.result.symm, h₁.watermark.trans h₂.watermark.symm, fun before => ?_⟩
  exact (h₁.object before).trans (h₂.object before).symm

/-! ### Two collections with one spool file -/

def sampleCollection (name : String) : CollectionConfig where
  name := name
  mode := .appendOnly
  field_of_mutable := appendOnly_field

/-- The writer of the file fails at its end, and the file stays. -/
def sampleDotted : CollectionConfig × Env :=
  (sampleCollection "jobs.files",
    { calmReads [[("_id", .oid ⟨5, by decide⟩)]] sampleNow with
      fault := fun c => if c = .closeSpool "spool/jobs_files.parquet" then
        some ⟨.osError, "disk full"⟩ else none })

def samplePlain : CollectionConfig × Env :=
  (sampleCollection "jobs_files", calmReads [[("_id", .oid ⟨7, by decide⟩)]] sampleNow)

def sampleConnection : Connection := ⟨.ok true, fun _ => none, none⟩

theorem collections_isolated_sample : ∃ r₁ r₂ w₁ w₂,
    exec (extractAll plainLibs sampleUploader sampleCtx sampleConnection "db"
      [sampleDotted, samplePlain]) (World.start .empty) = (.ok r₁, w₁) ∧
    exec (extractAll plainLibs sampleUploader sampleCtx sampleConnection "db"
      [samplePlain, sampleDotted]) (World.start .empty) = (.ok r₂, w₂) ∧
    r₁.map (·.unit) = ["jobs.files", "jobs_files"] ∧
    r₂.map (·.unit) = ["jobs_files", "jobs.files"] ∧
    resultOf "jobs_files" r₁ = resultOf "jobs_files" r₂ ∧
    resultOf "jobs.files" r₁ = resultOf "jobs.files" r₂ := by
  have hconn : Usable sampleConnection :=
    ⟨fun _ h => (by cases h), fun _ _ h => (by cases h), rfl⟩
  have hdotted : Unkilled sampleDotted.2 := by
    intro c e h
    change (if c = .closeSpool "spool/jobs_files.parquet" then some (⟨.osError, "disk full"⟩ : Exc)
      else none) = some e at h
    split_ifs at h
    obtain rfl := Option.some.inj h
    rfl
  have hplain : Unkilled samplePlain.2 := fun c e h => by cases h
  have henv : ∀ c, c = sampleDotted ∨ c = samplePlain → Unkilled c.2 := by
    rintro c (rfl | rfl)
    · exact hdotted
    · exact hplain
  obtain ⟨r₁, r₂, w₁, w₂, h₁, h₂, hu₁, hu₂, hends⟩ := @collections_isolated plainLibs
    sampleUploader sampleCtx sampleConnection "db" [sampleDotted, samplePlain]
    [samplePlain, sampleDotted] hconn
    (fun c hc => henv c (by simpa using hc)) (fun c hc => henv c (by simpa [or_comm] using hc))
    (by decide) (by decide) (World.start .empty)
  exact ⟨r₁, r₂, w₁, w₂, h₁, h₂, hu₁, hu₂, (hends samplePlain (by simp) (by simp)).1,
    (hends sampleDotted (by simp) (by simp)).1⟩

end MongoSyncAgent.Isolation
