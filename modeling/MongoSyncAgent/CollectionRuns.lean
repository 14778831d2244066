import MongoSyncAgent.Extract
import MongoSyncAgent.Replication

/-!
Runs of one collection, each of which reads it at one moment.

What the next run asks for is the region of a replication in rounds: the collection is the
source, the rows in the bucket are what is delivered. Whatever the mode, runs are lossless if
writes only bring what the next run asks for.

Which documents the uploads were made of is kept beside the bucket.
-/

namespace MongoSyncAgent.CollectionRuns

open MongoSyncAgent.Py MongoSyncAgent.Bson MongoSyncAgent.Config MongoSyncAgent.State
open MongoSyncAgent.Runtime MongoSyncAgent.Sinks MongoSyncAgent.Watermarks MongoSyncAgent.Outcomes
open MongoSyncAgent.Extract MongoSyncAgent.Systems MongoSyncAgent.Replication MongoSyncAgent.Keys

structure MongoState where
  docs : List Doc
  store : StateStore
  bucket : List Put
  sent : List Doc

/-- A collection before the first run. -/
def MongoState.start (docs : List Doc) : MongoState := ⟨docs, StateStore.empty, [], []⟩

inductive MongoEvent
  | insert (doc : Doc)
  | update (old new : Doc)
  | delete (doc : Doc)
  | run (env : Env) (ctx : RunContext)

variable (lib : Libs) (cfg : CollectionConfig) (u : S3Uploader) (dbName : String)

/-- A run of the collection: how it ends, and what is left of it. -/
def extraction (env : Env) (ctx : RunContext) (store : StateStore) :
    Except Exc UnitResult × World :=
  exec (extractCollection lib env cfg u ctx dbName) (World.start store)

/-- The watermark that is stored for the collection. -/
def MongoState.stored (s : MongoState) : Option State.Watermark :=
  s.store.watermarks (namespaceOf cfg dbName)

/-- The documents that a run gets, if it comes to ask for them. -/
def MongoState.asked (s : MongoState) (env : Env) : List Doc :=
  match filterFor cfg (s.stored cfg dbName) with
  | .ok filter => env.find filter (makeStrategy cfg).sortSpec
  | .error _ => []

/-- The state that a journal leaves. -/
def MongoState.after (s : MongoState) (env : Env) (j : List Effect) : MongoState :=
  { s with
    store := replay s.store j
    bucket := s.bucket ++ puts j
    sent := s.sent ++ if puts j = [] then [] else s.asked cfg dbName env }

/-- The state after a run. -/
def MongoState.run (s : MongoState) (env : Env) (ctx : RunContext) : MongoState :=
  s.after cfg dbName env (extraction lib cfg u dbName env ctx s.store).2.journal

/-- A cursor yields the documents that match its filter, in some order. -/
def ReadsAtOnce (env : Env) (docs : List Doc) : Prop :=
  ∀ filter sort, (env.find filter sort).Perm (docs.filter filter.matches)

inductive MongoStep : MongoState → MongoEvent → MongoState → Prop
  | insert {s doc} : MongoStep s (.insert doc) { s with docs := doc :: s.docs }
  | update {s a b old new} (h : s.docs = a ++ old :: b) :
    MongoStep s (.update old new) { s with docs := a ++ new :: b }
  | delete {s a b doc} (h : s.docs = a ++ doc :: b) :
    MongoStep s (.delete doc) { s with docs := a ++ b }
  | run {s env ctx} (h : ReadsAtOnce env s.docs) :
    MongoStep s (.run env ctx) (s.run lib cfg u dbName env ctx)

/-- The start: no watermark, neither stored nor configured. -/
def mongoRuns : System MongoState MongoEvent where
  init s := s.stored cfg dbName = none ∧ cfg.initialWatermark = none
  step := MongoStep lib cfg u dbName

/-- An object has a row of the document. -/
def HasRow (doc : Doc) (p : Put) : Prop :=
  ∃ groups, p.content = .parquet groups ∧ ∃ row ∈ groups.flatten,
    row.payload = lib.dumps doc ∧ row.id = pyStr lib.text ((get doc "_id").getD .null)

def Uploaded (s : MongoState) (doc : Doc) : Prop := ∃ p ∈ s.bucket, HasRow lib doc p

/-- The next run asks for the document, if it gets to ask for anything. -/
def Awaited (s : MongoState) (doc : Doc) : Prop :=
  ∀ filter, filterFor cfg (s.stored cfg dbName) = .ok filter → filter.matches doc

/-- A run ended well: it was no dry run, and its status is neither of failure. -/
def EndedWell (ctx : RunContext) (r : Except Exc UnitResult) : Prop :=
  ctx.dryRun = false ∧ ∃ res, r = .ok res ∧ (res.status = .ok ∨ res.status = .empty)

variable {lib cfg u dbName} {s : MongoState} {env : Env} {ctx : RunContext}

/-! ### One run -/

lemma asked_eq {filter : Filter} (hf : filterFor cfg (s.stored cfg dbName) = .ok filter) :
    s.asked cfg dbName env = env.find filter (makeStrategy cfg).sortSpec := by
  simp only [MongoState.asked, hf]

lemma hasRow_of_rowsOf {docs : List Doc} {groups : List (List Row)} {key : String}
    (h : RowsOf lib cfg ctx docs groups.flatten) {doc : Doc} (hd : doc ∈ docs) :
    HasRow lib doc ⟨key, .parquet groups⟩ := by
  obtain ⟨row, hmem, hrow⟩ := h.row_of_doc hd
  obtain ⟨⟨hid, hpayload⟩, -⟩ := docToRow_columns hrow
  exact ⟨groups, rfl, row, hmem, hpayload, hid⟩

variable (lib cfg u dbName) in
/-- The state after a run, by how it ended. -/
inductive Ran (s : MongoState) (env : Env) (ctx : RunContext) :
    Except Exc UnitResult → MongoState → Prop
  | nothing {r} (h : ¬ EndedWell ctx r) : Ran s env ctx r s
  | empty {r filter} (hf : filterFor cfg (s.stored cfg dbName) = .ok filter)
    (h : env.find filter (makeStrategy cfg).sortSpec = []) : Ran s env ctx r s
  | uploaded {r filter groups strategy} (hf : filterFor cfg (s.stored cfg dbName) = .ok filter)
    (hrows : RowsOf lib cfg ctx (env.find filter (makeStrategy cfg).sortSpec) groups.flatten)
    (hobs : (makeStrategy cfg).observeAll lib.text
      (env.find filter (makeStrategy cfg).sortSpec) = .ok strategy)
    (h : EndedWell ctx r → strategy.newWatermark lib.text = .ok none) :
    Ran s env ctx r
      { s with
        bucket := s.bucket ++ [⟨mongoKey u.pre dbName cfg.name ctx.runDt, .parquet groups⟩]
        sent := s.sent ++ env.find filter (makeStrategy cfg).sortSpec }
  | committed {r filter groups strategy value}
    (hf : filterFor cfg (s.stored cfg dbName) = .ok filter)
    (hrows : RowsOf lib cfg ctx (env.find filter (makeStrategy cfg).sortSpec) groups.flatten)
    (hobs : (makeStrategy cfg).observeAll lib.text
      (env.find filter (makeStrategy cfg).sortSpec) = .ok strategy)
    (hwm : strategy.newWatermark lib.text = .ok (some value)) :
    Ran s env ctx r
      { s with
        store := s.store.setWatermark (namespaceOf cfg dbName) ⟨(makeStrategy cfg).kind, value,
          env.clock (.setWatermark (namespaceOf cfg dbName)), ctx.runId⟩
        bucket := s.bucket ++ [⟨mongoKey u.pre dbName cfg.name ctx.runDt, .parquet groups⟩]
        sent := s.sent ++ env.find filter (makeStrategy cfg).sortSpec }

lemma not_endedWell {r : Except Exc UnitResult}
    (h : ∀ res, r = .ok res → res.status = .failed ∨ ctx.dryRun = true) : ¬ EndedWell ctx r := by
  rintro ⟨hdry, res, rfl, hstatus⟩
  rcases h res rfl with h | h
  · rcases hstatus with h' | h' <;> rw [h] at h' <;> cases h'
  · rw [hdry] at h
    cases h

variable (lib cfg u dbName) in
lemma extraction_cases (s : MongoState) (env : Env) (ctx : RunContext) :
    (∃ e, (extraction lib cfg u dbName env ctx s.store).1 = .error e) ∧
        (extraction lib cfg u dbName env ctx s.store).2.journal = [] ∨
      ∃ filter, filterFor cfg (s.stored cfg dbName) = .ok filter ∧
        Extracted lib env cfg u ctx dbName (env.find filter (makeStrategy cfg).sortSpec)
          (extraction lib cfg u dbName env ctx s.store).1
          (extraction lib cfg u dbName env ctx s.store).2.journal := by
  have h : Ensures (extractCollection lib env cfg u ctx dbName) (World.start s.store) _ :=
    extractCollection_ensures
  rcases h with ⟨he, hw⟩ | ⟨filter, j, hf, hw, hex⟩
  · exact .inl ⟨he, hw.2⟩
  · have hj : (extraction lib cfg u dbName env ctx s.store).2.journal = j := hw.2
    exact .inr ⟨filter, hf, hj ▸ hex⟩

variable (lib cfg u dbName) in
/-- **What a run does to the state.** -/
theorem run_cases (s : MongoState) (env : Env) (ctx : RunContext) :
    Ran lib cfg u dbName s env ctx (extraction lib cfg u dbName env ctx s.store).1
      (s.run lib cfg u dbName env ctx) := by
  have h := extraction_cases lib cfg u dbName s env ctx
  unfold MongoState.run
  generalize extraction lib cfg u dbName env ctx s.store = out at h ⊢
  have hnil : s.after cfg dbName env [] = s := by
    simp [MongoState.after, puts]
  rcases h with ⟨⟨e, hr⟩, hj⟩ | ⟨filter, hf, hex⟩
  · rw [hj, hnil, hr]
    exact .nothing fun ⟨_, _, hres, _⟩ => by cases hres
  generalize out.1 = r at hex ⊢
  generalize out.2.journal = j at hex ⊢
  cases hex with
  | nothing hfail =>
    rw [hnil]
    exact .nothing (not_endedWell hfail)
  | empty hempty =>
    rw [hnil]
    exact .empty hf hempty
  | uploaded hdry hrows hobs hend =>
    simp only [MongoState.after, asked_eq hf]
    refine .uploaded hf hrows hobs fun ⟨_, res, hres, hstatus⟩ => ?_
    refine (hend res hres).resolve_left fun h => ?_
    rcases hstatus with h' | h' <;> rw [h] at h' <;> cases h'
  | committed hdry hrows hobs hwm =>
    simp only [MongoState.after, asked_eq hf]
    exact .committed hf hrows hobs hwm

/-- The run commits this watermark. -/
def Commits (journal : List Effect) (cfg : CollectionConfig) (dbName : String)
    (wm : State.Watermark) : Prop :=
  .setWatermark (namespaceOf cfg dbName) wm ∈ journal

/-- What is committed is the new watermark of a strategy that has observed what the run got. -/
lemma commits_cases {wm : State.Watermark}
    (h : Commits (extraction lib cfg u dbName env ctx s.store).2.journal cfg dbName wm) :
    ∃ strategy, (makeStrategy cfg).observeAll lib.text (s.asked cfg dbName env) = .ok strategy ∧
      strategy.newWatermark lib.text = .ok (some wm.value) := by
  unfold Commits at h
  rcases extraction_cases lib cfg u dbName s env ctx with ⟨-, hj⟩ | ⟨filter, hf, hex⟩
  · rw [hj] at h
    cases h
  rw [asked_eq hf]
  generalize (extraction lib cfg u dbName env ctx s.store).1 = r at hex
  generalize (extraction lib cfg u dbName env ctx s.store).2.journal = j at h hex
  cases hex with
  | nothing => cases h
  | empty => cases h
  | uploaded => simp at h
  | @committed _ _ strategy value hdry hrows hobs hwm =>
    simp only [List.mem_cons, reduceCtorEq, Effect.setWatermark.injEq, true_and, List.not_mem_nil,
      or_false, false_or] at h
    exact ⟨strategy, hobs, by rw [h]; exact hwm⟩

variable (lib cfg u dbName) in
/-- A run keeps the watermark and does not end well, or uploads rows of all the documents that it
asked for. -/
lemma run_uploaded (s : MongoState) (env : Env) (ctx : RunContext) :
    (s.run lib cfg u dbName env ctx).stored cfg dbName = s.stored cfg dbName ∧
        ¬ EndedWell ctx (extraction lib cfg u dbName env ctx s.store).1 ∨
      ∃ filter, filterFor cfg (s.stored cfg dbName) = .ok filter ∧
        ∀ doc ∈ env.find filter (makeStrategy cfg).sortSpec,
          Uploaded lib (s.run lib cfg u dbName env ctx) doc := by
  have h := run_cases lib cfg u dbName s env ctx
  generalize s.run lib cfg u dbName env ctx = s' at h ⊢
  cases h with
  | nothing h => exact .inl ⟨rfl, h⟩
  | empty hf hnil =>
    refine .inr ⟨_, hf, fun doc hdoc => ?_⟩
    rw [hnil] at hdoc
    cases hdoc
  | uploaded hf hrows =>
    exact .inr ⟨_, hf, fun doc hdoc => ⟨_, List.mem_append_right _ List.mem_cons_self,
      hasRow_of_rowsOf hrows hdoc⟩⟩
  | committed hf hrows =>
    exact .inr ⟨_, hf, fun doc hdoc => ⟨_, List.mem_append_right _ List.mem_cons_self,
      hasRow_of_rowsOf hrows hdoc⟩⟩

lemma Uploaded.run {doc : Doc} (h : Uploaded lib s doc) :
    Uploaded lib (s.run lib cfg u dbName env ctx) doc := by
  obtain ⟨p, hp, hrow⟩ := h
  exact ⟨p, List.mem_append_left _ hp, hrow⟩

/-- What is sent has rows in the bucket. -/
lemma sent_uploaded (h : ∀ doc ∈ s.sent, Uploaded lib s doc) :
    ∀ doc ∈ (s.run lib cfg u dbName env ctx).sent,
      Uploaded lib (s.run lib cfg u dbName env ctx) doc := by
  intro doc hdoc
  have hran := run_cases lib cfg u dbName s env ctx
  have hkept : doc ∈ s.sent → Uploaded lib (s.run lib cfg u dbName env ctx) doc :=
    fun hd => (h doc hd).run
  generalize s.run lib cfg u dbName env ctx = s' at hran hdoc hkept ⊢
  cases hran with
  | nothing => exact h doc hdoc
  | empty => exact h doc hdoc
  | uploaded hf hrows =>
    rcases List.mem_append.mp hdoc with hd | hd
    · exact hkept hd
    · exact ⟨_, List.mem_append_right _ List.mem_cons_self, hasRow_of_rowsOf hrows hd⟩
  | committed hf hrows =>
    rcases List.mem_append.mp hdoc with hd | hd
    · exact hkept hd
    · exact ⟨_, List.mem_append_right _ List.mem_cons_self, hasRow_of_rowsOf hrows hd⟩

/-! ### Runs as rounds -/

variable (lib cfg dbName) in
/-- The replication that a state is a state of. -/
def replica (s : MongoState) : Replica Doc where
  source := { doc | doc ∈ s.docs }
  delivered := { doc | Uploaded lib s doc }
  ahead := { doc | Awaited cfg dbName s doc }

variable (lib cfg u dbName) in
/-- Writes only bring documents that the next run asks for. -/
def Admits (ok : MongoState → MongoEvent → Prop) : Prop :=
  ∀ s e, ((mongoRuns lib cfg u dbName).restrict ok).Reachable s → ok s e →
    match e with
    | .insert doc => Awaited cfg dbName s doc
    | .update _ new => Awaited cfg dbName s new
    | _ => True

/-- A cursor that reads at once yields all documents that are asked for. -/
lemma mem_find (h : ReadsAtOnce env s.docs) {filter : Filter}
    (hf : filterFor cfg (s.stored cfg dbName) = .ok filter) {doc : Doc} (hd : doc ∈ s.docs)
    (ha : Awaited cfg dbName s doc) (sort : Option (List (String × ℤ))) :
    doc ∈ env.find filter sort :=
  (h filter sort).mem_iff.mpr (List.mem_filter.mpr ⟨hd, ha filter hf⟩)

lemma replica_run (h : ReadsAtOnce env s.docs) : Moves (replica lib cfg dbName s)
    (.round { doc | Uploaded lib (s.run lib cfg u dbName env ctx) doc }
      { doc | Awaited cfg dbName (s.run lib cfg u dbName env ctx) doc })
    (replica lib cfg dbName (s.run lib cfg u dbName env ctx)) := by
  have hdelivered : { doc | Uploaded lib (s.run lib cfg u dbName env ctx) doc } =
      { doc | Uploaded lib s doc } ∪
        { doc | Uploaded lib (s.run lib cfg u dbName env ctx) doc } :=
    (Set.union_eq_right.mpr fun doc hd => Uploaded.run hd).symm
  have hround : (replica lib cfg dbName (s.run lib cfg u dbName env ctx)) =
      { replica lib cfg dbName s with
        delivered := { doc | Uploaded lib s doc } ∪
          { doc | Uploaded lib (s.run lib cfg u dbName env ctx) doc }
        ahead := { doc | Awaited cfg dbName (s.run lib cfg u dbName env ctx) doc } } := by
    rw [← hdelivered]
    rfl
  rw [hround]
  refine .round ?_
  rcases run_uploaded lib cfg u dbName s env ctx with
    ⟨hstored, -⟩ | ⟨filter, hf, hup⟩
  · left
    simp only [replica, Awaited, hstored]
  · right
    rintro doc ⟨hd, ha⟩
    exact hup doc (mem_find h hf hd ha _)

/-- **Runs of a collection are rounds of a replication**, as long as writes only bring what the
next run asks for. -/
theorem mongoRuns_simulates {ok : MongoState → MongoEvent → Prop}
    (hok : Admits lib cfg u dbName ok) :
    ((mongoRuns lib cfg u dbName).restrict ok).Simulation replication
      fun s r => r = replica lib cfg dbName s where
  init := by
    rintro s ⟨hstored, hinitial⟩
    refine ⟨_, fun doc _ => .inr ?_, rfl⟩
    intro filter hf
    rw [hstored, filterFor_none hinitial] at hf
    obtain rfl := Except.ok.inj hf
    rfl
  step := by
    rintro s e s' r hr rfl ⟨hadm, hstep⟩
    have hadm := hok s e hr hadm
    cases hstep with
    | @insert doc =>
      refine ⟨_, .inr ⟨.write doc ∅, .write hadm⟩, ?_⟩
      have hsource : { d | d ∈ doc :: s.docs } = insert doc ({ d | d ∈ s.docs } \ ∅) := by
        ext d
        simp
      simp only [replica, hsource]
      rfl
    | @update a b old new h =>
      refine ⟨_, .inr ⟨.write new { d | d ∉ a ++ b }, .write hadm⟩, ?_⟩
      have hsource : { d | d ∈ a ++ new :: b } =
          insert new ({ d | d ∈ s.docs } \ { d | d ∉ a ++ b }) := by
        ext d
        rw [h]
        simp
        tauto
      simp only [replica, hsource]
      rfl
    | @delete a b doc h =>
      refine ⟨_, .inr ⟨.remove { d | d ∉ a ++ b }, .remove⟩, ?_⟩
      have hsource : { d | d ∈ a ++ b } = { d | d ∈ s.docs } \ { d | d ∉ a ++ b } := by
        ext d
        rw [h]
        simp
        tauto
      simp only [replica, hsource]
      rfl
    | run h => exact ⟨_, .inr ⟨_, replica_run h⟩, rfl⟩

lemma initialWatermark_none {ok : MongoState → MongoEvent → Prop}
    (h : ((mongoRuns lib cfg u dbName).restrict ok).Reachable s) : cfg.initialWatermark = none := by
  induction h with
  | init h => exact h.2
  | step _ _ ih => exact ih

/-- **A run that ends well leaves every document uploaded.** -/
theorem uploaded_of_endedWell {ok : MongoState → MongoEvent → Prop}
    (hok : Admits lib cfg u dbName ok)
    (h : ((mongoRuns lib cfg u dbName).restrict ok).Reachable s) (hreads : ReadsAtOnce env s.docs)
    (hend : EndedWell ctx (extraction lib cfg u dbName env ctx s.store).1) {doc : Doc}
    (hd : doc ∈ s.docs) : Uploaded lib (s.run lib cfg u dbName env ctx) doc := by
  obtain ⟨r, hr, rfl⟩ := (mongoRuns_simulates hok).reachable h
  rcases run_uploaded lib cfg u dbName s env ctx with
    ⟨-, hnot⟩ | ⟨filter, hf, hup⟩
  · exact absurd hend hnot
  have hall := delivered_of_round hr
    (fun d hd => hup d (mem_find hreads hf hd.1 hd.2 _) : _ ⊆
      { doc | Uploaded lib (s.run lib cfg u dbName env ctx) doc })
  rcases hall hd with hd | hd
  · exact hd.run
  · exact hd

lemma calmReads_reads (docs : List Doc) (now : Timestamps.Datetime) :
    ReadsAtOnce (calmReads docs now) docs :=
  fun _ _ => List.Perm.refl _

end MongoSyncAgent.CollectionRuns
