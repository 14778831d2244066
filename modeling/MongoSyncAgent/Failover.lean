import MongoSyncAgent.FirstBounds
import MongoSyncAgent.Merge
import MongoSyncAgent.Mirrors
import MongoSyncAgent.UploadKeys

/-!
A collection that several nodes extract in turn, each with a state store of its own, into the one
clean table that the `MERGE` keeps.

A node knows nothing of what the others have extracted: it goes on from its own watermark, however
stale. What was uploaded by whichever node mirrors the collection nevertheless, as the region that
each node asks for next is a region of a mirror. Nodes that share their state are one node here.
-/

namespace MongoSyncAgent.Failover

open MongoSyncAgent.Py MongoSyncAgent.Bson MongoSyncAgent.Config MongoSyncAgent.State
open MongoSyncAgent.Runtime MongoSyncAgent.Sinks MongoSyncAgent.Watermarks MongoSyncAgent.Keys
open MongoSyncAgent.Timestamps MongoSyncAgent.Extract MongoSyncAgent.Systems
open MongoSyncAgent.CollectionRuns MongoSyncAgent.Merge MongoSyncAgent.Mirrors MongoSyncAgent.Tables

structure Estate (N : Type) where
  docs : List Doc
  stores : N → StateStore
  /-- The time of the last run of any node. -/
  lastRun : Option Datetime
  bucket : List Put
  target : List Version

inductive EstateEvent (N : Type)
  | insert (doc : Doc)
  | update (old new : Doc)
  | delete (doc : Doc)
  | run (n : N) (env : Env) (ctx : RunContext)
  | merge (raw : List Row) (staged : List (Version × ℕ))

variable {N : Type} (lib : Libs) (cfg : CollectionConfig) (u : S3Uploader) (dbName : String)

namespace Estate

/-- What a node sees of the collection. -/
def view (s : Estate N) (n : N) : MongoState := ⟨s.docs, s.stores n, s.bucket, []⟩

/-- The rows of the uploads, in their order. -/
def files (s : Estate N) : List (List Row) := s.bucket.map rowsOf

/-- What the raw table and the clean table come from, and no reads. -/
def landing (s : Estate N) (n : N) : Landing := ⟨s.stores n, s.lastRun, s.files, [], s.target⟩

def run [DecidableEq N] (s : Estate N) (n : N) (env : Env) (ctx : RunContext) : Estate N :=
  let j := (extraction lib cfg u dbName env ctx (s.stores n)).2.journal
  { s with
    stores := Function.update s.stores n (replay (s.stores n) j)
    lastRun := some ctx.runDt
    bucket := s.bucket ++ puts j }

end Estate

/-- A run starts in a later second of the same clock than the last one. -/
def Later (last : Option Datetime) (runDt : Datetime) : Prop :=
  ∀ d, last = some d → d.tzinfo = runDt.tzinfo ∧ d.wall / 1000000 < runDt.wall / 1000000

/-- Documents have `_id`s of different texts, and keep them. The runs of the nodes follow one
another; each may fail or be killed anywhere. -/
inductive EstateStep [DecidableEq N] : Estate N → EstateEvent N → Estate N → Prop
  | insert {s doc} (hnew : ∀ d ∈ s.docs, idText lib d ≠ idText lib doc) :
    EstateStep s (.insert doc) { s with docs := doc :: s.docs }
  | update {s a b old new} (h : s.docs = a ++ old :: b) (hid : idText lib new = idText lib old) :
    EstateStep s (.update old new) { s with docs := a ++ new :: b }
  | delete {s a b doc} (h : s.docs = a ++ doc :: b) :
    EstateStep s (.delete doc) { s with docs := a ++ b }
  | run {s n env ctx} (hreads : ReadsAtOnce env s.docs) (hlater : Later s.lastRun ctx.runDt) :
    EstateStep s (.run n env ctx) (s.run lib cfg u dbName n env ctx)
  | merge {s raw staged} (hraw : Loads s.files raw) (hstaged : Staged raw staged) :
    EstateStep s (.merge raw staged) { s with target := Merge.merge s.target staged }

/-- Before the first run of any node. -/
structure EstateInit (s : Estate N) : Prop where
  stored : ∀ n, (s.view n).stored cfg dbName = none
  initial : cfg.initialWatermark = none
  ids : (s.docs.map (idText lib)).Nodup
  lastRun : s.lastRun = none
  bucket : s.bucket = []
  target : s.target = []

def estates [DecidableEq N] : System (Estate N) (EstateEvent N) where
  init := EstateInit lib cfg dbName
  step := EstateStep lib cfg u dbName

/-- What is written is dated no further behind a stored watermark than the overlap; a collection
that is read as a whole has no dates. -/
def InTime (stored : Option State.Watermark) (doc : Doc) : Prop :=
  match cfg.mode with
  | .appendOnly => ∃ o, get doc "_id" = some (.oid o) ∧ o.low ≠ 0 ∧ AppendOnly.Timely cfg stored o
  | .mutable => ∃ field d, cfg.watermarkField = some field ∧ lookup field doc = some (.date d) ∧
      Mutable.Timely cfg stored d
  | .fullRefresh => True

/-- Every write is in time for every node. -/
def writesInTime (s : Estate N) : EstateEvent N → Prop
  | .insert doc | .update _ doc => ∀ n, InTime cfg ((s.view n).stored cfg dbName) doc
  | _ => True

/-- The clean table has one row for each `_id`, and for each document of the collection the row
of its current version. -/
structure Mirrored (docs : List Doc) (table : List Version) : Prop where
  once : (table.map Version.id).Nodup
  current : ∀ doc ∈ docs, ∃ v ∈ table, v.id = idText lib doc ∧ v.payload = lib.dumps doc

variable {lib cfg u dbName} [DecidableEq N] {s : Estate N} {n : N} {env : Env} {ctx : RunContext}

/-! ### One run -/

variable (lib cfg u dbName s n env ctx) in
/-- What a run leaves: the bucket as it was, and then the watermark too; or one more object, with
the rows of all that the node asked for. -/
lemma run_ends :
    ((s.run lib cfg u dbName n env ctx).bucket = s.bucket ∧
      ((s.run lib cfg u dbName n env ctx).view n).stored cfg dbName =
        (s.view n).stored cfg dbName ∧
      (EndedWell ctx (extraction lib cfg u dbName env ctx (s.stores n)).1 → ∃ filter,
        filterFor cfg ((s.view n).stored cfg dbName) = .ok filter ∧
          env.find filter (makeStrategy cfg).sortSpec = [])) ∨
    ∃ filter p, filterFor cfg ((s.view n).stored cfg dbName) = .ok filter ∧
      (s.run lib cfg u dbName n env ctx).bucket = s.bucket ++ [p] ∧
      p.key = mongoKey u.pre dbName cfg.name ctx.runDt ∧
      RowsOf lib cfg ctx (env.find filter (makeStrategy cfg).sortSpec) (rowsOf p) := by
  have hran := run_cases lib cfg u dbName (s.view n) env ctx
  have hbucket : (s.run lib cfg u dbName n env ctx).bucket =
      ((s.view n).run lib cfg u dbName env ctx).bucket := rfl
  have hstored : ((s.run lib cfg u dbName n env ctx).view n).stored cfg dbName =
      ((s.view n).run lib cfg u dbName env ctx).stored cfg dbName := by
    simp [Estate.view, Estate.run, MongoState.stored, MongoState.run, MongoState.after]
  rw [hbucket, hstored]
  change Ran lib cfg u dbName (s.view n) env ctx
    (extraction lib cfg u dbName env ctx (s.stores n)).1 _ at hran
  generalize (s.view n).run lib cfg u dbName env ctx = s' at hran ⊢
  generalize (extraction lib cfg u dbName env ctx (s.stores n)).1 = r at hran ⊢
  cases hran with
  | nothing h => exact .inl ⟨rfl, rfl, fun hend => absurd hend h⟩
  | empty hf h => exact .inl ⟨rfl, rfl, fun _ => ⟨_, hf, h⟩⟩
  | uploaded hf hrows => exact .inr ⟨_, _, hf, rfl, rfl, hrows⟩
  | committed hf hrows => exact .inr ⟨_, _, hf, rfl, rfl, hrows⟩

lemma stored_run_ne {k : N} (h : k ≠ n) :
    ((s.run lib cfg u dbName n env ctx).view k).stored cfg dbName =
      (s.view k).stored cfg dbName := by
  simp [Estate.view, Estate.run, MongoState.stored, Function.update_of_ne h]

/-! ### What the collection and the bucket keep -/

/-- The `_id`s of the documents have different texts. -/
lemma ids_nodup {ok : Estate N → EstateEvent N → Prop}
    (h : ((estates lib cfg u dbName).restrict ok).Reachable s) :
    (s.docs.map (idText lib)).Nodup := by
  refine h.invariant (P := fun s => (s.docs.map (idText lib)).Nodup)
    (fun s (hs : EstateInit lib cfg dbName s) => hs.ids) fun s e s' _ ih hstep => ?_
  cases hstep.2 with
  | @insert doc hnew =>
    refine List.nodup_cons.mpr ⟨fun hmem => ?_, ih⟩
    obtain ⟨d, hd, heq⟩ := List.mem_map.mp hmem
    exact hnew d hd heq
  | @update a b old new h hid =>
    have hmap : (a ++ new :: b).map (idText lib) = (a ++ old :: b).map (idText lib) := by
      simp [hid]
    rw [hmap, ← h]
    exact ih
  | @delete a b doc h =>
    rw [h] at ih
    exact ih.sublist (((List.sublist_cons_self doc b).append_left a).map _)
  | run => exact ih
  | merge => exact ih

/-- Of the documents, the one that was replaced is the only one with its `_id`. -/
lemma not_mem_of_id {a b : List Doc} {old y : Doc} (hids : ((a ++ old :: b).map (idText lib)).Nodup)
    (hkey : idText lib y = idText lib old) : y ∉ a ++ b := by
  intro hy
  have hmiddle : (a ++ old :: b).Perm (old :: (a ++ b)) := List.perm_middle
  have hperm := (hmiddle.map (idText lib)).nodup_iff
  have hnot := (List.nodup_cons.mp (hperm.mp hids)).1
  exact hnot (List.mem_map.mpr ⟨y, hy, hkey⟩)

/-- The keys of the uploads differ, and are of the seconds up to the last run. -/
structure BucketInv (u : S3Uploader) (dbName name : String) (s : Estate N) : Prop where
  keys : (s.bucket.map Put.key).Nodup
  seconds : ∀ p ∈ s.bucket, ∃ last d, s.lastRun = some last ∧ p.key = mongoKey u.pre dbName name d ∧
    d.wall / 1000000 ≤ last.wall / 1000000

lemma mongoKey_second {pre db coll : String} {d e : Datetime}
    (h : mongoKey pre db coll d = mongoKey pre db coll e) :
    d.wall / 1000000 = e.wall / 1000000 := by
  simp only [mongoKey, String.append_assoc, String.append_right_inj] at h
  have hstamp : UploadKeys.stamp ".parquet" d = UploadKeys.stamp ".parquet" e := by
    simp only [UploadKeys.stamp, String.append_assoc, h]
  exact UploadKeys.stamp_injective hstamp

lemma bucketInv {ok : Estate N → EstateEvent N → Prop}
    (h : ((estates lib cfg u dbName).restrict ok).Reachable s) :
    BucketInv u dbName cfg.name s := by
  refine h.invariant (fun s hs => ?_) fun s e s' _ ih hstep => ?_
  · constructor <;> simp [hs.bucket]
  cases hstep.2 with
  | insert => exact ⟨ih.keys, ih.seconds⟩
  | update => exact ⟨ih.keys, ih.seconds⟩
  | delete => exact ⟨ih.keys, ih.seconds⟩
  | merge => exact ⟨ih.keys, ih.seconds⟩
  | @run n env ctx hreads hlater =>
    have hbefore : ∀ p ∈ s.bucket, ∃ d, p.key = mongoKey u.pre dbName cfg.name d ∧
        d.wall / 1000000 < ctx.runDt.wall / 1000000 := by
      intro p hp
      obtain ⟨last, d, hlast, hkey, hle⟩ := ih.seconds p hp
      exact ⟨d, hkey, hle.trans_lt (hlater last hlast).2⟩
    have hold : ∀ p ∈ s.bucket, ∃ last d, some ctx.runDt = some last ∧
        p.key = mongoKey u.pre dbName cfg.name d ∧ d.wall / 1000000 ≤ last.wall / 1000000 := by
      intro p hp
      obtain ⟨d, hkey, hlt⟩ := hbefore p hp
      exact ⟨_, d, rfl, hkey, hlt.le⟩
    rcases run_ends lib cfg u dbName s n env ctx with ⟨hsame, -⟩ | ⟨filter, p, -, hnew, hkey, -⟩
    · exact ⟨hsame ▸ ih.keys, by rw [hsame]; exact hold⟩
    · constructor
      · rw [hnew, List.map_append, List.map_singleton, List.nodup_append]
        refine ⟨ih.keys, List.nodup_singleton _, fun k hk k' hk' heq => ?_⟩
        obtain ⟨q, hq, rfl⟩ := List.mem_map.mp hk
        obtain ⟨d, hd, hlt⟩ := hbefore q hq
        rw [heq, List.mem_singleton.mp hk', hkey] at hd
        have := mongoKey_second hd
        omega
      · rw [hnew]
        intro q hq
        rcases List.mem_append.mp hq with hq | hq
        · exact hold q hq
        · rw [List.mem_singleton.mp hq]
          exact ⟨_, _, rfl, hkey, le_rfl⟩

/-- The uploads ascend in their times, whatever the nodes are that they are from. -/
lemma landingInv {ok : Estate N → EstateEvent N → Prop}
    (h : ((estates lib cfg u dbName).restrict ok).Reachable s) (n : N) :
    LandingInv (s.landing n) := by
  -- the store of the node does not matter
  have hany : ∀ {s : Estate N} {store : StateStore}, LandingInv (s.landing n) →
      LandingInv ⟨store, s.lastRun, s.files, [], s.target⟩ := fun h =>
    ⟨h.stamped, h.ordered, h.bounded, h.keys, h.uploaded⟩
  refine h.invariant (P := fun s => LandingInv (s.landing n)) (fun s hs => ?_)
    fun s e s' _ ih hstep => ?_
  · constructor <;> simp [Estate.landing, Estate.files, hs.bucket, hs.target]
  cases hstep.2 with
  | insert => exact hany ih
  | update => exact hany ih
  | delete => exact hany ih
  | merge hraw hstaged => exact landingInv_merge ih hraw hstaged
  | @run k env ctx hreads hlater =>
    have hrun : LandingInv (Landing.run lib cfg u dbName
        ⟨s.stores k, s.lastRun, s.files, [], s.target⟩ env ctx) := by
      refine landingInv_run (hany ih) fun d hd => ?_
      obtain ⟨htz, hlt⟩ := hlater d hd
      unfold Datetime.instant
      rw [htz]
      omega
    have hfiles : (s.run lib cfg u dbName k env ctx).files = s.files ++
        (puts (extraction lib cfg u dbName env ctx (s.stores k)).2.journal).map rowsOf :=
      List.map_append
    unfold Estate.landing
    rw [hfiles]
    exact ⟨hrun.stamped, hrun.ordered, hrun.bounded, hrun.keys, hrun.uploaded⟩

/-! ### Each node by itself -/

/-- What a node has stored comes from runs of its own over the collection. -/
lemma node_simulates (n : N) {ok : Estate N → EstateEvent N → Prop} :
    ((estates lib cfg u dbName).restrict ok).Simulation
      ((mongoRuns lib cfg u dbName).restrict fun _ _ => True)
      fun s m => m.docs = s.docs ∧ m.store = s.stores n where
  init := fun s hs => ⟨s.view n, ⟨hs.stored n, hs.initial⟩, rfl, rfl⟩
  step := by
    rintro s e s' m - ⟨hdocs, hstore⟩ ⟨-, hstep⟩
    cases hstep with
    | @insert doc =>
      exact ⟨_, .inr ⟨.insert doc, trivial, .insert⟩, by simp [hdocs], hstore⟩
    | @update a b old new h =>
      exact ⟨_, .inr ⟨.update old new, trivial, .update (hdocs.trans h)⟩, rfl, hstore⟩
    | @delete a b doc h =>
      exact ⟨_, .inr ⟨.delete doc, trivial, .delete (hdocs.trans h)⟩, rfl, hstore⟩
    | merge => exact ⟨m, .inl rfl, hdocs, hstore⟩
    | @run k env ctx hreads hlater =>
      by_cases hk : k = n
      · subst hk
        refine ⟨_, .inr ⟨.run env ctx, trivial, .run (hdocs ▸ hreads)⟩, hdocs, ?_⟩
        simp [MongoState.run, MongoState.after, Estate.run, hstore]
      · refine ⟨m, .inl rfl, hdocs, ?_⟩
        simp [Estate.run, Function.update_of_ne (Ne.symm hk), hstore]

/-- **A write in time is awaited**: the next run of the node asks for it. -/
lemma awaited_of_inTime {ok : Estate N → EstateEvent N → Prop}
    (h : ((estates lib cfg u dbName).restrict ok).Reachable s) {doc : Doc}
    (ht : InTime cfg ((s.view n).stored cfg dbName) doc) : Awaited cfg dbName (s.view n) doc := by
  obtain ⟨m, hm, hdocs, hstore⟩ := (node_simulates n).reachable h
  have hstored : m.stored cfg dbName = (s.view n).stored cfg dbName := by
    rw [MongoState.stored, hstore]
    rfl
  unfold Awaited
  rw [← hstored] at ht ⊢
  unfold InTime at ht
  rcases hmode : cfg.mode <;> rw [hmode] at ht
  · obtain ⟨o, hid, hlow, ht⟩ := ht
    exact AppendOnly.awaited_of_timely hmode (initialWatermark_none hm) hid hlow ht
  · obtain ⟨field, d, hfield, hdate, ht⟩ := ht
    exact Mutable.awaited_of_timely hmode hfield hm hdate ht
  · intro filter hf
    rw [FirstBounds.filterFor_fullRefresh hmode] at hf
    obtain rfl := Except.ok.inj hf
    rfl

/-! ### All nodes together -/

/-- The log of a mirror has the documents of the uploads. -/
def Logged (lib : Libs) (cfg : CollectionConfig) (bucket : List Put)
    (log : List (Set Doc)) : Prop :=
  List.Forall₂ (fun p sent => ∃ ctx docs, RowsOf lib cfg ctx docs (rowsOf p) ∧
    sent = { doc | doc ∈ docs }) bucket log

/-- The mirror that a state is a state of. -/
structure MirrorOf (lib : Libs) (cfg : CollectionConfig) (dbName : String) (s : Estate N)
    (m : Mirror Doc N) : Prop where
  source : m.source = { doc | doc ∈ s.docs }
  ahead : ∀ n, m.ahead n = { doc | Awaited cfg dbName (s.view n) doc }
  log : Logged lib cfg s.bucket m.log

/-- The regions after a run of one node. -/
lemma ahead_run {m : Mirror Doc N} (h : MirrorOf lib cfg dbName s m) (k : N) :
    Function.update m.ahead n
        { doc | Awaited cfg dbName ((s.run lib cfg u dbName n env ctx).view n) doc } k =
      { doc | Awaited cfg dbName ((s.run lib cfg u dbName n env ctx).view k) doc } := by
  by_cases hk : k = n
  · subst hk
    rw [Function.update_self]
  · rw [Function.update_of_ne hk, h.ahead]
    simp only [Awaited, stored_run_ne hk]

omit [DecidableEq N] in
/-- What a run that reads at once gets is all that was ahead. -/
lemma sent_of_reads {m : Mirror Doc N} (h : MirrorOf lib cfg dbName s m)
    (hreads : ReadsAtOnce env s.docs) {filter : Filter}
    (hf : filterFor cfg ((s.view n).stored cfg dbName) = .ok filter)
    (sort : Option (List (String × ℤ))) :
    { doc | doc ∈ env.find filter sort } ⊆ m.source ∧
      m.source ∩ m.ahead n ⊆ { doc | doc ∈ env.find filter sort } := by
  rw [h.source, h.ahead]
  constructor
  · exact fun doc hd => List.mem_of_mem_filter ((hreads filter sort).mem_iff.mp hd)
  · exact fun doc ⟨hd, ha⟩ => mem_find (s := s.view n) hreads hf hd ha sort

/-- **A run is a reading of the mirror.** -/
lemma mirrorOf_run {m : Mirror Doc N} (h : MirrorOf lib cfg dbName s m)
    (hreads : ReadsAtOnce env s.docs) :
    ∃ e m', Moves (idText lib) m e m' ∧
      MirrorOf lib cfg dbName (s.run lib cfg u dbName n env ctx) m' := by
  rcases run_ends lib cfg u dbName s n env ctx with
    ⟨hbucket, hstored, -⟩ | ⟨filter, p, hf, hbucket, -, hrows⟩
  · have hskip : Moves (idText lib) m (.skip n (m.ahead n)) _ := .skip (.inl rfl)
    refine ⟨_, _, hskip, h.source, fun k => ?_, hbucket ▸ h.log⟩
    rw [Function.update_eq_self, h.ahead]
    by_cases hk : k = n
    · subst hk
      simp only [Awaited, hstored]
    · simp only [Awaited, stored_run_ne hk]
  · obtain ⟨hsub, hall⟩ := sent_of_reads h hreads hf (makeStrategy cfg).sortSpec
    refine ⟨_, _, .read hsub (.inr hall), h.source, ahead_run h, ?_⟩
    rw [hbucket]
    exact List.rel_append h.log (.cons ⟨ctx, _, hrows, rfl⟩ .nil)

theorem estates_mirror : ((estates lib cfg u dbName).restrict
      (writesInTime cfg dbName (N := N))).Simulation (mirroring (idText lib))
    fun s m => MirrorOf lib cfg dbName s m where
  init := by
    intro s hs
    refine ⟨⟨_, [], _⟩, ⟨?_, ?_⟩, ⟨rfl, fun n => rfl, hs.bucket ▸ .nil⟩⟩
    · exact fun d hd e he => List.inj_on_of_nodup_map hs.ids hd he
    · intro n doc _ filter hf
      rw [hs.stored, filterFor_none hs.initial] at hf
      obtain rfl := Except.ok.inj hf
      rfl
  step := by
    rintro s e s' m hr h ⟨hok, hstep⟩
    have hids := ids_nodup hr
    have hwrite : ∀ {doc}, (∀ n, InTime cfg ((s.view n).stored cfg dbName) doc) →
        ∀ n, doc ∈ m.ahead n := by
      intro doc ht n
      rw [h.ahead]
      exact awaited_of_inTime hr (ht n)
    cases hstep with
    | @insert doc hnew =>
      have hfresh : ∀ y ∈ m.source, idText lib y = idText lib doc → y ∈ (∅ : Set Doc) := by
        intro y hy hkey
        rw [h.source] at hy
        exact absurd hkey (hnew y hy)
      refine ⟨_, .inr ⟨_, .write (hwrite hok) hfresh⟩, ?_, h.ahead, h.log⟩
      ext d
      simp [h.source]
    | @update a b old new hdocs hid =>
      have hold : ∀ y ∈ m.source, idText lib y = idText lib new → y ∈ { d | d ∉ a ++ b } :=
        fun y _ hkey => not_mem_of_id (hdocs ▸ hids) (hkey.trans hid)
      refine ⟨_, .inr ⟨_, .write (hwrite hok) hold⟩, ?_, h.ahead, h.log⟩
      ext d
      simp [h.source, hdocs]
      tauto
    | @delete a b doc hdocs =>
      refine ⟨_, .inr ⟨_, @Moves.remove _ _ _ _ _ _ { d | d ∉ a ++ b }⟩, ?_, h.ahead, h.log⟩
      ext d
      simp [h.source, hdocs]
      tauto
    | merge => exact ⟨m, .inl rfl, h.source, h.ahead, h.log⟩
    | run hreads =>
      obtain ⟨e, m', hmove, hm'⟩ := mirrorOf_run h hreads
      exact ⟨m', .inr ⟨e, hmove⟩, hm'⟩

/-! ### The clean table -/

/-- A log split at one of its entries splits the bucket. -/
lemma Logged.split {bucket : List Put} {before after : List (Set Doc)} {sent : Set Doc}
    (h : Logged lib cfg bucket (before ++ sent :: after)) :
    ∃ earlier p later, bucket = earlier ++ p :: later ∧
      (∃ ctx docs, RowsOf lib cfg ctx docs (rowsOf p) ∧ sent = { doc | doc ∈ docs }) ∧
      Logged lib cfg later after := by
  induction before generalizing bucket with
  | nil =>
    obtain ⟨p, later, hp, hlater, rfl⟩ := List.forall₂_cons_right_iff.mp h
    exact ⟨[], p, later, rfl, hp, hlater⟩
  | cons b before ih =>
    obtain ⟨q, rest, -, hrest, rfl⟩ := List.forall₂_cons_right_iff.mp h
    obtain ⟨earlier, p, later, rfl, hp, hlater⟩ := ih hrest
    exact ⟨q :: earlier, p, later, rfl, hp, hlater⟩

lemma Logged.row {bucket : List Put} {log : List (Set Doc)} (h : Logged lib cfg bucket log)
    {row : Row} (hrow : row ∈ (bucket.map rowsOf).flatten) :
    ∃ sent ∈ log, ∃ doc ∈ sent, row.id = idText lib doc := by
  induction h with
  | nil => simp at hrow
  | cons hp _ ih =>
    rw [List.map_cons, List.flatten_cons, List.mem_append] at hrow
    rcases hrow with hrow | hrow
    · obtain ⟨ctx, docs, hrows, rfl⟩ := hp
      obtain ⟨doc, hd, hdoc⟩ := hrows.doc_of_row hrow
      exact ⟨_, List.mem_cons_self, doc, hd, (docToRow_columns hdoc).1.1⟩
    · obtain ⟨sent, hsent, hval⟩ := ih hrow
      exact ⟨sent, List.mem_cons_of_mem _ hsent, hval⟩

/-- The last file with the `_id` of a newest document has rows of that document only. -/
lemma lastFile_of_newest {bucket : List Put} {log : List (Set Doc)}
    (h : Logged lib cfg bucket log) {doc : Doc} (hnew : Newest (idText lib) log doc) :
    ∃ file, LastFile (bucket.map rowsOf) (idText lib doc) file ∧
      ∀ row ∈ file, row.id = idText lib doc → row.payload = lib.dumps doc := by
  obtain ⟨before, sent, after, rfl, hmem, hone, hafter⟩ := hnew
  obtain ⟨earlier, p, later, rfl, ⟨ctx, docs, hrows, rfl⟩, hlater⟩ := h.split
  refine ⟨rowsOf p, ⟨earlier.map rowsOf, later.map rowsOf, by simp, ?_, ?_⟩, ?_⟩
  · obtain ⟨row, hrow, hdoc⟩ := hrows.row_of_doc hmem
    exact ⟨row, hrow, (docToRow_columns hdoc).1.1⟩
  · intro f hf row hrow hid
    obtain ⟨s, hs, d, hd, hrid⟩ := hlater.row (List.mem_flatten.mpr ⟨f, hf, hrow⟩)
    exact hafter s hs d hd (hrid.symm.trans hid)
  · intro row hrow hid
    obtain ⟨d, hd, hdoc⟩ := hrows.doc_of_row hrow
    obtain ⟨⟨hrid, hpay⟩, -⟩ := docToRow_columns hdoc
    rw [hpay, hone d hd (hrid.symm.trans hid)]

/-- **A `MERGE` of all uploads** mirrors the documents that are the newest in the log. -/
lemma mirrored_of_newest {docs : List Doc} {log : List (Set Doc)} {t : Landing}
    {bucket : List Put} (hfiles : t.files = bucket.map rowsOf) (hinv : LandingInv t)
    (hlog : Logged lib cfg bucket log) (hnew : ∀ doc ∈ docs, Newest (idText lib) log doc)
    {raw : List Row} {staged : List (Version × ℕ)} (hraw : LoadsAll t.files raw)
    (hstaged : Staged raw staged) : Mirrored lib docs (Merge.merge t.target staged) := by
  obtain ⟨-, hlatest, hfirst⟩ := hstaged.firsts
  refine ⟨merged_nodup hinv hstaged, fun doc hdoc => ?_⟩
  obtain ⟨file, hlast, hpay⟩ := lastFile_of_newest hlog (hnew doc hdoc)
  rw [← hfiles] at hlast
  obtain ⟨earlier, later, hsplit, ⟨row, hrow, hid⟩, -⟩ := id hlast
  have hmem : row ∈ t.files.flatten := by
    rw [hsplit]
    simp [hrow]
  obtain ⟨v, hv, hvid⟩ :=
    hfirst (columns row) ((mem_loaded hraw _).mpr (List.mem_map_of_mem hmem))
  have hvid : v.id = idText lib doc := hvid.trans hid
  refine ⟨v, (mem_upsert_firsts (target_loaded hinv hraw) hstaged).mpr hv, hvid, ?_⟩
  -- the first row is a latest one, and the latest ones are in the last file
  have hv' : Latest Version.id Version.stamp (t.files.flatten.map columns) v :=
    (Latest.congr (mem_loaded hraw)).mp (hlatest v hv)
  obtain ⟨a, ha, rfl⟩ := List.mem_map.mp hv'.1
  obtain ⟨b, hb, heq⟩ := (latest_iff hinv hlast hvid).mp hv'
  have hbid : b.id = idText lib doc := (congrArg Version.id heq).trans hvid
  rw [← heq]
  exact hpay b hb hbid

/-- **Failover is lossless.** After a run that ends well, on whichever node, a `MERGE` of all that
the nodes have uploaded leaves the collection: one row for each `_id`, and the current version of
every document. No upload has replaced another one. -/
theorem failover_mirrors
    (h : ((estates lib cfg u dbName).restrict (writesInTime cfg dbName)).Reachable s)
    (hreads : ReadsAtOnce env s.docs) (hlater : Later s.lastRun ctx.runDt)
    (hend : EndedWell ctx (extraction lib cfg u dbName env ctx (s.stores n)).1) :
    ((s.run lib cfg u dbName n env ctx).bucket.map Put.key).Nodup ∧
      ∀ raw staged, LoadsAll (s.run lib cfg u dbName n env ctx).files raw → Staged raw staged →
        Mirrored lib s.docs (Merge.merge s.target staged) := by
  have hok : writesInTime cfg dbName s (.run n env ctx) := trivial
  have hrun : ((estates lib cfg u dbName).restrict (writesInTime cfg dbName)).Reachable
      (s.run lib cfg u dbName n env ctx) := .step h ⟨hok, .run hreads hlater⟩
  refine ⟨(bucketInv hrun).keys, fun raw staged hraw hstaged => ?_⟩
  obtain ⟨m, hm, hmirror⟩ := estates_mirror.reachable h
  have hsource : ∀ doc ∈ s.docs, doc ∈ m.source := fun doc hd => by rwa [hmirror.source]
  suffices hlog : ∃ log, Logged lib cfg (s.run lib cfg u dbName n env ctx).bucket log ∧
      ∀ doc ∈ s.docs, Newest (idText lib) log doc by
    obtain ⟨log, hlogged, hnew⟩ := hlog
    exact mirrored_of_newest rfl (landingInv hrun n) hlogged hnew hraw hstaged
  rcases run_ends lib cfg u dbName s n env ctx with
    ⟨hbucket, -, hnothing⟩ | ⟨filter, p, hf, hbucket, -, hrows⟩
  · obtain ⟨filter, hf, hnil⟩ := hnothing hend
    obtain ⟨-, hall⟩ := sent_of_reads hmirror hreads hf (makeStrategy cfg).sortSpec
    rw [hnil] at hall
    have hnone : m.source ∩ m.ahead n = ∅ :=
      Set.eq_empty_of_forall_notMem fun d hd => List.not_mem_nil (hall hd)
    exact ⟨m.log, hbucket ▸ hmirror.log, fun doc hd => newest_of_skip hm hnone (hsource doc hd)⟩
  · obtain ⟨hsub, hall⟩ := sent_of_reads hmirror hreads hf (makeStrategy cfg).sortSpec
    refine ⟨_, ?_, fun doc hd => newest_of_read hm hsub hall (hsource doc hd)⟩
    rw [hbucket]
    exact List.rel_append hmirror.log (.cons ⟨ctx, _, hrows, rfl⟩ .nil)

/-! ### Two nodes -/

/-- Two nodes and one job, before the first run. -/
def samplePair : Estate Bool where
  docs := [Mutable.job 1 sampleNow]
  stores _ := StateStore.empty
  lastRun := none
  bucket := []
  target := []

/-- The run of a node, so many seconds later. -/
def Estate.sampleRun (s : Estate Bool) (n : Bool) (seconds : Fin 3600) : Estate Bool :=
  s.run Mutable.jobLibs Mutable.sampleCollection sampleUploader "db" n (calmReads s.docs sampleNow)
    { sampleCtx with runDt := MutableCursor.later seconds }

/-- The first node has extracted the job, and the other one goes on. -/
theorem failover_mirrors_sample :
    ((((samplePair.sampleRun false 1).sampleRun true 2).bucket.map Put.key).Nodup) ∧
      ∀ raw staged, LoadsAll ((samplePair.sampleRun false 1).sampleRun true 2).files raw →
        Staged raw staged → Mirrored Mutable.jobLibs samplePair.docs (Merge.merge [] staged) := by
  have hstart : ((estates Mutable.jobLibs Mutable.sampleCollection sampleUploader "db").restrict
      (writesInTime Mutable.sampleCollection "db")).Reachable samplePair :=
    .init ⟨fun _ => rfl, rfl, by simp [samplePair], rfl, rfl, rfl⟩
  have hok : writesInTime Mutable.sampleCollection "db" samplePair
      (.run false (calmReads samplePair.docs sampleNow)
        { sampleCtx with runDt := MutableCursor.later 1 }) := trivial
  have hpassive : ((estates Mutable.jobLibs Mutable.sampleCollection sampleUploader "db").restrict
      (writesInTime Mutable.sampleCollection "db")).Reachable (samplePair.sampleRun false 1) :=
    .step hstart ⟨hok, .run (calmReads_reads _ _) fun d hd => by cases hd⟩
  refine failover_mirrors hpassive (calmReads_reads _ _) (fun d hd => ?_) ?_
  · obtain rfl := Option.some.inj hd
    exact ⟨rfl, by decide⟩
  · exact ⟨rfl, _, rfl, .inl rfl⟩

end MongoSyncAgent.Failover
